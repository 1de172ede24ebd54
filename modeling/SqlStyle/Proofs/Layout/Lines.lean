import SqlStyle.Proofs.Layout.Order
import SqlStyle.Proofs.Layout.Passes
import SqlStyle.Proofs.Tree.Shape

/-! The lines of a layout, from growth to the passes. Growth makes one line for each of its calls; a line
holds a token, all its tokens come from the run, and it lies one deeper than the line above it. On
lines that hold a token every pass but the one for blank lines ends without a fault, and keeps the shape of
the tree: it changes each line by itself, or moves commas between them. -/
namespace SqlStyle.Layout
set_option autoImplicit false
open Clause SqlStyle.Tree

/-! ## Lines of growth -/

/-- What holds of a call and carries over to its callees holds of all calls of a run without a fault. -/
theorem forall_calls (s : Settings) (c : Call) (number : Nat) (Q : Call → Prop)
    (hok : (grow s c.place number c.run).fault? = none) (hQ : Q c)
    (step : ∀ c d, (plan s c.place c.run).fault? = none → Q c → d ∈ callees s c → Q d) :
    ∀ d ∈ calls s c, (plan s d.place d.run).fault? = none ∧ Q d := by
  induction c using (callees_wellFounded s).induction generalizing number with
  | _ c ih =>
    obtain ⟨hplan, hcallees, -⟩ := grow_ok s c.place number c.run hok
    intro e he
    rw [calls_eq] at he
    rcases List.mem_cons.1 he with rfl | he
    · exact ⟨hplan, hQ⟩
    · obtain ⟨d, hd, he⟩ := List.mem_flatMap.1 he
      exact ih d hd 0 (hcallees d hd) (step c d hplan hQ hd) e he

def callLine (s : Settings) (number : Nat) (c : Call) : Node :=
  ⟨⟨number, (plan s c.place c.run).value.own⟩, c.place.depth, true, none⟩

/-- What holds of every line that a call grows into, with what grows below it, holds of all trees. Nothing
grows below a line without children. -/
theorem forall_mem_forestSubtrees_grow (s : Settings) (c : Call) (number : Nat) (p : Tree → Prop)
    (hok : (grow s c.place number c.run).fault? = none)
    (h : ∀ d ∈ calls s c, ∀ k ls, ((plan s d.place d.run).value.children = [] → ls = []) →
      p (.node (callLine s k d) ls)) :
    ∀ t ∈ forestSubtrees (grow s c.place number c.run).value, p t := by
  induction c using (callees_wellFounded s).induction generalizing number with
  | _ c ih =>
    obtain ⟨-, hcallees, hvalue⟩ := grow_ok s c.place number c.run hok
    have hcallee : ∀ d ∈ callees s c, ∀ t ∈ forestSubtrees (grow s d.place 0 d.run).value, p t :=
      fun d hd => ih d hd 0 (hcallees d hd) fun e he => h e (mem_calls_of_callee s c d e hd he)
    rw [hvalue, sprout, forall_mem_forestSubtrees_cons]
    refine ⟨?_, ?_, ?_⟩
    · apply h c (mem_calls_self s c) number
      intro hnil
      rw [hnil]
      rfl
    · apply forall_mem_forestSubtrees_flatMap
      intro run hr
      exact hcallee _ (mem_callees_below s c run hr)
    · apply forall_mem_forestSubtrees_flatMap
      intro run hr
      exact hcallee _ (mem_callees_after s c run hr)

theorem stepped_grow (s : Settings) (c : Call) (number : Nat)
    (hok : (grow s c.place number c.run).fault? = none) :
    Stepped c.place.depth (grow s c.place number c.run).value := by
  induction c using (callees_wellFounded s).induction generalizing number with
  | _ c ih =>
    obtain ⟨-, hcallees, hvalue⟩ := grow_ok s c.place number c.run hok
    rw [hvalue, sprout, stepped_cons]
    refine ⟨rfl, ?_, ?_⟩
    · apply stepped_flatMap
      intro run hr
      have hd := mem_callees_below s c run hr
      exact ih _ hd 0 (hcallees _ hd)
    · apply stepped_flatMap
      intro run hr
      have hd := mem_callees_after s c run hr
      exact ih _ hd 0 (hcallees _ hd)

/-! ## Tokens of growth -/

theorem split_pieces (place : Place) (ts : List Token) (short : Split)
    (h : split place ts = .ok short) : short.Pieces (nameAfterWith ts) := by
  match ts with
  | [] =>
    cases h
    exact Split.pieces_of_tokens (Split.tokens_whole [])
  | t :: ts =>
    obtain ⟨rest, hname, hrule⟩ := split_rule place t ts short h
    rw [hname]
    exact hrule.pieces

theorem breakLine_pieces (s : Settings) (depth : Int) (own : List Token) (long : Split)
    (h : breakLine s depth own = .ok long) : long.Pieces own := by
  obtain rfl | hbroken := breakLine_cases s depth own long h
  · exact Split.pieces_of_tokens (Split.tokens_whole own)
  · exact splitLong_pieces own long hbroken

theorem plan_pieces (s : Settings) (c : Call) (hok : (plan s c.place c.run).fault? = none) :
    (plan s c.place c.run).value.own <:+: nameAfterWith c.run ∧
      ∀ d ∈ callees s c, d.run <:+: nameAfterWith c.run := by
  obtain ⟨short, long, hshort, hlong, hplan⟩ := plan_ok s c.place c.run hok
  have hs := split_pieces c.place c.run short hshort
  have hl := breakLine_pieces s c.place.depth short.own long hlong
  rw [callees, hplan]
  refine ⟨hl.own.trans hs.own, fun d hd => ?_⟩
  rcases List.mem_append.1 hd with hd | hd
  · obtain ⟨run, hr, rfl⟩ := List.mem_map.1 hd
    rcases List.mem_append.1 (mem_of_mem_filled hr) with hr | hr
    · exact (hl.children run hr).trans hs.own
    · exact hs.children run hr
  · obtain ⟨run, hr, rfl⟩ := List.mem_map.1 hd
    have hr := mem_of_mem_filled hr
    simp only [List.mem_cons, List.not_mem_nil, or_false] at hr
    rcases hr with rfl | rfl
    · exact hl.sibling.trans hs.own
    · exact hs.sibling

theorem exists_readAs {ts us : List Token} (h : List.Forall₂ Token.ReadAs ts us) :
    ∀ u ∈ us, ∃ t ∈ ts, t.ReadAs u := by
  induction h with
  | nil => simp
  | cons htu _ ih =>
    refine List.forall_mem_cons.2 ⟨⟨_, List.mem_cons_self, htu⟩, fun u hu => ?_⟩
    obtain ⟨t, ht, hr⟩ := ih u hu
    exact ⟨t, List.mem_cons_of_mem _ ht, hr⟩

/-- What holds of the tokens of a run, and of a reserved word also when it is read as a name, holds of the
tokens of the lines. -/
theorem forall_mem_tokens_grow (s : Settings) (c : Call) (number : Nat) (p : Token → Prop)
    (hok : (grow s c.place number c.run).fault? = none) (hne : c.run ≠ []) (hp : ∀ t ∈ c.run, p t)
    (hname : ∀ t, t.kind.isReserved = true → p t → p { t with kind := .identifier }) :
    ∀ n ∈ forestNodes (grow s c.place number c.run).value,
      n.tokens ≠ [] ∧ ∀ t ∈ n.tokens, p t := by
  have hread : ∀ ts : List Token, (∀ t ∈ ts, p t) → ∀ u ∈ nameAfterWith ts, p u := by
    intro ts hts u hu
    obtain ⟨t, ht, rfl | ⟨hk, rfl⟩⟩ := exists_readAs (nameAfterWith_readAs ts) u hu
    · exact hts u ht
    · exact hname t hk (hts t ht)
  have hcalls := forall_calls s c number (fun d => d.run ≠ [] ∧ ∀ t ∈ d.run, p t) hok ⟨hne, hp⟩ <| by
    intro c d hplan hc hd
    refine ⟨run_ne_nil_of_mem_callees s c d hplan hd, fun t ht => ?_⟩
    apply hread c.run hc.2
    exact ((plan_pieces s c hplan).2 d hd).subset ht
  rw [← forall_mem_forestSubtrees_root fun n => n.tokens ≠ [] ∧ ∀ t ∈ n.tokens, p t]
  apply forall_mem_forestSubtrees_grow s c number
    (fun t => t.root.tokens ≠ [] ∧ ∀ u ∈ t.root.tokens, p u) hok
  intro d hd k ls _
  obtain ⟨hplan, hrun, htokens⟩ := hcalls d hd
  refine ⟨own_ne_nil s d hplan hrun, fun t ht => ?_⟩
  exact hread d.run htokens t ((plan_pieces s d hplan).1.subset ht)

/-! ## Passes that change each line by itself -/

theorem editForest_eq_mapForest (f : Node → Edit Node) (g : Node → Node) (ts : List Tree)
    (h : ∀ n ∈ forestNodes ts, f n = ⟨g n, none⟩) : editForest f ts = ⟨mapForest g ts, none⟩ := by
  induction ts using forestInduction with
  | nil => rfl
  | cons n ls rest ihl ihr =>
    rw [forall_mem_forestNodes_cons] at h
    obtain ⟨hn, hl, hr⟩ := h
    simp only [editForest, editTree, hn, ihl hl, ihr hr, Edit.map, mapForest_cons]

theorem editBeneath_eq_mapForest (f : Node → Edit Node) (g : Node → Node) (r : Node) (ts : List Tree)
    (h : ∀ n ∈ forestNodes ts, f n = ⟨g n, none⟩) :
    editBeneath f (.node r ts) = ⟨.node r (mapForest g ts), none⟩ := by
  rw [editBeneath, editForest_eq_mapForest f g ts h]
  rfl

theorem each_eq_map {α : Type} (f : α → Edit α) (g : α → α) (as : List α)
    (h : ∀ a ∈ as, f a = ⟨g a, none⟩) : Edit.each f as = ⟨as.map g, none⟩ := by
  induction as with
  | nil => rfl
  | cons a as ih =>
    obtain ⟨ha, has⟩ := List.forall_mem_cons.1 h
    simp only [Edit.each, ha, ih has, Edit.map, List.map_cons]

/-- A reserved word has letters that can be written in a style. -/
def HasLetters (t : Token) : Prop :=
  t.kind.isReserved = true → t.word ≠ ""

theorem restyle_eq (style : KeywordStyle) (t : Token) (h : HasLetters t) :
    restyle style t = ⟨restyled style t, none⟩ := by
  unfold restyle restyled
  split
  · next hk => simp [KeywordStyle.write, h hk]
  · rfl

def restyledLine (style : KeywordStyle) (n : Node) : Node :=
  withTokens n (n.tokens.map (restyled style))

def completedLine (style : KeywordStyle) (n : Node) : Node :=
  withTokens n (completeJoins style n.tokens)

/-- A line in words: its reserved words in the style, and its joins in full. -/
def writtenLine (style : KeywordStyle) (n : Node) : Node :=
  completedLine style (restyledLine style n)

def spacedLine (n : Node) : Node :=
  withTokens n (spaceOut n.tokens)

def indentedLine (steps : Nat) (n : Node) : Node :=
  (indentLine steps n).value

theorem keywordPass_eq (style : KeywordStyle) (r : Node) (ts : List Tree)
    (h : ∀ n ∈ forestNodes ts, ∀ t ∈ n.tokens, HasLetters t) :
    keywordPass style (.node r ts) = ⟨.node r (mapForest (restyledLine style) ts), none⟩ := by
  apply editBeneath_eq_mapForest
  intro n hn
  rw [each_eq_map _ (restyled style) n.tokens fun t ht => restyle_eq style t (h n hn t ht)]
  rfl

theorem joinPass_eq (style : KeywordStyle) (r : Node) (ts : List Tree) :
    joinPass style (.node r ts) = ⟨.node r (mapForest (completedLine style) ts), none⟩ :=
  editBeneath_eq_mapForest _ _ r ts fun _ _ => rfl

theorem spacePass_eq (r : Node) (ts : List Tree) :
    spacePass (.node r ts) = ⟨.node r (mapForest spacedLine ts), none⟩ :=
  editBeneath_eq_mapForest _ _ r ts fun _ _ => rfl

theorem indentPass_eq (steps : Nat) (r : Node) (ts : List Tree)
    (h : ∀ n ∈ forestNodes ts, n.tokens ≠ []) :
    indentPass steps (.node r ts) = ⟨.node r (mapForest (indentedLine steps) ts), none⟩ := by
  apply editBeneath_eq_mapForest
  intro n hn
  obtain ⟨t, us, ht⟩ := List.exists_cons_of_ne_nil (h n hn)
  simp only [indentedLine, indentLine, ht]
  split
  · rfl
  · split <;> rfl

/-! ## Commas -/

/-- What moving commas may make of a line: it gives one away and takes another, and is not left empty. -/
structure Rearranged (n m : Node) : Prop where
  frame : m = withTokens n m.tokens
  ne_nil : m.tokens ≠ []
  mem : ∀ t ∈ m.tokens, t ∈ n.tokens ∨ t.kind = .comma

/-- What becomes of a line when commas move to the heads of lines: it is a lone comma and stays so, it gives
away the comma at its end, or it keeps its tokens. -/
theorem treeToHead_cases (comma? : Option Token) (isLast : Bool) (n : Node) (ls : List Tree)
    (hne : n.tokens ≠ []) :
    (∃ c, comma? = none ∧ n.tokens = [c] ∧ c.kind = .comma ∧
        treeToHead comma? isLast (.node n ls) = ⟨(.node n ls, none), none⟩) ∨
      (∃ front last, isLast = false ∧ n.tokens = front ++ [last] ∧ last.kind = .comma ∧
        comma?.toList ++ front ≠ [] ∧
        treeToHead comma? isLast (.node n ls) = (forestToHead none ls).map fun below =>
          (.node (withTokens n (comma?.toList ++ front)) below, some last)) ∨
      ((∀ last ∈ n.tokens.getLast?, last.kind = .comma → isLast = true) ∧
        treeToHead comma? isLast (.node n ls) = (forestToHead none ls).map fun below =>
          (.node (withTokens n (comma?.toList ++ n.tokens)) below, none)) := by
  obtain ⟨last, hreceived, hlast⟩ := getLast?_received comma? n.tokens hne
  obtain ⟨front, hfront⟩ := List.getLast?_eq_some_iff.1 hlast
  rw [treeToHead]
  simp only [hreceived]
  by_cases hlone : last.kind = .comma ∧ (comma?.toList ++ n.tokens).length = 1
  · obtain ⟨hkind, hone⟩ := hlone
    have hnone : comma? = none := by
      cases comma? with
      | none => rfl
      | some c => simp [hfront] at hone
    subst hnone
    have hnil : front = [] := by simpa [hfront] using hone
    subst hnil
    refine .inl ⟨last, rfl, hfront, hkind, ?_⟩
    rw [if_pos ⟨hkind, hone⟩]
    rfl
  · rw [if_neg hlone]
    by_cases hmoves : (last.kind == .comma && !isLast) = true
    · obtain ⟨hkind, hmore⟩ := Bool.and_eq_true_iff.1 hmoves
      rw [beq_iff_eq] at hkind
      refine .inr (.inl ⟨front, last, by simpa using hmore, hfront, hkind, ?_, ?_⟩)
      · intro hnil
        apply hlone
        rw [hfront, ← List.append_assoc, hnil]
        exact ⟨hkind, rfl⟩
      · simp only [hmoves, if_true, hfront, ← List.append_assoc, List.dropLast_concat]
    · refine .inr (.inr ⟨?_, ?_⟩)
      · intro u hu hkind
        obtain rfl := Option.some.inj (hlast.symm.trans (Option.mem_def.1 hu))
        simpa [hkind] using hmoves
      · simp only [hmoves, if_false, Bool.false_eq_true]

theorem mem_received {comma? : Option Token} {ts : List Token}
    (hcomma : ∀ c ∈ comma?, c.kind = .comma) :
    ∀ t ∈ comma?.toList ++ ts, t ∈ ts ∨ t.kind = .comma := by
  intro t ht
  rcases List.mem_append.1 ht with ht | ht
  · exact .inr (hcomma t (Option.mem_toList.1 ht))
  · exact .inl ht

theorem Rearranged.refl {n : Node} (hn : n.tokens ≠ []) : Rearranged n n :=
  ⟨rfl, hn, fun _ ht => .inl ht⟩

/-- Lines that hold a token keep one when commas move to the heads of lines, and nothing stops the move. -/
theorem forestToHead_paired (comma? : Option Token) (ts : List Tree)
    (hcomma : ∀ c ∈ comma?, c.kind = .comma) (hne : ∀ n ∈ forestNodes ts, n.tokens ≠ []) :
    ∃ us, forestToHead comma? ts = ⟨us, none⟩ ∧ Paired Rearranged ts us := by
  induction ts using forestInduction generalizing comma? with
  | nil => exact ⟨[], by rw [forestToHead], .nil⟩
  | cons n ls rest ihl ihr =>
    rw [forall_mem_forestNodes_cons] at hne
    obtain ⟨hn, hls, hrest⟩ := hne
    obtain ⟨below, hbelow, hpaired⟩ := ihl none (by simp) hls
    rcases treeToHead_cases comma? rest.isEmpty n ls hn with
      ⟨c, rfl, hc, -, htree⟩ | ⟨front, last, -, hfront, hlast, hfilled, htree⟩ | ⟨-, htree⟩
    · obtain ⟨us, hus, hafter⟩ := ihr none (by simp) hrest
      refine ⟨.node n ls :: us, ?_, .cons (.refl hn) ?_ hafter⟩
      · simp only [forestToHead, htree, hus, Edit.map]
      · exact paired_self ls fun m hm => .refl (hls m hm)
    · obtain ⟨us, hus, hafter⟩ := ihr (some last) (by simpa using hlast) hrest
      refine ⟨.node (withTokens n (comma?.toList ++ front)) below :: us, ?_, .cons ?_ hpaired hafter⟩
      · simp only [forestToHead, htree, hbelow, hus, Edit.map]
      · refine ⟨rfl, hfilled, fun t ht => ?_⟩
        rcases mem_received hcomma t ht with ht | ht
        · exact .inl (hfront ▸ List.mem_append_left _ ht)
        · exact .inr ht
    · obtain ⟨us, hus, hafter⟩ := ihr none (by simp) hrest
      refine ⟨.node (withTokens n (comma?.toList ++ n.tokens)) below :: us, ?_, .cons ?_ hpaired hafter⟩
      · simp only [forestToHead, htree, hbelow, hus, Edit.map]
      · exact ⟨rfl, List.append_ne_nil_of_right_ne_nil _ hn, mem_received hcomma⟩

/-- The tokens that a line keeps when commas move to the ends of lines. -/
def afterHeadComma (n : Node) : List Token :=
  if (headComma? n).isSome then n.tokens.drop 1 else n.tokens

theorem headComma?_eq_some_iff {n : Node} {comma : Token} :
    headComma? n = some comma ↔
      1 < n.depth ∧ comma.kind = .comma ∧ ∃ t ts, n.tokens = comma :: t :: ts := by
  unfold headComma?
  constructor
  · intro h
    split at h
    · cases h
    · next hd =>
      split at h
      · next t u us ht =>
        split at h
        · next hk =>
          cases h
          exact ⟨by omega, hk, u, us, ht⟩
        · cases h
      · cases h
  · rintro ⟨hd, hk, t, ts, ht⟩
    rw [if_neg (by omega), ht]
    exact if_pos hk

theorem afterHeadComma_cases (n : Node) :
    (headComma? n = none ∧ afterHeadComma n = n.tokens) ∨
      ∃ comma t ts, headComma? n = some comma ∧ comma.kind = .comma ∧
        n.tokens = comma :: t :: ts ∧ afterHeadComma n = t :: ts := by
  cases h : headComma? n with
  | none => exact .inl ⟨rfl, by simp [afterHeadComma, h]⟩
  | some comma =>
    obtain ⟨-, hk, t, ts, ht⟩ := headComma?_eq_some_iff.1 h
    exact .inr ⟨comma, t, ts, rfl, hk, ht, by simp [afterHeadComma, h, ht]⟩

theorem treeToEnd_eq (n : Node) (ls : List Tree) (hne : n.tokens ≠ []) :
    treeToEnd (.node n ls) =
      if isLoneComma n then ⟨.node n ls, none⟩
      else (forestToEnd ls.length ls).map (.node (withTokens n (afterHeadComma n))) := by
  have hfilled : ¬(1 < n.depth ∧ n.tokens.isEmpty = true) := by simp [hne]
  rw [treeToEnd, if_neg hfilled]
  by_cases hlone : isLoneComma n = true
  · have hnone : headComma? n = none := by
      unfold isLoneComma at hlone
      unfold headComma?
      split at hlone
      · next t ht => simp [ht]
      · simp at hlone
    simp [hlone, hnone]
  · simp only [hlone, if_false, Bool.false_eq_true, afterHeadComma]
    split <;> rfl

/-- The tokens with a comma put at the given index, or at the end of a line that is shorter. -/
def putComma (index : Nat) (comma? : Option Token) (ts : List Token) : List Token :=
  match comma? with
  | none => ts
  | some comma => ts.take index ++ comma :: ts.drop index

theorem takeComma_node (index : Nat) (comma? : Option Token) (n : Node) (ls : List Tree) :
    takeComma index comma? (.node n ls) = .node (withTokens n (putComma index comma? n.tokens)) ls := by
  cases comma? <;> rfl

/-- The line without the comma at its head, and with the comma from the head of the next line. -/
def endLine (count : Nat) (comma? : Option Token) (n : Node) : Node :=
  withTokens n (putComma count comma? (afterHeadComma n))

theorem forestToEnd_cons (count : Nat) (n : Node) (ls rest below after : List Tree)
    (hne : n.tokens ≠ []) (hbelow : forestToEnd ls.length ls = ⟨below, none⟩)
    (hafter : forestToEnd count rest = ⟨after, none⟩) :
    forestToEnd count (.node n ls :: rest) =
      ⟨.node (endLine count (forestComma? rest) n) (if isLoneComma n then ls else below) :: after,
        none⟩ := by
  rw [forestToEnd, treeToEnd_eq n ls hne, hbelow, hafter]
  by_cases hlone : isLoneComma n = true
  · have htokens : afterHeadComma n = n.tokens := by
      rcases afterHeadComma_cases n with ⟨-, h⟩ | ⟨comma, t, ts, -, -, ht, -⟩
      · exact h
      · simp [isLoneComma, ht] at hlone
    simp only [hlone, if_true, Edit.map, takeComma_node, endLine, htokens]
  · simp only [hlone, if_false, Bool.false_eq_true, Edit.map, takeComma_node]
    rfl

theorem rearranged_endLine (count : Nat) (comma? : Option Token) (n : Node)
    (hcomma : ∀ c ∈ comma?, c.kind = .comma) (hne : n.tokens ≠ []) :
    Rearranged n (endLine count comma? n) := by
  have hkept : afterHeadComma n ≠ [] ∧ ∀ t ∈ afterHeadComma n, t ∈ n.tokens := by
    rcases afterHeadComma_cases n with ⟨-, h⟩ | ⟨comma, t, ts, -, -, ht, h⟩
    · rw [h]
      exact ⟨hne, fun _ ht => ht⟩
    · rw [h, ht]
      exact ⟨List.cons_ne_nil t ts, fun _ hu => List.mem_cons_of_mem comma hu⟩
  refine ⟨rfl, ?_, ?_⟩
  · cases comma? with
    | none => exact hkept.1
    | some comma => simp [endLine, putComma, withTokens]
  · intro t ht
    cases comma? with
    | none => exact .inl (hkept.2 t ht)
    | some comma =>
      rcases List.mem_append.1 ht with ht | ht
      · exact .inl (hkept.2 t (List.mem_of_mem_take ht))
      · rcases List.mem_cons.1 ht with rfl | ht
        · exact .inr (hcomma t rfl)
        · exact .inl (hkept.2 t (List.mem_of_mem_drop ht))

theorem kind_forestComma? (ts : List Tree) : ∀ c ∈ forestComma? ts, c.kind = .comma := by
  intro c hc
  cases ts with
  | nil => cases hc
  | cons t ts => exact (headComma?_eq_some_iff.1 hc).2.1

/-- Lines that hold a token keep one when commas move to the ends of lines, and nothing stops the move. -/
theorem forestToEnd_paired (count : Nat) (ts : List Tree)
    (hne : ∀ n ∈ forestNodes ts, n.tokens ≠ []) :
    ∃ us, forestToEnd count ts = ⟨us, none⟩ ∧ Paired Rearranged ts us := by
  induction ts using forestInduction generalizing count with
  | nil => exact ⟨[], by rw [forestToEnd], .nil⟩
  | cons n ls rest ihl ihr =>
    rw [forall_mem_forestNodes_cons] at hne
    obtain ⟨hn, hls, hrest⟩ := hne
    obtain ⟨below, hbelow, hpaired⟩ := ihl ls.length hls
    obtain ⟨after, hafter, hothers⟩ := ihr count hrest
    refine ⟨_, forestToEnd_cons count n ls rest below after hn hbelow hafter, .cons ?_ ?_ hothers⟩
    · exact rearranged_endLine count (forestComma? rest) n (kind_forestComma? rest) hn
    · split
      · exact paired_self ls fun m hm => .refl (hls m hm)
      · exact hpaired

theorem commaPass_paired (position : CommaPosition) (r : Node) (ts : List Tree)
    (hne : ∀ n ∈ forestNodes ts, n.tokens ≠ []) :
    ∃ us, commaPass position (.node r ts) = ⟨.node r us, none⟩ ∧ Paired Rearranged ts us := by
  cases position with
  | head =>
    obtain ⟨us, hus, hpaired⟩ := forestToHead_paired none ts (by simp) hne
    exact ⟨us, by rw [commaPass, commasToHead, hus]; rfl, hpaired⟩
  | tail =>
    obtain ⟨us, hus, hpaired⟩ := forestToEnd_paired ts.length ts hne
    exact ⟨us, by rw [commaPass, commasToEnd, hus]; rfl, hpaired⟩

end SqlStyle.Layout
