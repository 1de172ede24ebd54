import Mathlib.Data.List.Chain
import SqlStyle.Proofs.Layout.Lines

/-! Commas at the ends and at the heads of lines. A comma that begins a line should end the line before it. The pass
puts it at an index instead, which is the number of lines under the same parent: the end of a short line, but
the middle of a longer one. So the pass keeps the order of the tokens exactly if every line that is given a
comma has room for it (`tokens_commasToEnd_iff`). A comma that ends a line goes to the head of the next line with
the same parent, and this keeps the order wherever nothing lies below the line (`tokens_commaPass_head`). -/
namespace SqlStyle.Layout
set_option autoImplicit false
open SqlStyle.Tree

/-! ## Where commas belong -/

mutual

/-- The tree with the comma `comma?` at the end of its line, and the comma at the head of the line given
away; below the line it is the same, unless the line is a comma only. -/
def treeAtEnd (comma? : Option Token) : Tree → Tree
  | .node n ls =>
    .node (withTokens n (afterHeadComma n ++ comma?.toList))
      (if isLoneComma n then ls else forestAtEnd ls)

/-- The trees with each comma that begins a line at the end of the line before. -/
def forestAtEnd : List Tree → List Tree
  | [] => []
  | t :: rest => treeAtEnd (forestComma? rest) t :: forestAtEnd rest

end

def commasAtEnd : Tree → Tree
  | .node n ts => .node n (forestAtEnd ts)

theorem forestAtEnd_cons (n : Node) (ls rest : List Tree) :
    forestAtEnd (.node n ls :: rest) =
      .node (withTokens n (afterHeadComma n ++ (forestComma? rest).toList))
        (if isLoneComma n then ls else forestAtEnd ls) :: forestAtEnd rest := by
  rw [forestAtEnd, treeAtEnd]

/-- A line that gives its comma away comes behind a line with nothing below it. -/
def GivesTo (before after : Tree) : Prop :=
  (headComma? after.root).isSome = true → before.leaves = []

/-- Among trees under one parent, a line that gives its comma away is not the first, and comes behind a
line with nothing below it. -/
structure CommasFollow (ts : List Tree) : Prop where
  first : forestComma? ts = none
  others : ts.IsChain GivesTo

instance (ts : List Tree) : Decidable (CommasFollow ts) :=
  have : DecidableRel GivesTo := fun before after =>
    inferInstanceAs (Decidable ((headComma? after.root).isSome = true → before.leaves = []))
  decidable_of_iff (forestComma? ts = none ∧ ts.IsChain GivesTo)
    ⟨fun h => ⟨h.1, h.2⟩, fun h => ⟨h.first, h.others⟩⟩

theorem tokens_afterHeadComma (n : Node) : (headComma? n).toList ++ afterHeadComma n = n.tokens := by
  rcases afterHeadComma_cases n with ⟨hnone, hkept⟩ | ⟨comma, t, ts, hsome, -, htokens, hkept⟩
  · rw [hnone, hkept]
    rfl
  · rw [hsome, hkept, htokens]
    rfl

/-- A comma that is given away passes over the lines below the line before, of which there are none. -/
theorem comma_passes (n : Node) (ls rest : List Tree) (h : (Tree.node n ls :: rest).IsChain GivesTo) :
    (forestComma? rest).toList ++ forestTokens ls =
      forestTokens ls ++ (forestComma? rest).toList := by
  cases hcomma : forestComma? rest with
  | none => simp
  | some comma =>
    obtain ⟨t, more, rfl⟩ : ∃ t more, rest = t :: more := by
      cases rest with
      | nil => cases hcomma
      | cons t more => exact ⟨t, more, rfl⟩
    have hgives : GivesTo (.node n ls) t := (List.isChain_cons_cons.1 h).1
    have hnil : ls = [] := hgives (Option.isSome_iff_exists.2 ⟨comma, hcomma⟩)
    rw [hnil]
    rfl

theorem forestTokens_forestAtEnd (ts : List Tree) (hchain : ts.IsChain GivesTo)
    (hbelow : ∀ t ∈ forestSubtrees ts, CommasFollow t.leaves) :
    (forestComma? ts).toList ++ forestTokens (forestAtEnd ts) = forestTokens ts := by
  induction ts using forestInduction with
  | nil => rfl
  | cons n ls rest ihl ihr =>
    rw [forall_mem_forestSubtrees_cons] at hbelow
    obtain ⟨hfollow, hls, hrest⟩ := hbelow
    have hunder : forestTokens (if isLoneComma n then ls else forestAtEnd ls) = forestTokens ls := by
      split
      · rfl
      · have h := ihl hfollow.others hls
        rwa [show forestComma? ls = none from hfollow.first] at h
    have hpass := comma_passes n ls rest hchain
    have hafter := ihr (List.isChain_cons.1 hchain).2 hrest
    have hline : (forestComma? (.node n ls :: rest)).toList ++ afterHeadComma n = n.tokens :=
      tokens_afterHeadComma n
    rw [forestAtEnd_cons, forestTokens_cons, forestTokens_cons, tokens_node, tokens_node, hunder]
    calc _ = (forestComma? (.node n ls :: rest)).toList ++ afterHeadComma n ++
          ((forestComma? rest).toList ++ forestTokens ls) ++ forestTokens (forestAtEnd rest) := by
          simp only [withTokens, List.append_assoc]
      _ = n.tokens ++ (forestTokens ls ++ (forestComma? rest).toList) ++
          forestTokens (forestAtEnd rest) := by rw [hline, hpass]
      _ = n.tokens ++ forestTokens ls ++
          ((forestComma? rest).toList ++ forestTokens (forestAtEnd rest)) := by
          simp only [List.append_assoc]
      _ = n.tokens ++ forestTokens ls ++ forestTokens rest := by rw [hafter]

/-! ## Lines of the same length -/

/-- The lines differ in their tokens only, and have as many of them. -/
def SameLength (n m : Node) : Prop :=
  m = withTokens n m.tokens ∧ m.tokens.length = n.tokens.length

theorem length_forestTokens_of_paired {ts us : List Tree} (h : Paired SameLength ts us) :
    (forestTokens us).length = (forestTokens ts).length := by
  induction h with
  | nil => rfl
  | cons root _ _ ihBelow ihAfter =>
    simp only [forestTokens_cons, tokens_node, List.length_append, root.2, ihBelow, ihAfter]

theorem eq_of_forestTokens {ts us : List Tree} (h : Paired SameLength ts us)
    (htokens : forestTokens us = forestTokens ts) : us = ts := by
  induction h with
  | nil => rfl
  | @cons n m ls ks rest others root below after ihBelow ihAfter =>
    simp only [forestTokens_cons, tokens_node, List.append_assoc] at htokens
    obtain ⟨hline, hothers⟩ := List.append_inj htokens root.2
    obtain ⟨hbelow, hafter⟩ := List.append_inj hothers (length_forestTokens_of_paired below)
    have hnode : m = n := by
      rw [root.1, hline]
      rfl
    rw [hnode, ihBelow hbelow, ihAfter hafter]

/-! ## Room for a comma -/

/-- The line has room for the comma at the index `count`: it holds nothing from there on, or only such
commas. -/
def hasRoom (count : Nat) (comma? : Option Token) (n : Node) : Bool :=
  comma?.all fun comma => ((afterHeadComma n).drop count).all fun t => t == comma

mutual

/-- The line of the tree has room for the comma, and so has each line below that is looked into. -/
def treeHasRoom (count : Nat) (comma? : Option Token) : Tree → Bool
  | .node n ls => hasRoom count comma? n && (isLoneComma n || forestHasRoom ls.length ls)

/-- Each line of the trees, of which `count` share a parent, has room for the comma of the next one. -/
def forestHasRoom (count : Nat) : List Tree → Bool
  | [] => true
  | t :: rest => treeHasRoom count (forestComma? rest) t && forestHasRoom count rest

end

/-- Each line of the tree that is given a comma has room for it. -/
def HasRoom (t : Tree) : Prop :=
  forestHasRoom t.leaves.length t.leaves = true

instance (t : Tree) : Decidable (HasRoom t) :=
  inferInstanceAs (Decidable (_ = true))

theorem cons_eq_concat_iff {α : Type} (a : α) (as : List α) : a :: as = as ++ [a] ↔ ∀ b ∈ as, b = a := by
  induction as with
  | nil => simp
  | cons b as ih =>
    rw [List.cons_append, List.cons.injEq, List.forall_mem_cons, ← ih]
    constructor
    · rintro ⟨rfl, h⟩
      exact ⟨rfl, h⟩
    · rintro ⟨rfl, h⟩
      exact ⟨rfl, h⟩

theorem withTokens_inj (n : Node) (ts us : List Token) :
    withTokens n ts = withTokens n us ↔ ts = us :=
  ⟨fun h => congrArg (fun m : Node => m.tokens) h, fun h => by rw [h]⟩

theorem endLine_eq_iff (count : Nat) (comma? : Option Token) (n : Node) :
    endLine count comma? n = withTokens n (afterHeadComma n ++ comma?.toList) ↔
      hasRoom count comma? n = true := by
  rw [endLine, withTokens_inj]
  cases comma? with
  | none => simp [putComma, hasRoom]
  | some comma =>
    have hcut : afterHeadComma n ++ [comma] =
        (afterHeadComma n).take count ++ ((afterHeadComma n).drop count ++ [comma]) := by
      rw [← List.append_assoc, List.take_append_drop]
    rw [putComma, Option.toList_some, hcut, List.append_cancel_left_eq, cons_eq_concat_iff]
    simp [hasRoom]

theorem sameLength_endLine (count : Nat) (comma? : Option Token) (n : Node) :
    SameLength (withTokens n (afterHeadComma n ++ comma?.toList)) (endLine count comma? n) := by
  refine ⟨rfl, ?_⟩
  cases comma? with
  | none => simp [endLine, putComma, withTokens]
  | some comma =>
    have hlength := congrArg List.length (List.take_append_drop count (afterHeadComma n))
    simp only [List.length_append] at hlength
    simp only [endLine, putComma, withTokens, Option.toList_some, List.length_append,
      List.length_cons, List.length_nil]
    omega

/-! ## The pass -/

theorem forestHasRoom_cons (count : Nat) (n : Node) (ls rest : List Tree) :
    forestHasRoom count (.node n ls :: rest) = true ↔
      hasRoom count (forestComma? rest) n = true ∧
        (isLoneComma n = true ∨ forestHasRoom ls.length ls = true) ∧
        forestHasRoom count rest = true := by
  rw [forestHasRoom, treeHasRoom, Bool.and_eq_true, Bool.and_eq_true, Bool.or_eq_true, and_assoc]

/-- The pass makes trees of the same shape, with lines of the same length, as if each comma were at the end
of the line before; and it makes just these if there is room. -/
theorem forestToEnd_atEnd (count : Nat) (ts : List Tree) (hne : ∀ n ∈ forestNodes ts, n.tokens ≠ []) :
    ∃ us, forestToEnd count ts = ⟨us, none⟩ ∧ Paired SameLength (forestAtEnd ts) us ∧
      (us = forestAtEnd ts ↔ forestHasRoom count ts = true) := by
  induction ts using forestInduction generalizing count with
  | nil => exact ⟨[], by rw [forestToEnd], .nil, by simp [forestAtEnd, forestHasRoom]⟩
  | cons n ls rest ihl ihr =>
    rw [forall_mem_forestNodes_cons] at hne
    obtain ⟨hn, hls, hrest⟩ := hne
    obtain ⟨below, hbelow, hpaired, hroom⟩ := ihl ls.length hls
    obtain ⟨after, hafter, hothers, hspace⟩ := ihr count hrest
    refine ⟨_, forestToEnd_cons count n ls rest below after hn hbelow hafter, ?_, ?_⟩
    · rw [forestAtEnd_cons]
      refine .cons (sameLength_endLine count (forestComma? rest) n) ?_ hothers
      split
      · exact paired_self ls fun _ _ => ⟨rfl, rfl⟩
      · exact hpaired
    · rw [forestAtEnd_cons, forestHasRoom_cons, List.cons.injEq, Tree.node.injEq, endLine_eq_iff,
        hspace, and_assoc]
      cases hlone : isLoneComma n with
      | true => simp
      | false => simp [hroom]

/-- Where a line that gives its comma away always comes behind a line with nothing below it, moving commas
to the ends of lines never stops. It keeps the order of the tokens exactly if each line that is given a
comma has room for it, and exactly then each comma that moves becomes the last token of the line
before. -/
theorem tokens_commasToEnd_iff (t : Tree) (hne : ∀ n ∈ t.beneath, n.tokens ≠ [])
    (hfollow : ∀ s ∈ t.subtrees, CommasFollow s.leaves) :
    ∃ u, commasToEnd t = ⟨u, none⟩ ∧ (u.tokens = t.tokens ↔ HasRoom t) ∧
      (u = commasAtEnd t ↔ HasRoom t) := by
  obtain ⟨n, ts⟩ := t
  obtain ⟨us, hus, hpaired, hroom⟩ := forestToEnd_atEnd ts.length ts hne
  rw [subtrees, List.forall_mem_cons] at hfollow
  obtain ⟨htop, hbelow⟩ := hfollow
  have htokens : forestTokens (forestAtEnd ts) = forestTokens ts := by
    have h := forestTokens_forestAtEnd ts htop.others hbelow
    rwa [show forestComma? ts = none from htop.first] at h
  -- the pass keeps the length of every line, so the tokens are in order only in the tree where they belong
  have hsame : forestTokens us = forestTokens ts ↔ us = forestAtEnd ts := by
    rw [← htokens]
    exact ⟨eq_of_forestTokens hpaired, fun h => by rw [h]⟩
  refine ⟨.node n us, by rw [commasToEnd, hus]; rfl, ?_, ?_⟩
  · rw [tokens_node, tokens_node, List.append_cancel_left_eq, hsame]
    exact hroom
  · rw [commasAtEnd, Tree.node.injEq, eq_self, true_and]
    exact hroom

/-- A query with the given lines below `SELECT`. -/
def selecting (lines : List (List Token)) : Tree :=
  .node (top true) [.node ⟨⟨1, [⟨.keyword, "select", none⟩]⟩, 1, true, none⟩
    (lines.map fun ts => .node ⟨⟨0, ts⟩, 2, true, none⟩ [])]

def columnOfTable : List Token :=
  [⟨.identifier, "a", none⟩, ⟨.dot, ".", none⟩, ⟨.identifier, "b", none⟩]

def furtherItem : List Token :=
  [⟨.comma, ",", none⟩, ⟨.identifier, "c", none⟩]

/-- Three lines share a parent, and the first of them has three tokens. -/
theorem tokens_commasToEnd_of_three :
    (commasToEnd (selecting [columnOfTable, furtherItem, furtherItem])).value.tokens =
      (selecting [columnOfTable, furtherItem, furtherItem]).tokens := by
  obtain ⟨u, hu, htokens, -⟩ :=
    tokens_commasToEnd_iff (selecting [columnOfTable, furtherItem, furtherItem])
      (by decide) (by decide)
  rw [hu]
  exact htokens.2 (by decide)

/-- With two lines the comma comes between the dot and the name of the column. -/
theorem tokens_commasToEnd_of_two :
    (∀ n ∈ (selecting [columnOfTable, furtherItem]).beneath, n.tokens ≠ []) ∧
      (∀ s ∈ (selecting [columnOfTable, furtherItem]).subtrees, CommasFollow s.leaves) ∧
      (commasToEnd (selecting [columnOfTable, furtherItem])).value.tokens ≠
        (selecting [columnOfTable, furtherItem]).tokens := by
  decide

/-! ## Commas at the heads of lines -/

/-- The comma at the end of a line that holds more than this comma. -/
def endComma? (n : Node) : Option Token :=
  n.tokens.getLast?.filter fun t => t.kind == .comma && 1 < n.tokens.length

/-- Trees of one shape, in which the comma at the end of a line that holds more has come to the head of the next line
with the same parent. -/
inductive HandedOn : List Tree → List Tree → Prop where
  | nil : HandedOn [] []
  | cons {n m : Node} {ls ks rest others : List Tree}
      (given : ∀ comma ∈ endComma? n, ∀ next ∈ others.head?, next.root.tokens.head? = some comma)
      (below : HandedOn ls ks) (after : HandedOn rest others) :
      HandedOn (.node n ls :: rest) (.node m ks :: others)

theorem endComma?_concat {n : Node} (front : List Token) {last : Token} (h : n.tokens = front ++ [last]) :
    ∀ comma ∈ endComma? n, comma = last ∧ last.kind = .comma ∧ front ≠ [] := by
  intro comma hcomma
  rw [endComma?, h, List.getLast?_concat] at hcomma
  obtain ⟨hlast, hends⟩ := Option.filter_eq_some_iff.1 hcomma
  rw [Bool.and_eq_true, beq_iff_eq, decide_eq_true_iff, List.length_append, List.length_singleton] at hends
  obtain rfl := Option.some.inj hlast
  exact ⟨rfl, hends.1, List.ne_nil_of_length_pos (by omega)⟩

/-- A comma that a line is given stands at its head, and every line that holds more than a comma at its end gives this
comma to the next line. -/
theorem forestToHead_handedOn (comma? : Option Token) (ts : List Tree)
    (hready : ∀ t ∈ forestSubtrees ts, CommaReady t) :
    ∃ us, forestToHead comma? ts = ⟨us, none⟩ ∧ HandedOn ts us ∧
      ∀ comma ∈ comma?, ∀ first ∈ us.head?, first.root.tokens.head? = some comma := by
  induction ts using forestInduction generalizing comma? with
  | nil => exact ⟨[], by rw [forestToHead], .nil, by simp⟩
  | cons n ls rest ihl ihr =>
    rw [forall_mem_forestSubtrees_cons] at hready
    obtain ⟨⟨hne, hends⟩, hls, hrest⟩ := hready
    rw [root, ne_eq, List.map_eq_nil_iff] at hne
    obtain ⟨below, hbelow, hunder, -⟩ := ihl none hls
    rcases treeToHead_cases comma? rest.isEmpty n ls hne with
      ⟨c, rfl, hc, hkind, htree⟩ | ⟨front, last, -, hfront, -, -, htree⟩ | ⟨hkept, htree⟩
    · obtain rfl : ls = [] := hends (by simp [root, hc, hkind])
      obtain ⟨us, hus, hafter, -⟩ := ihr none hrest
      refine ⟨.node n [] :: us, by simp only [forestToHead, htree, hus, Edit.map], .cons ?_ .nil hafter, by simp⟩
      intro comma hcomma
      exact absurd rfl (endComma?_concat [] hc comma hcomma).2.2
    · obtain ⟨us, hus, hafter, hfirst⟩ := ihr (some last) hrest
      refine ⟨.node (withTokens n (comma?.toList ++ front)) below :: us,
        by simp only [forestToHead, htree, hbelow, hus, Edit.map], .cons ?_ hunder hafter, ?_⟩
      · intro comma hcomma
        rw [(endComma?_concat front hfront comma hcomma).1]
        exact hfirst last rfl
      · rintro comma rfl first ⟨⟩
        rfl
    · obtain ⟨us, hus, hafter, -⟩ := ihr none hrest
      refine ⟨.node (withTokens n (comma?.toList ++ n.tokens)) below :: us,
        by simp only [forestToHead, htree, hbelow, hus, Edit.map], .cons ?_ hunder hafter, ?_⟩
      · intro comma hcomma
        obtain ⟨hlast, hk⟩ := Option.filter_eq_some_iff.1 hcomma
        rw [Bool.and_eq_true, beq_iff_eq] at hk
        obtain rfl : rest = [] := List.isEmpty_iff.1 (hkept comma hlast hk.1)
        cases hafter
        simp
      · rintro comma rfl first ⟨⟩
        rfl

/-- If no line below the top is empty, and no line that ends in a comma has lines below it, moving commas to the heads
of lines does not stop, keeps the shape of the tree and the order of its tokens, and leaves no line empty; each
comma behind other tokens of its line has then come to the head of the next line with the same parent. -/
theorem tokens_commaPass_head (t : Tree) (hready : ∀ s ∈ forestSubtrees t.leaves, CommaReady s) :
    ∃ u, commaPass .head t = ⟨u, none⟩ ∧ u.root = t.root ∧ Paired Rearranged t.leaves u.leaves ∧
      u.tokens = t.tokens ∧ (∀ n ∈ u.beneath, n.tokens ≠ []) ∧ HandedOn t.leaves u.leaves := by
  obtain ⟨n, ts⟩ := t
  have hne : ∀ m ∈ forestNodes ts, m.tokens ≠ [] := by
    rw [← forall_mem_forestSubtrees_root fun m => m.tokens ≠ []]
    exact fun s hs hnil => (hready s hs).1 (by rw [hnil]; rfl)
  obtain ⟨us, hus, hpaired⟩ := forestToHead_paired none ts (by simp) hne
  obtain ⟨others, hothers, htokens⟩ := forestToHead_ready none ts hready fun _ => rfl
  obtain ⟨same, hsame, hhanded, -⟩ := forestToHead_handedOn none ts hready
  obtain rfl : us = others := (Edit.mk.inj (hus.symm.trans hothers)).1
  obtain rfl : us = same := (Edit.mk.inj (hus.symm.trans hsame)).1
  refine ⟨.node n us, by rw [commaPass, commasToHead, hus]; rfl, rfl, hpaired, ?_, ?_, hhanded⟩
  · rw [tokens_node, tokens_node, htokens]
    rfl
  · exact hpaired.forall_nodes (fun _ _ h _ => h.ne_nil) hne

/-- Lines that end in commas, of which the second is a comma only. -/
def linesOfCommas : List (List Token) :=
  [columnOfTable ++ [⟨.comma, ",", none⟩], [⟨.comma, ",", none⟩],
    [⟨.identifier, "c", none⟩, ⟨.comma, ",", none⟩], [⟨.identifier, "d", none⟩]]

/-- The line that is a comma only is given another one, and gives its own away. -/
theorem tokens_commaPass_head_of_lone :
    let t := selecting linesOfCommas
    (∀ s ∈ forestSubtrees t.leaves, CommaReady s) ∧
      (∃ u, commaPass .head t = ⟨u, none⟩ ∧ u.root = t.root ∧ Paired Rearranged t.leaves u.leaves ∧
        u.tokens = t.tokens ∧ (∀ n ∈ u.beneath, n.tokens ≠ []) ∧ HandedOn t.leaves u.leaves) ∧
      (commaPass .head t).value.beneath.map (fun n => n.tokens) =
        [[⟨.keyword, "select", none⟩], columnOfTable, [⟨.comma, ",", none⟩], furtherItem,
          [⟨.comma, ",", none⟩, ⟨.identifier, "d", none⟩]] := by
  intro t
  have hready : ∀ s ∈ forestSubtrees t.leaves, CommaReady s := by decide
  exact ⟨hready, tokens_commaPass_head t hready, by decide⟩

end SqlStyle.Layout
