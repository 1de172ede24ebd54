import SqlStyle.Layout.Passes
import SqlStyle.Proofs.Token.Restyle
import SqlStyle.Proofs.Tree.Tokens

/-! What the passes do to the tokens of a tree, read in order. The keyword pass writes each of them in the
style, the join pass leaves alone what holds no join, the pass that moves commas to the heads of lines
leaves the order as it is, and the others change whitespace only. A pass that stops is not spoken of. -/
namespace SqlStyle.Layout
set_option autoImplicit false
open Token (code code_append)
open SqlStyle.Tree

/-! ## Editing line by line -/

theorem editForest_cons (f : Node → Edit Node) (n : Node) (ls rest : List Tree)
    (h : (editForest f (.node n ls :: rest)).fault? = none) :
    (f n).fault? = none ∧ (editForest f ls).fault? = none ∧ (editForest f rest).fault? = none ∧
      (editForest f (.node n ls :: rest)).value =
        .node (f n).value (editForest f ls).value :: (editForest f rest).value := by
  rw [editForest, editTree] at h ⊢
  cases hn : (f n).fault? with
  | some fault => simp [hn] at h
  | none =>
    simp only [hn, Edit.map] at h ⊢
    cases hl : (editForest f ls).fault? with
    | some fault => simp [hl] at h
    | none =>
      simp only [hl] at h ⊢
      exact ⟨trivial, trivial, h, trivial⟩

theorem forestTokens_editForest (f : Node → Edit Node) (R : List Token → List Token → Prop)
    (hnil : R [] []) (happend : ∀ a b c d, R a b → R c d → R (a ++ c) (b ++ d))
    (hline : ∀ n, (f n).fault? = none → R n.tokens (f n).value.tokens) (ts : List Tree)
    (h : (editForest f ts).fault? = none) : R (forestTokens ts) (forestTokens (editForest f ts).value) := by
  induction ts using forestInduction with
  | nil => exact hnil
  | cons n ls rest ihl ihr =>
    obtain ⟨hn, hl, hr, hvalue⟩ := editForest_cons f n ls rest h
    rw [hvalue, forestTokens_cons, forestTokens_cons, tokens_node, tokens_node]
    exact happend _ _ _ _ (happend _ _ _ _ (hline n hn) (ihl hl)) (ihr hr)

theorem editForest_of_unchanged (f : Node → Edit Node) (ts : List Tree)
    (h : ∀ n ∈ forestNodes ts, f n = ⟨n, none⟩) : editForest f ts = ⟨ts, none⟩ := by
  induction ts using forestInduction with
  | nil => rfl
  | cons n ls rest ihl ihr =>
    rw [forestNodes, nodes, List.cons_append, List.forall_mem_cons, List.forall_mem_append] at h
    obtain ⟨hn, hl, hr⟩ := h
    simp only [editForest, editTree, hn, ihl hl, ihr hr, Edit.map]

/-! ## Lines that end in a comma -/

/-- The line at the top of the tree is not empty, and nothing lies below it if it ends in a comma. -/
def CommaReady (t : Tree) : Prop :=
  t.root.tokens.map Token.kind ≠ [] ∧
    ((t.root.tokens.map Token.kind).getLast? = some .comma → t.leaves = [])

instance (t : Tree) : Decidable (CommaReady t) :=
  inferInstanceAs (Decidable (_ ∧ (_ → t.leaves = [])))

theorem commaReady_editForest (f : Node → Edit Node)
    (hkinds : ∀ n, (f n).fault? = none →
      (f n).value.tokens.map Token.kind = n.tokens.map Token.kind)
    (ts : List Tree) (h : (editForest f ts).fault? = none)
    (hready : ∀ t ∈ forestSubtrees ts, CommaReady t) :
    ∀ t ∈ forestSubtrees (editForest f ts).value, CommaReady t := by
  induction ts using forestInduction with
  | nil => simp [editForest, forestSubtrees]
  | cons n ls rest ihl ihr =>
    obtain ⟨hn, hl, hr, hvalue⟩ := editForest_cons f n ls rest h
    rw [forall_mem_forestSubtrees_cons] at hready
    obtain ⟨⟨hne, hcomma⟩, hls, hrest⟩ := hready
    rw [hvalue, forall_mem_forestSubtrees_cons]
    refine ⟨⟨?_, ?_⟩, ihl hl hls, ihr hr hrest⟩
    · rw [root, hkinds n hn]
      exact hne
    · rw [root, hkinds n hn]
      intro hlast
      obtain rfl : ls = [] := hcomma hlast
      rfl

/-! ## Reserved words -/

/-- A token written in the style, if it is a reserved word. -/
def restyled (style : KeywordStyle) (t : Token) : Token :=
  if t.kind.isReserved then { t with word := style.spell t.word } else t

theorem kind_restyled (style : KeywordStyle) (t : Token) : (restyled style t).kind = t.kind := by
  unfold restyled
  split <;> rfl

theorem restyle_ok (style : KeywordStyle) (t : Token) (h : (restyle style t).fault? = none) :
    (restyle style t).value = restyled style t := by
  unfold restyle at h ⊢
  unfold restyled
  split
  · next hk =>
    rw [if_pos hk] at h
    unfold KeywordStyle.write at h ⊢
    split
    · next w hw =>
      split at hw
      · cases hw
      · cases hw
        rfl
    · next fault hw => simp [hw] at h
  · rfl

theorem each_ok {α : Type} (f : α → Edit α) (g : α → α)
    (hf : ∀ a, (f a).fault? = none → (f a).value = g a) (as : List α)
    (h : (Edit.each f as).fault? = none) : (Edit.each f as).value = as.map g := by
  induction as with
  | nil => rfl
  | cons a as ih =>
    rw [Edit.each] at h ⊢
    cases ha : (f a).fault? with
    | some fault => simp [ha] at h
    | none =>
      simp only [ha, Edit.map] at h ⊢
      rw [hf a ha, ih h, List.map_cons]

/-- The keyword pass writes every token in the style. -/
theorem keywordPass_ok (style : KeywordStyle) (n : Node) (ts : List Tree)
    (h : (keywordPass style (.node n ts)).fault? = none) :
    ∃ us, (keywordPass style (.node n ts)).value = .node n us ∧
      forestTokens us = (forestTokens ts).map (restyled style) ∧
      ((∀ t ∈ forestSubtrees ts, CommaReady t) → ∀ t ∈ forestSubtrees us, CommaReady t) := by
  have hline : ∀ m : Node, (Edit.each (restyle style) m.tokens).fault? = none →
      (Edit.each (restyle style) m.tokens).value = m.tokens.map (restyled style) :=
    fun m => each_ok _ _ (restyle_ok style) m.tokens
  refine ⟨_, rfl, ?_, ?_⟩
  · exact forestTokens_editForest _ (fun a b => b = a.map (restyled style)) rfl
      (fun a b c d hab hcd => by rw [hab, hcd, List.map_append]) hline ts h
  · apply commaReady_editForest _ ?_ ts h
    intro m hm
    simp only [Edit.map, withTokens]
    rw [hline m hm, List.map_map]
    exact List.map_congr_left fun t _ => kind_restyled style t

/-! ## Joins -/

theorem completeFrom_of_no_join (style : KeywordStyle) (prev? : Option Token) (ts : List Token)
    (h : ∀ t ∈ ts, t.isKeyword "JOIN" = false) : completeFrom style prev? ts = ts := by
  induction ts generalizing prev? with
  | nil => rfl
  | cons t ts ih =>
    obtain ⟨ht, hts⟩ := List.forall_mem_cons.1 h
    rw [completeFrom, ih (some t) hts]
    simp [ht]

theorem joinPass_of_no_join (style : KeywordStyle) (n : Node) (ts : List Tree)
    (h : ∀ t ∈ forestTokens ts, t.isKeyword "JOIN" = false) :
    joinPass style (.node n ts) = ⟨.node n ts, none⟩ := by
  rw [joinPass, editBeneath, editForest_of_unchanged]
  · rfl
  · intro m hm
    have hjoin : ∀ t ∈ m.tokens, t.isKeyword "JOIN" = false :=
      fun t ht => h t (List.mem_flatMap.2 ⟨m, hm, ht⟩)
    rw [completeJoins, completeFrom_of_no_join style none m.tokens hjoin]
    rfl

/-! ## Commas at the head -/

theorem getLast?_received (comma? : Option Token) (ts : List Token) (hne : ts ≠ []) :
    ∃ last, (comma?.toList ++ ts).getLast? = some last ∧ ts.getLast? = some last := by
  obtain ⟨last, hlast⟩ := Option.ne_none_iff_exists'.1 (mt List.getLast?_eq_none_iff.1 hne)
  exact ⟨last, by rw [List.getLast?_append, hlast, Option.some_or], hlast⟩

theorem treeToHead_ready (comma? : Option Token) (isLast : Bool) (n : Node) (ls bs : List Tree)
    (hready : CommaReady (.node n ls)) (hbelow : forestToHead none ls = ⟨bs, none⟩)
    (hbs : forestTokens bs = forestTokens ls) :
    ∃ t moved?, treeToHead comma? isLast (.node n ls) = ⟨(t, moved?), none⟩ ∧
      (isLast = true → moved? = none) ∧
      t.tokens ++ moved?.toList = comma?.toList ++ (Tree.node n ls).tokens := by
  obtain ⟨hne, hcomma⟩ := hready
  rw [root, ne_eq, List.map_eq_nil_iff] at hne
  obtain ⟨last, hreceived, hlast⟩ := getLast?_received comma? n.tokens hne
  rw [treeToHead]
  simp only [hreceived, hbelow, Edit.map]
  by_cases hlone : last.kind = .comma ∧ (comma?.toList ++ n.tokens).length = 1
  · refine ⟨_, _, by rw [if_pos hlone], fun _ => rfl, ?_⟩
    simp only [tokens_node, withTokens, Option.toList_none, List.append_nil, List.append_assoc]
  · rw [if_neg hlone]
    by_cases hmoves : (last.kind == .comma && !isLast) = true
    · refine ⟨_, _, rfl, ?_, ?_⟩
      · intro hl
        simp [hl] at hmoves
      · have hkind : last.kind = .comma := by
          simp only [Bool.and_eq_true, beq_iff_eq] at hmoves
          exact hmoves.1
        obtain rfl : ls = [] := hcomma (by rw [root, List.getLast?_map, hlast, ← hkind]; rfl)
        simp only [hmoves, if_true, tokens_node, withTokens, hbs, forestTokens_nil, List.append_nil,
          Option.toList_some]
        obtain ⟨front, hfront⟩ := List.getLast?_eq_some_iff.1 hreceived
        rw [hfront, List.dropLast_concat]
    · refine ⟨_, _, rfl, ?_, ?_⟩
      · intro _
        rw [if_neg hmoves]
      · simp only [hmoves, if_false, Bool.false_eq_true, tokens_node, withTokens, hbs,
          Option.toList_none, List.append_nil, List.append_assoc]

/-- Moving commas to the heads of lines that are ready ends without a fault and keeps the order of the
tokens. -/
theorem forestToHead_ready (comma? : Option Token) (ts : List Tree)
    (hready : ∀ t ∈ forestSubtrees ts, CommaReady t) (hroom : ts = [] → comma? = none) :
    ∃ us, forestToHead comma? ts = ⟨us, none⟩ ∧ forestTokens us = comma?.toList ++ forestTokens ts := by
  induction ts using forestInduction generalizing comma? with
  | nil =>
    rw [hroom rfl]
    exact ⟨[], by rw [forestToHead], rfl⟩
  | cons n ls rest ihl ihr =>
    rw [forall_mem_forestSubtrees_cons] at hready
    obtain ⟨hn, hls, hrest⟩ := hready
    obtain ⟨bs, hbelow, hbs⟩ := ihl none hls fun _ => rfl
    obtain ⟨t, moved?, htree, hlast, htokens⟩ :=
      treeToHead_ready comma? rest.isEmpty n ls bs hn hbelow hbs
    obtain ⟨us, hafter, hus⟩ := ihr moved? hrest fun hnil => hlast (by rw [hnil]; rfl)
    refine ⟨t :: us, ?_, ?_⟩
    · simp only [forestToHead, htree, hafter, Edit.map]
    · rw [forestTokens_cons, forestTokens_cons, hus, ← List.append_assoc, htokens, List.append_assoc]

theorem commasToHead_ready (n : Node) (ts : List Tree)
    (hready : ∀ t ∈ forestSubtrees ts, CommaReady t) :
    ∃ us, commasToHead (.node n ts) = ⟨.node n us, none⟩ ∧ forestTokens us = forestTokens ts := by
  obtain ⟨us, hforest, hus⟩ := forestToHead_ready none ts hready fun _ => rfl
  exact ⟨us, by rw [commasToHead, hforest]; rfl, hus⟩

/-! ## Whitespace and blank lines -/

theorem code_indentLine (steps : Nat) (n : Node) : code (indentLine steps n).value.tokens = code n.tokens := by
  unfold indentLine
  split
  · rfl
  · next t ts ht =>
    split
    · next hk => simp [code, withTokens, ht, hk]
    · split
      · simp [code, withTokens, ht, margin, blanks]
      · rfl

theorem code_gap (t next : Token) : code (gap t next) = [] := by
  unfold gap
  split <;> rfl

theorem code_spaceOut (ts : List Token) : code (spaceOut ts) = code ts := by
  fun_induction spaceOut ts with
  | case1 => rfl
  | case2 t => rfl
  | case3 t next rest ih =>
    rw [code_append, ih, ← List.singleton_append, code_append, code_gap, List.append_nil,
      ← code_append]
    rfl

theorem indentPass_ok (steps : Nat) (n : Node) (ts : List Tree)
    (h : (indentPass steps (.node n ts)).fault? = none) :
    ∃ us, (indentPass steps (.node n ts)).value = .node n us ∧
      code (forestTokens us) = code (forestTokens ts) := by
  refine ⟨_, rfl, ?_⟩
  exact forestTokens_editForest _ (fun a b => code b = code a) rfl
    (fun a b c d hab hcd => by rw [code_append, code_append, hab, hcd])
    (fun m _ => code_indentLine steps m) ts h

theorem spacePass_ok (n : Node) (ts : List Tree) (h : (spacePass (.node n ts)).fault? = none) :
    ∃ us, (spacePass (.node n ts)).value = .node n us ∧
      code (forestTokens us) = code (forestTokens ts) := by
  refine ⟨_, rfl, ?_⟩
  exact forestTokens_editForest _ (fun a b => code b = code a) rfl
    (fun a b c d hab hcd => by rw [code_append, code_append, hab, hcd])
    (fun m _ => code_spaceOut m.tokens) ts h

theorem blankForest_ok (ts : List Tree) (h : (blankForest ts).fault? = none) :
    forestTokens (blankForest ts).value = forestTokens ts := by
  fun_induction blankForest ts with
  | case1 => rfl
  | case2 t => simp [blankLine]
  | case3 => simp at h
  | case4 => simp at h
  | case5 t next rest head tail ht hends ih =>
    rw [Edit.map, forestTokens_cons, ih h, ← forestTokens_cons]

theorem blankPass_ok (n : Node) (ts : List Tree) (h : (blankPass (.node n ts)).fault? = none) :
    ∃ us, (blankPass (.node n ts)).value = .node n us ∧ forestTokens us = forestTokens ts := by
  rw [blankPass] at h ⊢
  split
  · next hd =>
    rw [if_pos hd] at h
    exact ⟨_, rfl, blankForest_ok ts h⟩
  · exact ⟨ts, rfl, rfl⟩

/-! ## All passes -/

theorem andThen_ok {α : Type} (e : Edit α) (f : α → Edit α) (h : (e.andThen f).fault? = none) :
    e.fault? = none ∧ (f e.value).fault? = none ∧ (e.andThen f).value = (f e.value).value := by
  unfold Edit.andThen at h ⊢
  cases he : e.fault? with
  | some fault =>
    rw [he] at h
    exact absurd (he.symm.trans h) (by simp)
  | none =>
    rw [he] at h
    exact ⟨rfl, h, rfl⟩

theorem restyled_no_join (style : KeywordStyle) (t : Token) (h : t.key ≠ "JOIN") :
    (restyled style t).isKeyword "JOIN" = false := by
  apply Token.isKeyword_of_key_ne
  unfold restyled
  split
  · exact fun hjoin => h (style.upper_spell_join t.word hjoin)
  · exact h

/-- If commas go to the heads of lines, all passes together do no more to the tokens of lines that are
ready and hold no join than to write them in the style and to put whitespace between them. -/
theorem finish_ok (s : Settings) (n : Node) (ts : List Tree) (hcomma : s.commaPosition = .head)
    (hready : ∀ t ∈ forestSubtrees ts, CommaReady t) (hjoin : ∀ t ∈ forestTokens ts, t.key ≠ "JOIN")
    (hok : (finish s (.node n ts)).fault? = none) :
    ∃ us, (finish s (.node n ts)).value = .node n us ∧
      code (forestTokens us) = code ((forestTokens ts).map (restyled s.keywordStyle)) := by
  have hfinish : finish s (.node n ts) =
      (((((Edit.andThen ⟨.node n ts, none⟩ (keywordPass s.keywordStyle)).andThen
        (joinPass s.keywordStyle)).andThen (commaPass s.commaPosition)).andThen
        (indentPass s.indentSteps)).andThen blankPass).andThen spacePass := rfl
  have hpass : commaPass s.commaPosition = commasToHead := by
    rw [hcomma]
    rfl
  rw [hfinish, hpass] at hok ⊢
  -- no pass stops, from the last to the first; what they do is then followed from the first to the last
  obtain ⟨hok, hspace, hvalue⟩ := andThen_ok _ _ hok
  obtain ⟨hok, hblank, hblankValue⟩ := andThen_ok _ _ hok
  obtain ⟨hok, hindent, hindentValue⟩ := andThen_ok _ _ hok
  obtain ⟨hok, -, hcommaValue⟩ := andThen_ok _ _ hok
  obtain ⟨hok, -, hjoinValue⟩ := andThen_ok _ _ hok
  obtain ⟨-, hkeyword, hkeywordValue⟩ := andThen_ok _ _ hok
  obtain ⟨styled, hstyled, htokens, hstyledReady⟩ := keywordPass_ok s.keywordStyle n ts hkeyword
  have hnone : ∀ t ∈ forestTokens styled, t.isKeyword "JOIN" = false := by
    rw [htokens]
    intro t ht
    obtain ⟨u, hu, rfl⟩ := List.mem_map.1 ht
    exact restyled_no_join s.keywordStyle u (hjoin u hu)
  obtain ⟨moved, hmoved, hmovedTokens⟩ := commasToHead_ready n styled (hstyledReady hready)
  rw [hkeywordValue, hstyled, joinPass_of_no_join s.keywordStyle n styled hnone] at hjoinValue
  rw [hjoinValue, hmoved] at hcommaValue
  rw [hcommaValue] at hindent hindentValue
  obtain ⟨indented, hindented, hindentedCode⟩ := indentPass_ok s.indentSteps n moved hindent
  rw [hindentValue, hindented] at hblank hblankValue
  obtain ⟨parted, hparted, hpartedTokens⟩ := blankPass_ok n indented hblank
  rw [hblankValue, hparted] at hspace hvalue
  obtain ⟨spaced, hspaced, hspacedCode⟩ := spacePass_ok n parted hspace
  refine ⟨spaced, hvalue.trans hspaced, ?_⟩
  rw [hspacedCode, hpartedTokens, hindentedCode, hmovedTokens, htokens]

end SqlStyle.Layout
