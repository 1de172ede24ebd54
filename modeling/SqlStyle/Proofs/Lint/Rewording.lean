import Mathlib.Data.List.Forall2
import SqlStyle.Proofs.Lint.Scripts
import SqlStyle.Proofs.Tree.Shape

/-! What comments say. Checks look at the kind and the length of a comment, and at its words only where they take
every token alike: in the search for joins and for commas. So other words of the same length, in any comments,
change nothing that is found, as long as no comment becomes, or ceases to be, the word of a join or a comma
(`report_of_rephrased`). Some reports quote the token next to a comma or an operator: they quote the new words. -/
namespace SqlStyle
set_option autoImplicit false
open List (Forall₂)

/-! ## Other words -/

/-- The same token, but for the words of a comment, which are others of the same length. -/
structure Token.Reworded (t u : Token) : Prop where
  kind : u.kind = t.kind
  length : u.length = t.length
  word : t.kind ≠ .comment → u.word = t.word

/-- Other words that are taken for a join, and for a comma, exactly if the first ones are. Which words
replace which is told by `R`. -/
structure Token.Rephrased (R : Token → Token → Prop) (t u : Token) : Prop extends Token.Reworded t u where
  join : u.key = "JOIN" ↔ t.key = "JOIN"
  comma : u.word = "," ↔ t.word = ","
  rel : R t u

instance (t u : Token) : Decidable (t.Reworded u) :=
  decidable_of_iff (u.kind = t.kind ∧ u.length = t.length ∧ (t.kind ≠ .comment → u.word = t.word))
    ⟨fun h => ⟨h.1, h.2.1, h.2.2⟩, fun h => ⟨h.kind, h.length, h.word⟩⟩

instance (R : Token → Token → Prop) [∀ t u, Decidable (R t u)] (t u : Token) : Decidable (t.Rephrased R u) :=
  decidable_of_iff (t.Reworded u ∧ (u.key = "JOIN" ↔ t.key = "JOIN") ∧ (u.word = "," ↔ t.word = ",") ∧ R t u)
    ⟨fun h => ⟨h.1, h.2.1, h.2.2.1, h.2.2.2⟩, fun h => ⟨h.toReworded, h.join, h.comma, h.rel⟩⟩

/-- The node with its tokens changed one by one. -/
def Node.Retold (R : Token → Token → Prop) (n m : Node) : Prop :=
  m = { n with tokens := m.tokens } ∧ Forall₂ R n.tokens m.tokens

def Tree.Retold (R : Token → Token → Prop) (t u : Tree) : Prop :=
  Tree.Paired (Node.Retold R) [t] [u]

structure Line.Retold (R : Token → Token → Prop) (a b : Line) : Prop where
  number : b.number = a.number
  tokens : Forall₂ R a.tokens b.tokens

section Replacement
variable {R : Token → Token → Prop}

/-! ## Texts -/

section Span
variable {α : Type} {S : α → α → Prop} {p q : α → Bool} (hpq : ∀ a b, S a b → q b = p a) {as bs : List α}
include hpq

theorem forall₂_takeWhile (h : Forall₂ S as bs) : Forall₂ S (as.takeWhile p) (bs.takeWhile q) := by
  induction h with
  | nil => exact .nil
  | @cons a b as bs hab hrest ih =>
    rw [List.takeWhile_cons, List.takeWhile_cons, hpq a b hab]
    split
    · exact .cons hab ih
    · exact .nil

theorem forall₂_dropWhile (h : Forall₂ S as bs) : Forall₂ S (as.dropWhile p) (bs.dropWhile q) := by
  induction h with
  | nil => exact .nil
  | @cons a b as bs hab hrest ih =>
    rw [List.dropWhile_cons, List.dropWhile_cons, hpq a b hab]
    split
    · exact ih
    · exact .cons hab hrest

end Span

theorem Line.Retold.indent (hR : ∀ t u, R t u → t.Reworded u) {a b : Line} (h : a.Retold R b) :
    b.indent = a.indent := by
  obtain ⟨n, ts⟩ := a
  obtain ⟨m, us⟩ := b
  cases h.tokens with
  | nil => rfl
  | cons htu _ => simp only [Line.indent, (hR _ _ htu).kind, (hR _ _ htu).length]

/-- Lines keep their places as their comments are reworded. -/
theorem Tree.retold_nest (hR : ∀ t u, R t u → t.Reworded u) (condensed : Bool) (depth : Int) {ls ks : List Line}
    (h : Forall₂ (Line.Retold R) ls ks) :
    Paired (Node.Retold R) (nest condensed depth ls) (nest condensed depth ks) := by
  fun_induction nest condensed depth ls generalizing ks with
  | case1 =>
    cases h
    rw [nest]
    exact .nil
  | case2 depth line rest ihbelow ihafter =>
    cases h with
    | @cons _ other _ others hline hrest =>
      have hindent (a b : Line) (hab : a.Retold R b) :
          decide (other.indent < b.indent) = decide (line.indent < a.indent) := by
        rw [hline.indent hR, hab.indent hR]
      rw [nest]
      refine .cons ⟨?_, hline.tokens⟩ (ihbelow ?_) (ihafter ?_)
      · rw [← hline.number]
      · exact forall₂_takeWhile hindent hrest
      · exact forall₂_dropWhile hindent hrest

theorem Tree.retold_numbered {xs ys : List (List Token)} (h : Forall₂ (Forall₂ R) xs ys) :
    Forall₂ (Line.Retold R) (numbered xs) (numbered ys) := by
  let line (x : List Token × Nat) : Line := ⟨x.2 + 1, x.1⟩
  suffices hfrom : ∀ k, Forall₂ (Line.Retold R) ((xs.zipIdx k).map line) ((ys.zipIdx k).map line) from hfrom 0
  induction h with
  | nil => exact fun _ => .nil
  | cons htu _ ih => exact fun k => .cons ⟨rfl, htu⟩ (ih (k + 1))

/-- Statements that differ in the words of comments only have trees that do. -/
theorem Tree.retold_ofSql (hR : ∀ t u, R t u → t.Reworded u) (a b : String)
    (h : Forall₂ (Forall₂ R) (Scan.scan a) (Scan.scan b)) : Tree.Retold R (ofSql false a) (ofSql false b) :=
  .cons ⟨rfl, .nil⟩ (retold_nest hR false 1 (retold_numbered h)) .nil

theorem Token.width_rephrased {ts us : List Token} (h : Forall₂ (Token.Rephrased R) ts us) :
    Token.width us = Token.width ts := by
  induction h with
  | nil => rfl
  | cons htu _ ih => rw [Token.width, Token.width, htu.length, ih]

theorem Violation.ofLine_rephrased {a b : Line} (h : a.Retold (Token.Rephrased R) b) (code : Code) (index : Int)
    (details : Details) : Violation.ofLine b code index details = Violation.ofLine a code index details := by
  have hwidth := Token.width_rephrased (List.forall₂_take index.toNat h.tokens)
  rw [Violation.ofLine, Violation.ofLine, h.number, Line.column, Line.column, hwidth]

/-! ## Windows -/

structure Window.Rephrased (R : Token → Token → Prop) (w x : Window) : Prop where
  before : Forall₂ (Token.Rephrased R) w.before x.before
  token : w.token.Rephrased R x.token
  after : Forall₂ (Token.Rephrased R) w.after x.after

theorem Window.Rephrased.index {w x : Window} (h : w.Rephrased R x) : x.index = w.index :=
  h.before.length_eq.symm

theorem Window.rephrased_along {ts us bs cs : List Token} (hbefore : Forall₂ (Token.Rephrased R) bs cs)
    (h : Forall₂ (Token.Rephrased R) ts us) : Forall₂ (Window.Rephrased R) (along bs ts) (along cs us) := by
  induction h generalizing bs cs with
  | nil => exact .nil
  | cons htu hrest ih => exact .cons ⟨hbefore, htu, hrest⟩ (ih (.cons htu hbefore))

theorem rephrased_windows {ts us : List Token} (h : Forall₂ (Token.Rephrased R) ts us) :
    Forall₂ (Window.Rephrased R) (windows ts) (windows us) :=
  Window.rephrased_along .nil h

/-! ## Findings -/

/-- The same violation, but that its report quotes the new words of a comment next to a comma or an operator. -/
inductive Violation.Requoted (R : Token → Token → Prop) : Violation → Violation → Prop where
  | same (v : Violation) : Requoted R v v
  | after (code : Code) (line column : Nat) (mark : String) (t u : Token)
      (hcode : code = .noSpaceAfterComma ∨ code = .noSpaceAfterOperator) (hkind : t.kind = .comment)
      (h : R t u) :
      Requoted R ⟨code, line, column, { target? := some (mark ++ t.word) }⟩
        ⟨code, line, column, { target? := some (mark ++ u.word) }⟩
  | before (line column : Nat) (mark : String) (t u : Token) (hkind : t.kind = .comment)
      (h : R t u) :
      Requoted R ⟨.noSpaceBeforeOperator, line, column, { target? := some (t.word ++ mark) }⟩
        ⟨.noSpaceBeforeOperator, line, column, { target? := some (u.word ++ mark) }⟩

/-- Both results are the same fault, or findings that are related one by one. -/
inductive Lint.Alike {β : Type} (R : β → β → Prop) :
    Except Fault (List β) → Except Fault (List β) → Prop where
  | error (fault : Fault) : Alike R (.error fault) (.error fault)
  | ok {xs ys : List β} (h : Forall₂ R xs ys) : Alike R (.ok xs) (.ok ys)

namespace Violation

theorem Requoted.place {v w : Violation} (h : v.Requoted R w) : w.line = v.line ∧ w.column = v.column := by
  cases h <;> exact ⟨rfl, rfl⟩

theorem requoted_after (line : Line) (code : Code) (index : Int) (mark : String) {t u : Token}
    (hcode : code = .noSpaceAfterComma ∨ code = .noSpaceAfterOperator) (h : t.Rephrased R u) :
    Requoted R (.ofLine line code index { target? := some (mark ++ t.word) })
      (.ofLine line code index { target? := some (mark ++ u.word) }) := by
  by_cases hkind : t.kind = .comment
  · exact .after code _ _ mark t u hcode hkind h.rel
  · rw [h.word hkind]
    exact .same _

theorem requoted_before (line : Line) (index : Int) (mark : String) {t u : Token} (h : t.Rephrased R u) :
    Requoted R (.ofLine line .noSpaceBeforeOperator index { target? := some (t.word ++ mark) })
      (.ofLine line .noSpaceBeforeOperator index { target? := some (u.word ++ mark) }) := by
  by_cases hkind : t.kind = .comment
  · exact .before _ _ mark t u hkind h.rel
  · rw [h.word hkind]
    exact .same _

theorem forall₂_sorted {R : Violation → Violation → Prop}
    (hplace : ∀ v w, R v w → w.line = v.line ∧ w.column = v.column) {vs ws : List Violation}
    (h : Forall₂ R vs ws) : Forall₂ R (sorted vs) (sorted ws) := by
  let zs := vs.zip ws
  have hzs : ∀ z ∈ zs, R z.1 z.2 := fun z hz => List.forall₂_zip h hz
  have hfst : zs.map Prod.fst = vs := List.map_fst_zip (Nat.le_of_eq h.length_eq)
  have hsnd : zs.map Prod.snd = ws := List.map_snd_zip (Nat.le_of_eq h.length_eq.symm)
  let before (y z : Violation × Violation) := !z.1.before y.1
  have hvs : (zs.mergeSort before).map Prod.fst = sorted vs := by
    rw [sorted, ← hfst]
    exact List.map_mergeSort fun _ _ _ _ => rfl
  have hws : (zs.mergeSort before).map Prod.snd = sorted ws := by
    rw [sorted, ← hsnd]
    refine List.map_mergeSort fun y hy z hz => ?_
    obtain ⟨hyline, hycolumn⟩ := hplace _ _ (hzs y hy)
    obtain ⟨hzline, hzcolumn⟩ := hplace _ _ (hzs z hz)
    simp only [before, Violation.before, hyline, hycolumn, hzline, hzcolumn]
  rw [← hvs, ← hws, List.forall₂_map_left_iff, List.forall₂_map_right_iff, List.forall₂_same]
  exact fun z hz => hzs z (List.mem_mergeSort.1 hz)

end Violation

namespace Lint
open Violation (Requoted ofLine_rephrased requoted_after requoted_before forall₂_sorted)

theorem requoted_same (vs : List Violation) : Forall₂ (Requoted R) vs vs :=
  List.forall₂_same.2 fun v _ => .same v

theorem Alike.same (result : Except Fault (List Violation)) : Alike (Requoted R) result result := by
  cases result with
  | error fault => exact .error fault
  | ok found => exact .ok (requoted_same found)

theorem Alike.gather {α β : Type} {S : α → α → Prop} {R : β → β → Prop} {f g : α → Except Fault (List β)}
    {as bs : List α} (h : Forall₂ S as bs) (hfg : ∀ a b, S a b → Alike R (f a) (g b)) :
    Alike R (Lint.gather f as) (Lint.gather g bs) := by
  induction h with
  | nil => exact .ok .nil
  | @cons a b as bs hab _ ih =>
    have hhead := hfg a b hab
    generalize hfa : f a = first at hhead
    generalize hgb : g b = second at hhead
    cases hhead with
    | error fault =>
      rw [gather_cons_error f a fault as hfa, gather_cons_error g b fault bs hgb]
      exact .error fault
    | ok hxy =>
      rw [gather_cons_ok f a _ as hfa, gather_cons_ok g b _ bs hgb]
      generalize Lint.gather f as = rest at ih
      generalize Lint.gather g bs = others at ih
      cases ih with
      | error fault => exact .error fault
      | ok hrest => exact .ok (List.rel_append hxy hrest)

/-! ## Rules -/

theorem isSpace_rephrased {t u : Token} (h : t.Rephrased R u) : isSpace u = isSpace t := by
  rw [isSpace, isSpace, h.kind]

theorem word_of_isSpace {t u : Token} (h : t.Rephrased R u) (hspace : isSpace t = true) : u.word = t.word :=
  h.word (by simp [beq_iff_eq.1 hspace])

theorem isEmpty_rephrased {ts us : List Token} (h : Forall₂ (Token.Rephrased R) ts us) :
    us.isEmpty = ts.isEmpty := by
  cases h <;> rfl

theorem countP_rephrased {p : Token → Bool} (hp : ∀ t u : Token, t.Rephrased R u → p u = p t)
    {ts us : List Token} (h : Forall₂ (Token.Rephrased R) ts us) : us.countP p = ts.countP p := by
  induction h with
  | nil => rfl
  | cons htu _ ih => rw [List.countP_cons, List.countP_cons, ih, hp _ _ htu]

theorem openBrackets_rephrased {ts us : List Token} (h : Forall₂ (Token.Rephrased R) ts us) :
    openBrackets us = openBrackets ts := by
  have hcount (k : Kind) (w : String) (hk : k ≠ .comment) : countBracket k w us = countBracket k w ts := by
    rw [countBracket, countBracket]
    refine congrArg Int.ofNat (countP_rephrased (fun t u htu => ?_) h)
    rw [htu.kind]
    by_cases hkind : t.kind = k
    · rw [Token.key, Token.key, htu.word (hkind ▸ hk)]
    · rw [beq_false_of_ne hkind, Bool.and_false, Bool.and_false]
  rw [openBrackets, openBrackets, hcount _ _ (by decide), hcount _ _ (by decide)]

theorem inner?_rephrased {w x : Window} (h : w.Rephrased R x) :
    Option.Rel (Token.Rephrased R) (inner? w) (inner? x) := by
  obtain ⟨wb, wt, wa⟩ := w
  obtain ⟨xb, xt, xa⟩ := x
  cases h.before with
  | nil => exact .none
  | cons hfirst hrest =>
    cases hrest with
    | nil => exact .none
    | cons _ _ => exact .some hfirst

theorem joinWords_rephrased {ts us : List Token} (h : Forall₂ (Token.Rephrased R) ts us) :
    joinWords us = joinWords ts := by
  have hwords : (us.filter fun t => !t.kind.isTrivia).map Token.key =
      (ts.filter fun t => !t.kind.isTrivia).map Token.key := by
    induction h with
    | nil => rfl
    | @cons t u ts us htu _ ih =>
      rw [List.filter_cons, List.filter_cons, htu.kind]
      split
      · next hcode =>
        have hcomment : t.kind ≠ .comment := by
          intro hkind
          rw [hkind] at hcode
          cases hcode
        rw [List.map_cons, List.map_cons, ih, Token.key, Token.key, htu.word hcomment]
      · exact ih
  rw [joinWords, joinWords, hwords]

section Rules
variable {a b : Line} (h : a.Retold (Token.Rephrased R) b)
include h

theorem indentation_rephrased (steps : Nat) :
    Alike (Requoted R) (indentation steps a) (indentation steps b) := by
  unfold indentation
  rw [h.indent fun t u htu => htu.toReworded]
  simp only [ofLine_rephrased h]
  split
  · exact .error _
  · split
    · exact .ok .nil
    · exact .ok (.cons (.same _) .nil)

theorem multipleSpaces_rephrased : Forall₂ (Requoted R) (multipleSpaces a) (multipleSpaces b) := by
  have hwide : ∀ w x : Window, w.Rephrased R x →
      ((decide (0 < w.index) && isWide w) = true ↔ (decide (0 < x.index) && isWide x) = true) := by
    intro w x hwx
    have hnext : (x.after.head?.any fun t => t.kind == .comment) = w.after.head?.any fun t => t.kind == .comment := by
      obtain ⟨wb, wt, wa⟩ := w
      obtain ⟨xb, xt, xa⟩ := x
      cases hwx.after with
      | nil => rfl
      | cons hnext _ => simp only [List.head?_cons, Option.any_some, hnext.kind]
    rw [hwx.index, isWide, isWide, isSpace_rephrased hwx.token,
      hwx.token.length, hnext]
  unfold multipleSpaces
  simp only [ofLine_rephrased h]
  refine List.rel_map ?_ (List.rel_filter (fun w x hwx => hwide w x hwx) (rephrased_windows h.tokens))
  intro w x hwx
  simp only [hwx.index]
  exact .same _

theorem onWindows_rephrased (rule : Line → Window → List Violation)
    (hrule : ∀ w x : Window, w.Rephrased R x → Forall₂ (Requoted R) (rule a w) (rule b x)) :
    Forall₂ (Requoted R) (onWindows rule a) (onWindows rule b) :=
  List.rel_flatMap (rephrased_windows h.tokens) fun w x hwx => hrule w x hwx

theorem commaSpaces_rephrased {w x : Window} (hwx : w.Rephrased R x) :
    Forall₂ (Requoted R) (commaSpaces a w) (commaSpaces b x) := by
  have hinner : (inner? x).any isSpace = (inner? w).any isSpace := by
    have hprev := inner?_rephrased hwx
    generalize inner? w = prev at hprev
    generalize inner? x = other at hprev
    cases hprev with
    | none => rfl
    | some hprev => exact isSpace_rephrased hprev
  unfold commaSpaces
  rw [hinner, hwx.index]
  simp only [ofLine_rephrased h]
  have hafter := hwx.after
  generalize w.after = after at hafter
  generalize x.after = others at hafter
  cases hafter with
  | nil => exact .nil
  | cons hnext _ =>
    dsimp only
    rw [hwx.token.kind]
    split
    · next hkind =>
      have hword : x.token.word = w.token.word := hwx.token.word (by simp [beq_iff_eq.1 hkind])
      refine List.rel_append (requoted_same _) ?_
      simp only [isSpace_rephrased hnext]
      split
      · exact .nil
      · rw [hword]
        exact .cons (requoted_after a _ _ _ (.inl rfl) hnext) .nil
    · exact .nil

theorem bracketSpaces_rephrased {w x : Window} (hwx : w.Rephrased R x) :
    Forall₂ (Requoted R) (bracketSpaces a w) (bracketSpaces b x) := by
  unfold bracketSpaces
  rw [hwx.index]
  simp only [ofLine_rephrased h]
  have hafter := hwx.after
  generalize w.after = after at hafter
  generalize x.after = others at hafter
  cases hafter with
  | nil => exact .nil
  | cons hnext _ =>
    dsimp only
    rw [hwx.token.kind, isSpace_rephrased hnext]
    refine List.rel_append ?_ ?_
    · split
      · next hfound =>
        rw [Bool.and_eq_true, beq_iff_eq] at hfound
        rw [hwx.token.word (by simp [hfound.1]), word_of_isSpace hnext hfound.2]
        exact .cons (.same _) .nil
      · exact .nil
    · have hinner := inner?_rephrased hwx
      generalize inner? w = prev at hinner
      generalize inner? x = other at hinner
      cases hinner with
      | none => exact .nil
      | some hprev =>
        dsimp only
        rw [isSpace_rephrased hprev]
        split
        · next hfound =>
          rw [Bool.and_eq_true, beq_iff_eq] at hfound
          rw [hwx.token.word (by simp [hfound.1]), word_of_isSpace hprev hfound.2]
          exact .cons (.same _) .nil
        · exact .nil

theorem operatorSpaces_rephrased {w x : Window} (hwx : w.Rephrased R x) :
    Forall₂ (Requoted R) (operatorSpaces a w) (operatorSpaces b x) := by
  unfold operatorSpaces
  rw [hwx.index]
  simp only [ofLine_rephrased h]
  have hafter := hwx.after
  generalize w.after = after at hafter
  generalize x.after = others at hafter
  cases hafter with
  | nil => exact .nil
  | cons hnext _ =>
    dsimp only
    rw [hwx.token.kind]
    split
    · next hkind =>
      have hword : x.token.word = w.token.word := hwx.token.word (by simp [beq_iff_eq.1 hkind])
      rw [hword]
      refine List.rel_append ?_ ?_
      · have hinner := inner?_rephrased hwx
        generalize inner? w = prev at hinner
        generalize inner? x = other at hinner
        cases hinner with
        | none => exact .nil
        | some hprev =>
          simp only [isSpace_rephrased hprev]
          split
          · exact .nil
          · exact .cons (requoted_before a _ _ hprev) .nil
      · simp only [isSpace_rephrased hnext]
        split
        · exact .nil
        · exact .cons (requoted_after a _ _ _ (.inr rfl) hnext) .nil
    · exact .nil

theorem keywordCase_rephrased (style : KeywordStyle) :
    Alike (Requoted R) (keywordCase style a) (keywordCase style b) := by
  refine Alike.gather (rephrased_windows h.tokens) fun w x hwx => ?_
  simp only [hwx.token.kind, hwx.index, ofLine_rephrased h]
  split
  · next hreserved =>
    have hcomment : w.token.kind ≠ .comment := by
      intro hkind
      rw [hkind] at hreserved
      cases hreserved
    rw [hwx.token.word hcomment]
    exact .same _
  · exact .same _

theorem trimHead_rephrased (kinds : List Kind) :
    Forall₂ (Token.Rephrased R) (a.trimHead kinds).tokens (b.trimHead kinds).tokens :=
  forall₂_dropWhile (fun t u htu => by rw [htu.kind]) h.tokens

theorem commas_rephrased (position : CommaPosition) :
    Forall₂ (Requoted R) (commas position a) (commas position b) := by
  have hhead := trimHead_rephrased h [.whitespace, .comment]
  have hcode : Forall₂ (Token.Rephrased R)
      ((a.trimHead [.whitespace, .comment]).trimEnd [.whitespace, .comment]).tokens
      ((b.trimHead [.whitespace, .comment]).trimEnd [.whitespace, .comment]).tokens :=
    List.rel_reverse (forall₂_dropWhile (fun t u htu => by rw [htu.kind]) (List.rel_reverse hhead))
  have hcond : ∀ w x : Window, w.Rephrased R x →
      ((w.token.word == "," && !isAtPlace position w && !isBracketed w) = true ↔
        (x.token.word == "," && !isAtPlace position x && !isBracketed x) = true) := by
    intro w x hwx
    have hcomma : (x.token.word == ",") = (w.token.word == ",") := by
      rw [Bool.eq_iff_iff, beq_iff_eq, beq_iff_eq, hwx.token.comma]
    have hplace : isAtPlace position x = isAtPlace position w := by
      cases position with
      | head => exact isEmpty_rephrased hwx.before
      | tail => exact isEmpty_rephrased hwx.after
    have hbracketed : isBracketed x = isBracketed w := by
      rw [isBracketed, isBracketed, openBrackets_rephrased hwx.before, openBrackets_rephrased hwx.after]
    rw [hcomma, hplace, hbracketed]
  unfold commas
  simp only [ofLine_rephrased h, ← h.tokens.length_eq, ← hhead.length_eq]
  refine List.rel_map ?_ (List.rel_filter (fun w x hwx => hcond w x hwx) (rephrased_windows hcode))
  intro w x hwx
  simp only [hwx.index]
  exact .same _

theorem joins_rephrased :
    Forall₂ (fun w x => w.Rephrased R x ∧ x.token.key = w.token.key) (Lint.joins a) (Lint.joins b) := by
  have hkey : ∀ w x : Window, w.Rephrased R x →
      ((w.token.key == "JOIN") = true ↔ (x.token.key == "JOIN") = true) := by
    intro w x hwx
    rw [beq_iff_eq, beq_iff_eq, hwx.token.join]
  have hjoins := List.rel_filter (fun w x hwx => hkey w x hwx) (rephrased_windows h.tokens)
  rw [List.forall₂_iff_zip] at hjoins ⊢
  refine ⟨hjoins.1, fun {w x} hmem => ⟨hjoins.2 hmem, ?_⟩⟩
  obtain ⟨hw, hx⟩ := List.of_mem_zip hmem
  have hwkey := (List.mem_filter.1 hw).2
  have hxkey := (List.mem_filter.1 hx).2
  rw [beq_iff_eq] at hwkey hxkey
  rw [hwkey, hxkey]

theorem joinTable_rephrased {w x : Window} (hwx : w.Rephrased R x) :
    Alike (Requoted R) (joinTable a w) (joinTable b x) := by
  unfold joinTable
  simp only [hwx.index, ofLine_rephrased h]
  have hafter := hwx.after
  generalize w.after = after at hafter
  generalize x.after = others at hafter
  cases hafter with
  | nil => exact .same _
  | cons _ hrest =>
    cases hrest with
    | nil => exact .same _
    | cons htable _ =>
      dsimp only
      rw [htable.kind]
      exact .same _

theorem joinContext_rephrased {w x : Window} (hwx : w.Rephrased R x) (hkey : x.token.key = w.token.key) :
    joinContext b x = joinContext a w := by
  have hwords := joinWords_rephrased hwx.before
  have hwritten : writtenJoin x = writtenJoin w := by
    rw [writtenJoin, writtenJoin, hwords, hkey]
  have hfull : fullJoin x = fullJoin w := by
    rw [fullJoin, fullJoin, hwords]
  rw [joinContext, joinContext, hwritten, hfull, hwx.index, ofLine_rephrased h]

theorem isOnlyWhitespace_rephrased : isOnlyWhitespace b = isOnlyWhitespace a := by
  obtain ⟨n, ts⟩ := a
  obtain ⟨m, us⟩ := b
  cases h.tokens with
  | nil => rfl
  | cons htu hrest =>
    cases hrest with
    | nil => simp only [isOnlyWhitespace, htu.kind]
    | cons _ _ => rfl

end Rules

theorem blankRuns_rephrased {a b : Line} (h : a.Retold (Token.Rephrased R) b) (blanks : Nat) {ls ks : List Line}
    (hls : Forall₂ (Line.Retold (Token.Rephrased R)) ls ks) : blankRuns b blanks ks = blankRuns a blanks ls := by
  induction hls generalizing a b blanks with
  | nil => rw [blankRuns, blankRuns, ofLine_rephrased h]
  | cons hlk _ ih =>
    rw [blankRuns, blankRuns, isOnlyWhitespace_rephrased hlk, isEmpty_rephrased hlk.tokens, ih hlk, ih hlk,
      ofLine_rephrased hlk, ofLine_rephrased hlk]

/-! ## Trees -/

theorem lineRule_rephrased (check : Check) (s : Settings) {a b : Line} (h : a.Retold (Token.Rephrased R) b) :
    ∀ rule ∈ check.lineRules s, Alike (Requoted R) (rule a) (rule b) := by
  cases check with
  | indentation => simpa [Check.lineRules] using indentation_rephrased h s.indentSteps
  | spacing =>
    rw [Check.lineRules, List.forall_mem_map]
    simp only [spacingRules, List.forall_mem_cons]
    refine ⟨.ok (multipleSpaces_rephrased h), .ok ?_, .ok ?_, .ok ?_, by simp⟩
    · exact onWindows_rephrased h _ fun w x hwx => commaSpaces_rephrased h hwx
    · exact onWindows_rephrased h _ fun w x hwx => bracketSpaces_rephrased h hwx
    · exact onWindows_rephrased h _ fun w x hwx => operatorSpaces_rephrased h hwx
  | keywordCase => simpa [Check.lineRules] using keywordCase_rephrased h s.keywordStyle
  | commas => simpa [Check.lineRules] using Alike.ok (commas_rephrased h s.commaPosition)
  | joins =>
    simp only [Check.lineRules, List.forall_mem_cons]
    refine ⟨?_, .ok ?_, by simp⟩
    · exact Alike.gather (joins_rephrased h) fun w x hwx => joinTable_rephrased h hwx.1
    · refine List.rel_flatMap (joins_rephrased h) fun w x hwx => ?_
      rw [joinContext_rephrased h hwx.1 hwx.2]
      exact requoted_same _
  | blankLines =>
    have hblank : whitespaceLine b = whitespaceLine a := by
      rw [whitespaceLine, whitespaceLine, isOnlyWhitespace_rephrased h, ofLine_rephrased h]
    simpa [Check.lineRules, hblank] using Alike.same (.ok (whitespaceLine a))

theorem run_rephrased (check : Check) (s : Settings) {t u : Tree}
    (htop : t.root.toLine.Retold (Token.Rephrased R) u.root.toLine)
    (hlines : Forall₂ (Line.Retold (Token.Rephrased R)) (t.beneath.map Node.toLine) (u.beneath.map Node.toLine)) :
    Alike (Requoted R) (check.run s t) (check.run s u) := by
  by_cases hblank : check = .blankLines
  · subst hblank
    rw [Check.run, Check.run, blankLines_eq, blankLines_eq, blankRuns_rephrased htop 0 hlines]
    exact .same _
  · rw [run_eq_applyRules check s t hblank, run_eq_applyRules check s u hblank]
    have hrules : Forall₂ (fun f g => f = g ∧ f ∈ check.lineRules s) (check.lineRules s) (check.lineRules s) :=
      List.forall₂_same.2 fun rule hrule => ⟨rfl, hrule⟩
    refine Alike.gather hrules fun f g hfg => Alike.gather hlines fun a b hab => ?_
    rw [← hfg.1]
    exact lineRule_rephrased check s hab f hfg.2

end Lint

theorem Node.Retold.toLine {n m : Node} (h : Node.Retold (Token.Rephrased R) n m) :
    n.toLine.Retold (Token.Rephrased R) m.toLine := by
  obtain ⟨hsame, htokens⟩ := h
  refine ⟨?_, htokens⟩
  rw [hsame]

theorem Tree.toLine_retold {ts us : List Tree} (h : Paired (Node.Retold (Token.Rephrased R)) ts us) :
    Forall₂ (Line.Retold (Token.Rephrased R)) ((forestNodes ts).map Node.toLine)
      ((forestNodes us).map Node.toLine) := by
  induction h with
  | nil => exact .nil
  | cons root _ _ below after =>
    rw [forestNodes_node_cons, forestNodes_node_cons, List.map_cons, List.map_cons, List.map_append, List.map_append]
    exact .cons root.toLine (List.rel_append below after)

end Replacement

end SqlStyle
