import SqlStyle.Proofs.Lint.Positions
import SqlStyle.Proofs.Token.Blanks

/-! Several spaces in a row. They are told by their index among the tokens behind the first one, and the column is read
off the whole line, so what is reported is the column of the token before them. As no two tokens of whitespace
stand side by side, that is never a column at which whitespace begins (`run_multipleSpaces`). -/
namespace SqlStyle.Lint
set_option autoImplicit false
open Scan (charsOf)

/-! ## Several spaces on a line -/

/-- Whitespace of more than one character, but for the two that come before a comment. -/
structure Wide (t : Token) (after : List Token) : Prop where
  kind : t.kind = .whitespace
  length : 2 ≤ t.length
  comment : t.length = 2 → ∀ u ∈ after.head?, u.kind ≠ .comment

theorem isWide_iff (w : Window) : isWide w = true ↔ Wide w.token w.after := by
  have hcomment : (!(w.token.length == 2 && (w.after.head?.any fun t => t.kind == .comment))) = true ↔
      (w.token.length = 2 → ∀ u ∈ w.after.head?, u.kind ≠ .comment) := by
    cases w.after with
    | nil => simp
    | cons u after => by_cases hlength : w.token.length = 2 <;> simp [hlength]
  rw [isWide, Bool.and_eq_true, Bool.and_eq_true, hcomment, decide_eq_true_iff, isSpace, beq_iff_eq]
  exact ⟨fun h => ⟨h.1.1, h.1.2, h.2⟩, fun h => ⟨⟨h.kind, h.length⟩, h.comment⟩⟩

theorem mem_multipleSpaces (line : Line) (v : Violation) :
    v ∈ multipleSpaces line ↔ ∃ front prev wide after, line.tokens = front ++ prev :: wide :: after ∧ Wide wide after ∧
      v = ⟨.multipleSpaces, line.number, (charsOf front).length + 1, {}⟩ := by
  have hcolumn (front rest : List Token) (h : line.tokens = front ++ rest) :
      line.column front.length = (charsOf front).length + 1 := by
    rw [Line.column, Int.toNat_natCast, h, List.take_left, width_eq]
  rw [multipleSpaces, List.mem_map]
  constructor
  · rintro ⟨⟨before, wide, after⟩, hw, rfl⟩
    obtain ⟨hmem, hfound⟩ := List.mem_filter.1 hw
    rw [Bool.and_eq_true, decide_eq_true_iff, isWide_iff] at hfound
    rw [mem_windows] at hmem
    cases before with
    | nil => exact absurd hfound.1 (Nat.lt_irrefl 0)
    | cons prev before =>
      have htokens : line.tokens = before.reverse ++ prev :: wide :: after := by simpa using hmem
      refine ⟨before.reverse, prev, wide, after, htokens, hfound.2, ?_⟩
      rw [← hcolumn _ _ htokens, List.length_reverse]
      simp [Violation.ofLine, Window.index]
  · rintro ⟨front, prev, wide, after, htokens, hwide, rfl⟩
    refine ⟨⟨prev :: front.reverse, wide, after⟩, List.mem_filter.2 ⟨?_, ?_⟩, ?_⟩
    · rw [mem_windows, htokens]
      simp
    · rw [Bool.and_eq_true, decide_eq_true_iff, isWide_iff]
      exact ⟨Nat.succ_pos _, hwide⟩
    · rw [← hcolumn _ _ htokens]
      simp [Violation.ofLine, Window.index]

theorem mem_spacing_iff (lines : List Line) (v : Violation) :
    v ∈ spacing lines ∧ v.code = .multipleSpaces ↔ ∃ line ∈ lines, v ∈ multipleSpaces line := by
  constructor
  · rintro ⟨hv, hcode⟩
    obtain ⟨rule, hrule, hv⟩ := List.mem_flatMap.1 hv
    obtain ⟨line, hline, hv⟩ := List.mem_flatMap.1 hv
    simp only [spacingRules, List.mem_cons, List.not_mem_nil, or_false] at hrule
    rcases hrule with rfl | rfl | rfl | rfl
    · exact ⟨line, hline, hv⟩
    · exact absurd (hcode ▸ code_of_mem_commaSpaces line v hv) (by decide)
    · exact absurd (hcode ▸ code_of_mem_bracketSpaces line v hv) (by decide)
    · exact absurd (hcode ▸ code_of_mem_operatorSpaces line v hv) (by decide)
  · rintro ⟨line, hline, hv⟩
    refine ⟨List.mem_flatMap.2 ⟨multipleSpaces, List.mem_cons_self, List.mem_flatMap.2 ⟨line, hline, hv⟩⟩, ?_⟩
    obtain ⟨front, prev, wide, after, -, -, rfl⟩ := (mem_multipleSpaces line v).1 hv
    rfl

/-! ## Places on a line -/

theorem eq_of_column {front after others rest : List Token} {t u : Token}
    (hlexical : ∀ x ∈ front ++ t :: after, Scan.Lexical x) (h : front ++ t :: after = others ++ u :: rest)
    (hcolumn : (charsOf front).length = (charsOf others).length) : t = u := by
  induction front generalizing others with
  | nil =>
    cases others with
    | nil => exact (List.cons.inj h).1
    | cons first others =>
      obtain ⟨rfl, -⟩ := List.cons.inj h
      have hpos := List.length_pos_iff.2 (hlexical t List.mem_cons_self).2.ne_nil
      rw [Scan.charsOf_cons, List.length_append] at hcolumn
      simp only [Scan.charsOf_nil, List.length_nil] at hcolumn
      omega
  | cons first front ih =>
    obtain ⟨hfirst, hfront⟩ := List.forall_mem_cons.1 hlexical
    have hpos := List.length_pos_iff.2 hfirst.2.ne_nil
    cases others with
    | nil =>
      rw [Scan.charsOf_cons, List.length_append] at hcolumn
      simp only [Scan.charsOf_nil, List.length_nil] at hcolumn
      omega
    | cons second others =>
      obtain ⟨rfl, htail⟩ := List.cons.inj h
      rw [Scan.charsOf_cons, Scan.charsOf_cons, List.length_append, List.length_append] at hcolumn
      exact ih hfront htail (by omega)

theorem mem_numbered_iff (ls : List (List Token)) (line : Line) :
    line ∈ Tree.numbered ls ↔ ∃ i, ls[i]? = some line.tokens ∧ line.number = i + 1 := by
  rw [List.mem_iff_getElem?]
  refine exists_congr fun i => ?_
  rw [getElem?_numbered, Option.map_eq_some_iff]
  constructor
  · rintro ⟨ts, hts, rfl⟩
    exact ⟨hts, rfl⟩
  · rintro ⟨hts, hnumber⟩
    exact ⟨line.tokens, hts, by rw [← hnumber]⟩

/-- Several spaces are reported at the token before them, and that is never a place where whitespace begins. -/
theorem run_multipleSpaces (s : Settings) (sql : String) :
    ∃ vs, Check.spacing.run s (Tree.ofSql false sql) = .ok vs ∧
      (∀ v, v ∈ vs ∧ v.code = .multipleSpaces ↔ ∃ i front prev wide after,
        (Scan.scan sql)[i]? = some (front ++ prev :: wide :: after) ∧ Wide wide after ∧
        v = ⟨.multipleSpaces, i + 1, (charsOf front).length + 1, {}⟩) ∧
      ∀ v ∈ vs, v.code = .multipleSpaces → ∀ front t after,
        (Scan.scan sql)[v.line - 1]? = some (front ++ t :: after) → v.column = (charsOf front).length + 1 →
        t.kind ≠ .whitespace := by
  have hiff : ∀ v, v ∈ spacing (Tree.numbered (Scan.scan sql)) ∧ v.code = .multipleSpaces ↔
      ∃ i front prev wide after, (Scan.scan sql)[i]? = some (front ++ prev :: wide :: after) ∧ Wide wide after ∧
        v = ⟨.multipleSpaces, i + 1, (charsOf front).length + 1, {}⟩ := by
    intro v
    rw [mem_spacing_iff]
    constructor
    · rintro ⟨line, hline, hv⟩
      obtain ⟨i, hi, hnumber⟩ := (mem_numbered_iff _ line).1 hline
      obtain ⟨front, prev, wide, after, htokens, hwide, rfl⟩ := (mem_multipleSpaces line v).1 hv
      exact ⟨i, front, prev, wide, after, htokens ▸ hi, hwide, by rw [hnumber]⟩
    · rintro ⟨i, front, prev, wide, after, hi, hwide, rfl⟩
      refine ⟨⟨i + 1, front ++ prev :: wide :: after⟩, (mem_numbered_iff _ _).2 ⟨i, hi, rfl⟩, ?_⟩
      exact (mem_multipleSpaces _ _).2 ⟨front, prev, wide, after, rfl, hwide, rfl⟩
  refine ⟨spacing (Tree.numbered (Scan.scan sql)), ?_, hiff, ?_⟩
  · rw [← Tree.beneath_ofSql]
    rfl
  · intro v hv hcode front t after hline hcolumn hkind
    obtain ⟨i, others, prev, wide, rest, hi, hwide, rfl⟩ := (hiff v).1 ⟨hv, hcode⟩
    have htokens : front ++ t :: after = others ++ prev :: wide :: rest := Option.some.inj (hline.symm.trans hi)
    have hmem := List.mem_of_getElem? hi
    have hlexical : ∀ u ∈ others ++ prev :: wide :: rest, Scan.Lexical u := fun u hu =>
      Scan.lexical_scan sql u (List.mem_flatten.2 ⟨_, hmem, hu⟩)
    obtain rfl : t = prev := eq_of_column (htokens ▸ hlexical) htokens (by simpa using hcolumn.symm)
    exact (Scan.complete_scan sql _ hmem).apart (hlexical wide (by simp)) hkind hwide.kind

def queryOfSpaces : String :=
  "select a  from t"

def tokensOfSpaces : List Token :=
  [⟨.keyword, "select", none⟩, ⟨.whitespace, " ", none⟩, ⟨.identifier, "a", none⟩, ⟨.whitespace, "  ", none⟩,
    ⟨.keyword, "from", none⟩, ⟨.whitespace, " ", none⟩, ⟨.identifier, "t", none⟩]

/-- The spaces behind the first item are reported where the item begins. -/
theorem run_multipleSpaces_of_item :
    let v : Violation := ⟨.multipleSpaces, 1, 8, {}⟩
    ∃ vs, Check.spacing.run ({} : Values).settings (Tree.ofSql false queryOfSpaces) = .ok vs ∧
      v ∈ vs ∧ v.code = .multipleSpaces ∧
      (Scan.scan queryOfSpaces)[v.line - 1]? = some (tokensOfSpaces.take 2 ++ ⟨.identifier, "a", none⟩ ::
        tokensOfSpaces.drop 3) ∧
      v.column = (charsOf (tokensOfSpaces.take 2)).length + 1 ∧
      (⟨.identifier, "a", none⟩ : Token).kind ≠ .whitespace := by
  intro v
  obtain ⟨vs, hrun, hiff, hplace⟩ := run_multipleSpaces ({} : Values).settings queryOfSpaces
  have hscan : (Scan.scan queryOfSpaces)[v.line - 1]? = some (tokensOfSpaces.take 2 ++ ⟨.identifier, "a", none⟩ ::
      tokensOfSpaces.drop 3) := by decide +kernel
  have hcolumn : v.column = (charsOf (tokensOfSpaces.take 2)).length + 1 := by decide
  have hwide : Wide ⟨.whitespace, "  ", none⟩ (tokensOfSpaces.drop 4) := ⟨rfl, by decide, by decide +kernel⟩
  have hv : v ∈ vs ∧ v.code = .multipleSpaces :=
    (hiff v).2 ⟨0, tokensOfSpaces.take 2, _, _, tokensOfSpaces.drop 4, hscan, hwide, by decide⟩
  exact ⟨vs, hrun, hv.1, hv.2, hscan, hcolumn, hplace v hv.1 hv.2 _ _ _ hscan hcolumn⟩

/-- The spaces begin at column 9, and no whitespace begins at column 8, which is reported. -/
theorem run_multipleSpaces_of_column :
    let line : Line := ⟨1, tokensOfSpaces⟩
    Check.spacing.run ({} : Values).settings (Tree.ofSql false queryOfSpaces) = .ok [⟨.multipleSpaces, 1, 8, {}⟩] ∧
      Tree.numbered (Scan.scan queryOfSpaces) = [line] ∧
      ((windows line.tokens).filter fun w => isSpace w.token && decide (2 ≤ w.token.length)).map
        (fun w => line.column w.index) = [9] ∧
      ∀ w ∈ windows line.tokens, w.token.kind = .whitespace → line.column w.index ≠ 8 := by
  decide +kernel

end SqlStyle.Lint
