import SqlStyle.Proofs.Lint.Scripts
import SqlStyle.Proofs.Token.Lexical

/-! Places. The column of a violation is the width of the tokens before the one that breaks the rule, and the words of
the tokens of a line make up the line; so the place that is reported is where the word of that token begins in
the text (`report_points`). The rules on commas count from the first token that is not trimmed, and add what was
trimmed. -/
namespace SqlStyle
set_option autoImplicit false
open Scan (charsOf)

/-! ## What is marked -/

/-- The token breaks the rule of the given code; only rules that single tokens break have such tokens. -/
def Code.Marks (s : Settings) (code : Code) (t : Token) : Prop :=
  match code with
  | .noSpaceAfterComma | .spaceBeforeComma => t.kind = .comma ∧ t.word = ","
  | .spaceAfterBracket => t.kind = .leftBracket ∧ t.word = "("
  | .spaceBeforeBracket => t.kind = .rightBracket ∧ t.word = ")"
  | .noSpaceAfterOperator | .noSpaceBeforeOperator => t.kind = .operator
  | .commaNotHead | .commaNotEnd => code = .ofPosition s.commaPosition ∧ t.word = ","
  | .keywordNotUpper | .keywordNotUpperHead | .keywordNotLower =>
    code = .ofStyle s.keywordStyle ∧ t.kind.isReserved = true ∧ t.word ≠ s.keywordStyle.spell t.word
  | .joinWithoutTable | .joinIncomplete => t.key = "JOIN"
  | .indentSteps | .multipleSpaces | .multipleBlankLines | .onlyWhitespace | .noBreakBefore | .noBreakAfter => False

def Code.tokenRules : List String :=
  ["E202", "E203", "E204", "E205", "E206", "E207", "E301", "E302", "E401", "E402", "E403", "E501", "E502"]

namespace Lint

/-- A violation of a rule that single tokens break stands at a token of the line that breaks it. -/
def Points (s : Settings) (line : Line) (v : Violation) : Prop :=
  v.code.number ∈ Code.tokenRules →
    ∃ w ∈ windows line.tokens, v.line = line.number ∧ v.column = line.column w.index ∧ v.code.Marks s w.token

section Rules
variable {s : Settings} {line : Line}

theorem points_of_other {code : Code} {index : Int} {details : Details} (h : code.number ∉ Code.tokenRules) :
    Points s line (.ofLine line code index details) :=
  fun hcode => absurd hcode h

theorem points_then {p : Prop} [Decidable p] {v : Violation} (h : Points s line v) :
    ∀ u ∈ (if p then [v] else []), Points s line u := by
  split
  · exact List.forall_mem_singleton.2 h
  · exact List.forall_mem_nil _

theorem points_else {p : Prop} [Decidable p] {v : Violation} (h : Points s line v) :
    ∀ u ∈ (if p then [] else [v]), Points s line u := by
  split
  · exact List.forall_mem_nil _
  · exact List.forall_mem_singleton.2 h

theorem points_indentation (steps : Nat) (found : List Violation) (h : indentation steps line = .ok found) :
    ∀ v ∈ found, Points s line v := by
  unfold indentation at h
  split at h
  · cases h
  · cases h
    exact points_else (points_of_other (by decide))

theorem points_multipleSpaces : ∀ v ∈ multipleSpaces line, Points s line v := by
  rw [multipleSpaces, List.forall_mem_map]
  exact fun w _ => points_of_other (by decide)

theorem points_whitespaceLine : ∀ v ∈ whitespaceLine line, Points s line v :=
  points_then (points_of_other (by decide))

section Window
variable {w : Window} (hw : w ∈ windows line.tokens)
include hw

theorem points_ofLine {code : Code} {details : Details} (h : code.Marks s w.token) :
    Points s line (.ofLine line code w.index details) :=
  fun _ => ⟨w, hw, rfl, rfl, h⟩

theorem points_commaSpaces (hlexical : Scan.Lexical w.token) : ∀ v ∈ commaSpaces line w, Points s line v := by
  unfold commaSpaces
  split
  · exact List.forall_mem_nil _
  · split
    · next hkind =>
      rw [beq_iff_eq] at hkind
      have hmarks : w.token.kind = .comma ∧ w.token.word = "," := ⟨hkind, hlexical.word_of_kind hkind fun _ h => h⟩
      rw [List.forall_mem_append]
      exact ⟨points_then (points_ofLine hw hmarks), points_else (points_ofLine hw hmarks)⟩
    · exact List.forall_mem_nil _

theorem points_bracketSpaces (hlexical : Scan.Lexical w.token) : ∀ v ∈ bracketSpaces line w, Points s line v := by
  unfold bracketSpaces
  split
  · exact List.forall_mem_nil _
  · rw [List.forall_mem_append]
    constructor
    · split
      · next hfound =>
        rw [Bool.and_eq_true, beq_iff_eq] at hfound
        refine List.forall_mem_singleton.2 (points_ofLine hw ?_)
        exact ⟨hfound.1, hlexical.word_of_leftBracket hfound.1⟩
      · exact List.forall_mem_nil _
    · split
      · split
        · next hfound =>
          rw [Bool.and_eq_true, beq_iff_eq] at hfound
          refine List.forall_mem_singleton.2 (points_ofLine hw ?_)
          exact ⟨hfound.1, hlexical.word_of_rightBracket hfound.1⟩
        · exact List.forall_mem_nil _
      · exact List.forall_mem_nil _

theorem points_operatorSpaces : ∀ v ∈ operatorSpaces line w, Points s line v := by
  unfold operatorSpaces
  split
  · exact List.forall_mem_nil _
  · split
    · next hkind =>
      rw [beq_iff_eq] at hkind
      rw [List.forall_mem_append]
      constructor
      · split
        · exact points_else (points_ofLine hw hkind)
        · exact List.forall_mem_nil _
      · exact points_else (points_ofLine hw hkind)
    · exact List.forall_mem_nil _

theorem points_joinTable (hkey : w.token.key = "JOIN") (found : List Violation)
    (h : joinTable line w = .ok found) : ∀ v ∈ found, Points s line v := by
  unfold joinTable at h
  split at h
  · cases h
    exact List.forall_mem_singleton.2 (points_ofLine hw hkey)
  · cases h
  · cases h
    exact points_else (points_ofLine hw hkey)

theorem points_joinContext (hkey : w.token.key = "JOIN") : ∀ v ∈ joinContext line w, Points s line v :=
  points_else (points_ofLine hw hkey)

end Window

theorem points_keywordCase (found : List Violation) (h : keywordCase s.keywordStyle line = .ok found) :
    ∀ v ∈ found, Points s line v := by
  intro v hv
  obtain ⟨w, hw, own, hown, hv⟩ := mem_gather _ h v hv
  split at hown
  · next hreserved =>
    unfold KeywordStyle.write at hown
    split at hown
    · cases hown
    · cases hown
      split at hv
      · cases hv
      · next hword =>
        obtain rfl := List.mem_singleton.1 hv
        refine points_ofLine hw ?_
        have hmarks : w.token.kind.isReserved = true ∧ w.token.word ≠ s.keywordStyle.spell w.token.word :=
          ⟨hreserved, hword⟩
        cases hstyle : s.keywordStyle <;> exact ⟨by rw [hstyle], hmarks⟩
  · cases hown
    cases hv

theorem exists_window_of_trimmed (kinds : List Kind) {w : Window}
    (hw : w ∈ windows ((line.trimHead kinds).trimEnd kinds).tokens) :
    ∃ x ∈ windows line.tokens, x.token = w.token ∧
      x.index = line.tokens.length - (line.trimHead kinds).tokens.length + w.index := by
  rw [mem_windows] at hw
  let p (t : Token) := kinds.contains t.kind
  let front := line.tokens.takeWhile p
  let back := ((line.trimHead kinds).tokens.reverse.takeWhile p).reverse
  have hhead : line.tokens = front ++ (line.trimHead kinds).tokens := List.takeWhile_append_dropWhile.symm
  have hback : (line.trimHead kinds).tokens = ((line.trimHead kinds).trimEnd kinds).tokens ++ back := by
    rw [Line.trimEnd, ← List.reverse_append, List.takeWhile_append_dropWhile, List.reverse_reverse]
  refine ⟨⟨w.before ++ front.reverse, w.token, w.after ++ back⟩, ?_, rfl, ?_⟩
  · rw [mem_windows, hhead, hback, hw]
    simp
  · have hlength := congrArg List.length hhead
    simp only [Window.index, List.length_append, List.length_reverse] at hlength ⊢
    omega

theorem points_commas : ∀ v ∈ commas s.commaPosition line, Points s line v := by
  rw [commas, List.forall_mem_map]
  intro w hw
  obtain ⟨hw, hfound⟩ := List.mem_filter.1 hw
  obtain ⟨x, hx, htoken, hindex⟩ := exists_window_of_trimmed _ hw
  rw [Bool.and_eq_true, Bool.and_eq_true, beq_iff_eq, ← htoken] at hfound
  rw [← hindex]
  refine points_ofLine hx ?_
  cases hposition : s.commaPosition <;> exact ⟨by rw [hposition], hfound.1.1⟩

theorem key_of_mem_joins {w : Window} (hw : w ∈ joins line) : w ∈ windows line.tokens ∧ w.token.key = "JOIN" := by
  obtain ⟨hmem, hkey⟩ := List.mem_filter.1 hw
  exact ⟨hmem, beq_iff_eq.1 hkey⟩

theorem points_onWindows {rule : Line → Window → List Violation}
    (h : ∀ w ∈ windows line.tokens, ∀ v ∈ rule line w, Points s line v) :
    ∀ v ∈ onWindows rule line, Points s line v := by
  intro v hv
  obtain ⟨w, hw, hv⟩ := List.mem_flatMap.1 hv
  exact h w hw v hv

/-- What a rule finds on a line of words that fit their kinds stands at the tokens that break the rule. -/
theorem points_lineRule (hlexical : ∀ t ∈ line.tokens, Scan.Lexical t) (check : Check) :
    ∀ rule ∈ check.lineRules s, ∀ found, rule line = .ok found → ∀ v ∈ found, Points s line v := by
  have hwindow : ∀ w ∈ windows line.tokens, Scan.Lexical w.token := fun w hw => hlexical _ (Window.token_mem hw)
  cases check with
  | indentation => simpa [Check.lineRules] using points_indentation s.indentSteps
  | spacing =>
    rw [Check.lineRules, List.forall_mem_map]
    simp only [spacingRules, List.forall_mem_cons, Except.ok.injEq, forall_eq']
    refine ⟨points_multipleSpaces, points_onWindows ?_, points_onWindows ?_, points_onWindows ?_, by simp⟩
    · exact fun w hw => points_commaSpaces hw (hwindow w hw)
    · exact fun w hw => points_bracketSpaces hw (hwindow w hw)
    · exact fun w hw => points_operatorSpaces hw
  | keywordCase => simpa [Check.lineRules] using points_keywordCase
  | commas => simpa [Check.lineRules] using points_commas
  | joins =>
    simp only [Check.lineRules, List.forall_mem_cons, Except.ok.injEq, forall_eq']
    refine ⟨fun found hfound v hv => ?_, fun v hv => ?_, by simp⟩
    · obtain ⟨w, hw, own, hown, hv⟩ := mem_gather _ hfound v hv
      obtain ⟨hw, hkey⟩ := key_of_mem_joins hw
      exact points_joinTable hw hkey own hown v hv
    · obtain ⟨w, hw, hv⟩ := List.mem_flatMap.1 hv
      obtain ⟨hw, hkey⟩ := key_of_mem_joins hw
      exact points_joinContext hw hkey v hv
  | blankLines => simpa [Check.lineRules] using points_whitespaceLine

end Rules

/-! ## In the text -/

theorem width_eq (ts : List Token) : Token.width ts = (charsOf ts).length := by
  induction ts with
  | nil => rfl
  | cons t ts ih => rw [Token.width, ih, Scan.charsOf_cons, List.length_append, String.length_toList, Token.length]

theorem getElem?_of_mem_numbered {ls : List (List Token)} {line : Line} (h : line ∈ Tree.numbered ls) :
    ls[line.number - 1]? = some line.tokens := by
  obtain ⟨⟨ts, i⟩, hmem, rfl⟩ := List.mem_map.1 h
  exact List.mem_zipIdx_iff_getElem?.1 hmem

/-- Each violation of a rule that single tokens break is reported where the word of a token that breaks the rule
begins in the text. -/
theorem report_points (s : Settings) (sql : String) (vs : List Violation)
    (h : report s (Tree.ofSql false sql) = .ok vs) :
    ∀ v ∈ vs, v.code.number ∈ Code.tokenRules →
      ∃ chars front t after, 1 ≤ v.line ∧ (Text.lines sql.toList)[v.line - 1]? = some chars ∧
        (Scan.scan sql)[v.line - 1]? = some (front ++ t :: after) ∧
        v.column = (charsOf front).length + 1 ∧ t.word.toList <+: chars.drop (v.column - 1) ∧
        v.code.Marks s t := by
  intro v hv hcode
  obtain ⟨found, hfound, hlocal⟩ := local_of_report s sql vs h
  have hv : v ∈ found := by
    have hmem : v ∈ vs.filter isLocal := by
      refine List.mem_filter.2 ⟨hv, bne_iff_ne.2 fun hblank => ?_⟩
      rw [hblank] at hcode
      revert hcode
      decide
    rw [hlocal] at hmem
    exact List.mem_mergeSort.1 hmem
  obtain ⟨rule, hrule, some, hsome, hv⟩ := mem_gather _ hfound v hv
  obtain ⟨line, hline, own, hown, hv⟩ := mem_gather _ hsome v hv
  obtain ⟨check, -, hrule⟩ := List.mem_flatMap.1 hrule
  have hscan := getElem?_of_mem_numbered hline
  have hlexical : ∀ t ∈ line.tokens, Scan.Lexical t := fun t ht =>
    Scan.lexical_scan sql t (List.mem_flatten.2 ⟨_, List.mem_of_getElem? hscan, ht⟩)
  obtain ⟨w, hw, hnumber, hcolumn, hmarks⟩ := points_lineRule hlexical check rule hrule own hown v hv hcode
  rw [mem_windows] at hw
  have htake : line.tokens.take w.index = w.before.reverse := by
    rw [hw, Window.index, ← List.length_reverse, List.take_left]
  have hcolumn : v.column = (charsOf w.before.reverse).length + 1 := by
    rw [hcolumn, Line.column, Int.toNat_natCast, htake, width_eq]
  refine ⟨charsOf line.tokens, w.before.reverse, w.token, w.after, ?_, ?_, ?_, hcolumn, ?_, hmarks⟩
  · rw [hnumber]
    exact (number_le_of_mem_numbered _ line hline).1
  · rw [hnumber, ← Scan.chars_scan, List.getElem?_map, hscan]
    rfl
  · rw [hnumber, hscan, ← hw]
  · rw [hcolumn, hw, Scan.charsOf_append, Nat.add_sub_cancel, List.drop_left]
    exact List.prefix_append _ _

/-- The comma is the second token that is not trimmed, and the seventh of its line. -/
theorem report_points_of_comma :
    let s := ({} : Values).settings
    let sql := "select\r\n    /* é */ b, c"
    let v : Violation := ⟨.commaNotHead, 2, 14, {}⟩
    report s (Tree.ofSql false sql) = .ok [v] ∧ v.code.number ∈ Code.tokenRules ∧
      ∃ chars front t after, 1 ≤ v.line ∧ (Text.lines sql.toList)[v.line - 1]? = some chars ∧
        (Scan.scan sql)[v.line - 1]? = some (front ++ t :: after) ∧
        v.column = (charsOf front).length + 1 ∧ t.word.toList <+: chars.drop (v.column - 1) ∧
        v.code.Marks s t := by
  intro s sql v
  have hreport : report s (Tree.ofSql false sql) = .ok [v] := by decide +kernel
  have hcode : v.code.number ∈ Code.tokenRules := by decide
  exact ⟨hreport, hcode, report_points s sql [v] hreport v List.mem_cons_self hcode⟩

end Lint
end SqlStyle
