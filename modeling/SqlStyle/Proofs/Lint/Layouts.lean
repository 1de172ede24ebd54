import SqlStyle.Proofs.Layout.Idempotence
import SqlStyle.Proofs.Lint.Lines

/-! A layout obeys the rules that it is made by (`run_of_format`). The passes and the checks are written
apart from each other: a pass gives the tokens their case, the gaps between them and the indents of the
lines, and a check looks at the tokens of a line through windows. So for each pass there is a statement on
the tokens that it leaves behind (`IsWritten`, `IsGapped`, `Placed`), and the check of the same name
is shown to find nothing wherever that holds. -/
namespace SqlStyle.Layout
set_option autoImplicit false
open Clause SqlStyle.Tree Text
open Token (code)

/-! ## Reserved words -/

/-- The token is no reserved word, or is one that is written in the style. -/
def IsWritten (style : KeywordStyle) (t : Token) : Prop :=
  t.kind.isReserved = true → style.write t.word = .ok t.word

/-- The token is no reserved word, or is one that is made of the letters of reserved words. -/
def IsSpellable (t : Token) : Prop :=
  t.kind.isReserved = true →
    t.word ≠ "" ∧ ∀ c ∈ t.word.toList, c ∈ stableLetters ++ Reserved.unstableLetters

theorem isSpellable_of_lexical {t : Token} (h : Scan.Lexical t) : IsSpellable t :=
  fun hk => ⟨h.word_ne, mem_letters_of_lexical h hk⟩

theorem isWritten_of_kind {style : KeywordStyle} {t : Token} (h : t.kind.isReserved = false) :
    IsWritten style t := by
  intro hk
  rw [h] at hk
  cases hk

theorem isWritten_restyled (style : KeywordStyle) {t : Token} (h : IsSpellable t) :
    IsWritten style (restyled style t) := by
  intro hk
  rw [kind_restyled] at hk
  obtain ⟨hne, hletters⟩ := h hk
  rw [restyled, if_pos hk]
  exact style.write_spell t.word hne hletters

theorem isWritten_completeFrom (style : KeywordStyle) (prev? : Option Token) (ts : List Token)
    (h : ∀ t ∈ ts, IsWritten style t) : ∀ t ∈ completeFrom style prev? ts, IsWritten style t := by
  have hwords : ∀ w ∈ ["INNER", "OUTER"], style.write (style.spell w) = .ok (style.spell w) := by
    cases style <;> decide +kernel
  induction ts generalizing prev? with
  | nil => simp [completeFrom]
  | cons t ts ih =>
    obtain ⟨ht, hts⟩ := List.forall_mem_cons.1 h
    rw [completeFrom, List.forall_mem_append, List.forall_mem_cons, List.forall_mem_map]
    refine ⟨fun w hw _ => hwords w ?_, ht, ih (some t) hts⟩
    split at hw
    · exact mem_missingJoinWord prev? w (Option.mem_toList.1 hw)
    · cases hw

theorem isWritten_writtenLine (style : KeywordStyle) (n : Node) (h : ∀ t ∈ n.tokens, IsSpellable t) :
    ∀ t ∈ (writtenLine style n).tokens, IsWritten style t := by
  apply isWritten_completeFrom style none
  rw [restyledLine, withTokens, List.forall_mem_map]
  exact fun t ht => isWritten_restyled style (h t ht)

theorem Rearranged.isWritten {style : KeywordStyle} {n m : Node} (h : Rearranged n m)
    (hn : ∀ t ∈ n.tokens, IsWritten style t) : ∀ t ∈ m.tokens, IsWritten style t := by
  intro t ht
  rcases h.mem t ht with ht | hk
  · exact hn t ht
  · exact isWritten_of_kind (by rw [hk]; rfl)

/-- The reserved words of a layout are written in the style before its lines are indented. -/
theorem isWritten_moved (s : Settings) (ts : List Token) (moved : List Tree) (hne : ts ≠ [])
    (hcode : ∀ t ∈ ts, t.kind ≠ .whitespace) (hts : ∀ t ∈ ts, IsSpellable t)
    (hshape : (shape s ts).fault? = none)
    (hmoved : commaPass s.commaPosition (.node (top true)
      (mapForest (writtenLine s.keywordStyle) (shape s ts).value.leaves)) = ⟨.node (top true) moved, none⟩) :
    ∀ n ∈ forestNodes moved, ∀ t ∈ n.tokens, IsWritten s.keywordStyle t := by
  let c : Call := ⟨⟨1, some ⟨0, none⟩⟩, ts⟩
  have hgrown : ∀ n ∈ forestNodes (shape s ts).value.leaves, n.tokens ≠ [] ∧
      ∀ t ∈ n.tokens, t.kind ≠ .whitespace ∧ IsSpellable t := by
    apply forall_mem_tokens_grow s c 1 (fun t => t.kind ≠ .whitespace ∧ IsSpellable t) hshape hne
    · exact fun t ht => ⟨hcode t ht, hts t ht⟩
    · exact fun t _ _ => ⟨by simp, by simp [IsSpellable, Kind.isReserved]⟩
  obtain ⟨us, hus, hpaired, -⟩ := early_eq s (top true) (shape s ts).value.leaves
    (fun n hn => ⟨(hgrown n hn).1, fun t ht => ((hgrown n hn).2 t ht).1⟩)
    (fun n hn t ht hk => (((hgrown n hn).2 t ht).2 hk).1)
  have hsame := (Edit.mk.inj (hmoved.symm.trans hus)).1
  obtain rfl := (Tree.node.inj hsame).2
  apply hpaired.forall_nodes fun _ _ h => h.isWritten
  rw [forestNodes_mapForest, List.forall_mem_map]
  exact fun n hn => isWritten_writtenLine s.keywordStyle n fun t ht => ((hgrown n hn).2 t ht).2

theorem isWritten_spacedLine (style : KeywordStyle) (steps : Nat) (n : Node) (h : Bare n)
    (hn : ∀ t ∈ n.tokens, IsWritten style t) :
    ∀ t ∈ (spacedLine (indentedLine steps n)).tokens, IsWritten style t := by
  intro t ht
  by_cases hk : t.kind = .whitespace
  · exact isWritten_of_kind (by rw [hk]; rfl)
  · apply hn t
    rw [← (charsOf_spacedLine steps n h).1]
    exact List.mem_filter.2 ⟨ht, by simpa using hk⟩

/-! ## Gaps -/

theorem tail_indentedLine (steps : Nat) (n : Node) (h : Bare n) :
    ∀ t ∈ (indentedLine steps n).tokens.tail, t.kind ≠ .whitespace := by
  obtain ⟨t, ts, hts⟩ := List.exists_cons_of_ne_nil h.1
  have hbare := h.2
  have ht : t.kind ≠ .whitespace := hbare t (by rw [hts]; exact List.mem_cons_self)
  unfold indentedLine indentLine
  simp only [hts, if_neg ht]
  rw [hts] at hbare
  split
  · exact hbare
  · rw [hts]
    exact fun u hu => hbare u (List.mem_cons_of_mem t hu)

/-- Whitespace among the tokens, unless it comes first, is the gap between the tokens on either side. -/
def IsGapped (ts : List Token) : Prop :=
  ∀ front w back, ts = front ++ w :: back → front ≠ [] → w.kind = .whitespace →
    ∃ t ∈ front.getLast?, ∃ next ∈ back.head?, gap t next = [w]

theorem isGapped_spaceOut (ts : List Token) (hts : ∀ t ∈ ts.tail, t.kind ≠ .whitespace) :
    IsGapped (spaceOut ts) := by
  intro front w back h hfront hw
  fun_induction spaceOut ts generalizing front with
  | case1 => simp at h
  | case2 t =>
    obtain ⟨u, front, rfl⟩ := List.exists_cons_of_ne_nil hfront
    simp at h
  | case3 t next rest ih =>
    obtain ⟨u, front, rfl⟩ := List.exists_cons_of_ne_nil hfront
    rw [List.cons_append, List.cons_append] at h
    obtain ⟨rfl, hrun⟩ := List.cons.inj h
    have hnext : next.kind ≠ .whitespace := hts next List.mem_cons_self
    have hinner : ∀ mid, spaceOut (next :: rest) = mid ++ w :: back →
        ∃ t ∈ mid.getLast?, ∃ next ∈ back.head?, gap t next = [w] := by
      intro mid hmid
      cases mid with
      | nil =>
        have hhead := head?_spaceOut (next :: rest)
        rw [hmid] at hhead
        obtain rfl : w = next := Option.some.inj hhead
        exact absurd hw hnext
      | cons v mid =>
        exact ih (fun t ht => hts t (List.mem_cons_of_mem next ht)) (v :: mid) hmid (List.cons_ne_nil v mid)
    by_cases htight : isTight t next = true
    · rw [gap, if_pos htight, List.nil_append] at hrun
      obtain ⟨v, hv, hrest⟩ := hinner front hrun
      exact ⟨v, List.mem_getLast?_cons hv, hrest⟩
    · have hgap : gap t next = [blanks (if next.kind = .comment then 2 else 1)] := if_neg htight
      rw [hgap, List.singleton_append] at hrun
      cases front with
      | nil =>
        obtain ⟨rfl, rfl⟩ := List.cons.inj hrun
        refine ⟨t, rfl, next, ?_, hgap⟩
        rw [head?_spaceOut]
        rfl
      | cons g front =>
        obtain ⟨v, hv, hrest⟩ := hinner front (List.cons.inj hrun).2
        exact ⟨v, List.mem_getLast?_cons (List.mem_getLast?_cons hv), hrest⟩

theorem length_blanks (n : Nat) : (blanks n).length = n := by
  simp [Token.length, blanks]

theorem eq_blanks_of_gap {t next w : Token} (h : gap t next = [w]) :
    isTight t next = false ∧ w = blanks (if next.kind = .comment then 2 else 1) := by
  unfold gap at h
  split at h
  · cases h
  · next htight => exact ⟨by simpa using htight, (List.singleton_inj.1 h).symm⟩

end SqlStyle.Layout

/-! ## Checks that find nothing -/

namespace SqlStyle.Lint
open Layout SqlStyle.Tree

theorem indentation_of_placed (steps : Nat) (n : Node) (hsteps : 1 ≤ steps)
    (h : (n.indent : Int) = steps * (n.depth - 1)) : indentation steps n.toLine = .ok [] := by
  have hdvd : steps ∣ n.indent := Int.natCast_dvd_natCast.1 ⟨n.depth - 1, h⟩
  rw [indentation, if_neg (by omega), if_pos (Nat.mod_eq_zero_of_dvd hdvd)]

theorem keywordCase_of_written (style : KeywordStyle) (line : Line)
    (h : ∀ t ∈ line.tokens, IsWritten style t) : keywordCase style line = .ok [] := by
  apply gather_eq_nil
  intro w hw
  split
  · next hk =>
    rw [h w.token (Window.token_mem hw) hk]
    simp [bind, Except.bind, pure, Except.pure]
  · rfl

theorem blankRuns_of_filled (last top : Line) (lines : List Line)
    (h : ∀ line ∈ lines, ∃ t ∈ line.tokens, t.kind ≠ .whitespace) (hlast : last.tokens = []) :
    blankRuns top 0 (lines ++ [last]) = [] := by
  induction lines generalizing top with
  | nil => simp [blankRuns, isOnlyWhitespace, hlast]
  | cons line lines ih =>
    obtain ⟨⟨t, ht, hk⟩, hlines⟩ := List.forall_mem_cons.1 h
    have hfilled : line.tokens ≠ [] := List.ne_nil_of_mem ht
    have hcode : isOnlyWhitespace line = false := by
      unfold isOnlyWhitespace
      split
      · next u hu =>
        rw [hu, List.mem_singleton] at ht
        rw [← ht]
        simpa using hk
      · rfl
    rw [List.cons_append, blankRuns, ih line hlines]
    simp [hcode, hfilled]

section Gaps
variable {ts : List Token} (hts : IsGapped ts)
include hts

theorem gap_of_window {w : Window} (hw : w ∈ windows ts) (hindex : 0 < w.index)
    (hspace : isSpace w.token = true) :
    ∃ t ∈ w.before.head?, ∃ next ∈ w.after.head?, gap t next = [w.token] := by
  have hcut := (mem_windows ts w).1 hw
  have hbefore : w.before.reverse ≠ [] := by
    rw [Ne, List.reverse_eq_nil_iff]
    exact List.ne_nil_of_length_pos hindex
  have hgap := hts _ _ _ hcut hbefore (by simpa [isSpace] using hspace)
  rwa [List.getLast?_reverse] at hgap

theorem isWide_of_gapped {w : Window} (hw : w ∈ windows ts) (hindex : 0 < w.index) : isWide w = false := by
  cases hspace : isSpace w.token with
  | false => rw [isWide, hspace]; rfl
  | true =>
    obtain ⟨t, -, next, hnext, hgap⟩ := gap_of_window hts hw hindex hspace
    have htoken := (eq_blanks_of_gap hgap).2
    rw [isWide, htoken, Option.mem_def.1 hnext]
    by_cases hk : next.kind = .comment
    · simp [hk, length_blanks]
    · simp [hk, length_blanks]

theorem isSpace_inner {w : Window} (hw : w ∈ windows ts) (hk : w.token.kind ∈ [.comma, .rightBracket])
    {b : Token} (hb : inner? w = some b) : isSpace b = false := by
  obtain ⟨c, rest, hbefore⟩ : ∃ c rest, w.before = b :: c :: rest := by
    unfold inner? at hb
    split at hb
    · next b' c rest hbefore =>
      cases hb
      exact ⟨c, rest, hbefore⟩
    · cases hb
  have hcut := (mem_windows ts w).1 hw
  have hwindow : ⟨c :: rest, b, w.token :: w.after⟩ ∈ windows ts := by
    rw [mem_windows, hcut, hbefore]
    simp
  rw [← Bool.not_eq_true]
  intro hspace
  obtain ⟨t, -, next, hnext, hgap⟩ := gap_of_window hts hwindow (Nat.succ_pos _) hspace
  obtain rfl : w.token = next := Option.some.inj hnext
  have htight := (eq_blanks_of_gap hgap).1
  rcases (by simpa using hk : w.token.kind = .comma ∨ w.token.kind = .rightBracket) with hk | hk <;>
    simp [isTight, hk] at htight

theorem isSpace_next {w : Window} (hw : w ∈ windows ts) (hk : w.token.kind = .leftBracket)
    {next : Token} {rest : List Token} (hafter : w.after = next :: rest) : isSpace next = false := by
  have hcut := (mem_windows ts w).1 hw
  have hwindow : ⟨w.token :: w.before, next, rest⟩ ∈ windows ts := by
    rw [mem_windows, hcut, hafter]
    simp
  rw [← Bool.not_eq_true]
  intro hspace
  obtain ⟨t, ht, u, -, hgap⟩ := gap_of_window hts hwindow (Nat.succ_pos _) hspace
  obtain rfl : w.token = t := Option.some.inj ht
  have htight := (eq_blanks_of_gap hgap).1
  simp [isTight, hk] at htight

end Gaps

section Rules
variable (line : Line) (hline : IsGapped line.tokens)
include hline

theorem multipleSpaces_of_gapped : multipleSpaces line = [] := by
  rw [multipleSpaces, List.map_eq_nil_iff, List.filter_eq_nil_iff]
  intro w hw hwide
  rw [Bool.and_eq_true, decide_eq_true_eq] at hwide
  rw [isWide_of_gapped hline hw hwide.1] at hwide
  cases hwide.2

theorem commaSpaces_of_gapped : ∀ v ∈ onWindows commaSpaces line, v.code = .noSpaceAfterComma := by
  intro v hv
  obtain ⟨w, hw, hv⟩ := List.mem_flatMap.1 hv
  unfold commaSpaces at hv
  split at hv
  · cases hv
  · next next rest hafter =>
    split at hv
    · next hk =>
      have hinner : (inner? w).any isSpace = false := by
        cases hb : inner? w with
        | none => rfl
        | some b => exact isSpace_inner hline hw (by simp [beq_iff_eq.1 hk]) hb
      rw [hinner, if_neg Bool.false_ne_true, List.nil_append] at hv
      split at hv
      · cases hv
      · rw [List.mem_singleton.1 hv]
        rfl
    · cases hv

theorem bracketSpaces_of_gapped : onWindows bracketSpaces line = [] := by
  rw [onWindows, List.flatMap_eq_nil_iff]
  intro w hw
  unfold bracketSpaces
  split
  · rfl
  · next next rest hafter =>
    have hleft : (w.token.kind == .leftBracket && isSpace next) = false := by
      by_cases hk : w.token.kind = .leftBracket
      · rw [isSpace_next hline hw hk hafter, Bool.and_false]
      · simp [hk]
    rw [hleft, if_neg Bool.false_ne_true, List.nil_append]
    split
    · next b hb =>
      have hright : (w.token.kind == .rightBracket && isSpace b) = false := by
        by_cases hk : w.token.kind = .rightBracket
        · rw [isSpace_inner hline hw (by simp [hk]) hb, Bool.and_false]
        · simp [hk]
      rw [hright, if_neg Bool.false_ne_true]
    · rfl

end Rules

/-- Where whitespace stands in gaps only, nothing but missing whitespace is reported. -/
theorem code_of_mem_spacing (lines : List Line) (h : ∀ line ∈ lines, IsGapped line.tokens) :
    ∀ v ∈ spacing lines,
      v.code ∈ [.noSpaceAfterComma, .noSpaceBeforeOperator, .noSpaceAfterOperator] := by
  intro v hv
  obtain ⟨rule, hrule, hv⟩ := List.mem_flatMap.1 hv
  obtain ⟨line, hmem, hv⟩ := List.mem_flatMap.1 hv
  have hline := h line hmem
  simp only [spacingRules, List.mem_cons, List.not_mem_nil, or_false] at hrule
  rcases hrule with rfl | rfl | rfl | rfl
  · rw [multipleSpaces_of_gapped line hline] at hv
    cases hv
  · rw [commaSpaces_of_gapped line hline v hv]
    exact List.mem_cons_self
  · rw [bracketSpaces_of_gapped line hline] at hv
    cases hv
  · exact List.mem_cons_of_mem _ (code_of_mem_operatorSpaces line v hv)

/-! ## Layouts -/

/-- A layout is indented by steps, its reserved words are in the style, only its last line is blank, and it has
no whitespace but where it belongs: the checks that look for this report nothing, apart from whitespace that
is missing. -/
theorem run_of_format (s : Settings) (sql : String) (t : Tree) (hsteps : 1 ≤ s.indentSteps)
    (hformat : Layout.format s (ofSql true sql) = .ok t) :
    Check.indentation.run s t = .ok [] ∧ Check.keywordCase.run s t = .ok [] ∧
      Check.blankLines.run s t = .ok [] ∧
      ∃ found, Check.spacing.run s t = .ok found ∧
        ∀ v ∈ found, v.code.number ∉ ["E201", "E203", "E204", "E205"] := by
  obtain ⟨hne, hshape, moved, hmoved, hbare, hstepped, ht⟩ := format_ok s sql t hformat
  have hwritten := isWritten_moved s _ moved hne kind_ne_whitespace_of_code
    (fun u hu => isSpellable_of_lexical (Scan.lexical_scan sql u (List.mem_of_mem_filter hu))) hshape hmoved
  rw [mapForest_mapForest] at ht
  let line := fun n => spacedLine (indentedLine s.indentSteps n)
  have hlines : t.beneath.map Node.toLine =
      (forestNodes moved).map (fun n => (line n).toLine) ++ [blankLine.root.toLine] := by
    rw [ht, beneath_layout, List.map_append, List.map_map]
    rfl
  have hplaced : ∀ n ∈ forestNodes moved, Placed s.indentSteps (line n) := fun n hn =>
    (placed_indentedLine s.indentSteps n (hbare n hn) (hstepped.le_depth n hn)).spacedLine
  have hempty : blankLine.root.tokens = [] := rfl
  refine ⟨?_, ?_, ?_, _, rfl, ?_⟩
  · refine gather_eq_nil _ _ ?_
    rw [hlines, List.forall_mem_append, List.forall_mem_map, List.forall_mem_singleton]
    refine ⟨fun n hn => indentation_of_placed _ (line n) hsteps (hplaced n hn).2, ?_⟩
    exact indentation_of_placed _ blankLine.root hsteps (by simp [blankLine, root, Line.indent])
  · refine gather_eq_nil _ _ ?_
    rw [hlines, List.forall_mem_append, List.forall_mem_map, List.forall_mem_singleton]
    refine ⟨fun n hn => keywordCase_of_written _ _ ?_, rfl⟩
    exact isWritten_spacedLine _ _ n (hbare n hn) (hwritten n hn)
  · refine congrArg Except.ok ?_
    rw [blankLines_eq, hlines]
    apply blankRuns_of_filled _ _ _ _ hempty
    rw [List.forall_mem_map]
    exact fun n hn => (hplaced n hn).1
  · intro v hv
    have hgapped : ∀ line ∈ t.beneath.map Node.toLine, IsGapped line.tokens := by
      rw [hlines, List.forall_mem_append, List.forall_mem_map, List.forall_mem_singleton]
      refine ⟨fun n hn => isGapped_spaceOut _ (tail_indentedLine _ n (hbare n hn)), ?_⟩
      exact isGapped_spaceOut [] (by simp)
    have hcode := code_of_mem_spacing _ hgapped v hv
    revert hcode
    cases v.code <;> decide

/-- A query with a long s and a dotted capital I in its reserved words, a join that is not in full, commas, a
comment and brackets. -/
def queryOfLetters : String :=
  "ſelect a, max(b) c -- x\nfrom t left join u on t.x = u.y where a in (1, 2) lİmit 1"

theorem run_of_format_of_letters :
    let s : Settings := ⟨128, .tail, .upperHead, 3⟩
    1 ≤ s.indentSteps ∧ ∃ t, Layout.format s (ofSql true queryOfLetters) = .ok t ∧
      Check.indentation.run s t = .ok [] ∧ Check.keywordCase.run s t = .ok [] ∧
      Check.blankLines.run s t = .ok [] ∧
      ∃ found, Check.spacing.run s t = .ok found ∧
        ∀ v ∈ found, v.code.number ∉ ["E201", "E203", "E204", "E205"] := by
  intro s
  have hok : (Layout.format s (ofSql true queryOfLetters)).isOk = true := by decide +kernel
  have hsteps : 1 ≤ s.indentSteps := by decide
  cases hformat : Layout.format s (ofSql true queryOfLetters) with
  | error fault =>
    rw [hformat] at hok
    cases hok
  | ok t => exact ⟨hsteps, t, rfl, run_of_format s queryOfLetters t hsteps hformat⟩

end SqlStyle.Lint
