import SqlStyle.Proofs.Layout.Lines
import SqlStyle.Proofs.Lint.Lines
import SqlStyle.Proofs.Token.Lexical

/-! When checking fails. Steps of no width stop the first check at the first line. Else the one rule that can
stop is the one that looks for the table of a join: it stops at a line whose last token but one is a join.
On all other statements checking ends, and every finding can be reported (`findings_cases`). -/
namespace SqlStyle.Lint
set_option autoImplicit false
open Layout (HasLetters)

/-! ## Joins -/

/-- The last token of the line but one is a join. -/
def EndsAtJoin (ts : List Token) : Prop :=
  ∃ front join last, ts = front ++ [join, last] ∧ join.key = "JOIN"

theorem joinTable_settles (line : Line) (w : Window) : Settles .noToken (joinTable line w) := by
  unfold joinTable
  split
  · exact .inr ⟨_, rfl⟩
  · exact .inl rfl
  · exact .inr ⟨_, rfl⟩

theorem joinTable_eq_error_iff (line : Line) (w : Window) :
    joinTable line w = .error .noToken ↔ ∃ last, w.after = [last] := by
  unfold joinTable
  split <;> next h => simp [h]

def joinTables (line : Line) : Except Fault (List Violation) :=
  gather (joinTable line) (joins line)

theorem joinTables_settles (line : Line) : Settles .noToken (joinTables line) :=
  gather_settles _ _ _ fun w _ => joinTable_settles line w

/-- The search for the tables of joins stops exactly if one token only stands behind a join. -/
theorem joinTables_eq_error_iff (line : Line) :
    joinTables line = .error .noToken ↔ EndsAtJoin line.tokens := by
  rw [joinTables, gather_eq_error_iff _ _ _ fun w _ => joinTable_settles line w]
  simp only [joinTable_eq_error_iff]
  constructor
  · rintro ⟨w, hw, last, hlast⟩
    obtain ⟨hmem, hkey⟩ := List.mem_filter.1 hw
    rw [mem_windows, hlast] at hmem
    exact ⟨w.before.reverse, w.token, last, hmem, beq_iff_eq.1 hkey⟩
  · rintro ⟨front, join, last, hts, hkey⟩
    have hmem : (⟨front.reverse, join, [last]⟩ : Window) ∈ windows line.tokens := by
      rw [mem_windows, hts, List.reverse_reverse]
    exact ⟨_, List.mem_filter.2 ⟨hmem, beq_iff_eq.2 hkey⟩, last, rfl⟩

/-! ## The other rules -/

theorem keywordCase_ok (style : KeywordStyle) (line : Line) (h : ∀ t ∈ line.tokens, HasLetters t) :
    ∃ found, keywordCase style line = .ok found := by
  apply gather_ok
  intro w hw
  have hmem := Window.token_mem hw
  split
  · next hk =>
    have hword : ¬(style = .upperHead ∧ w.token.word = "") := fun hempty => h _ hmem hk hempty.2
    rw [KeywordStyle.write, if_neg hword]
    exact ⟨_, rfl⟩
  · exact ⟨[], rfl⟩

theorem lineRule_ok (s : Settings) (hsteps : s.indentSteps ≠ 0) :
    ∀ rule ∈ lineRules s, rule = joinTables ∨
      ∀ line : Line, (∀ t ∈ line.tokens, HasLetters t) → ∃ found, rule line = .ok found := by
  intro rule hrule
  simp only [lineRules, checks, spacingRules, Check.lineRules, List.flatMap_cons, List.flatMap_nil,
    List.map_cons, List.map_nil, List.cons_append, List.nil_append, List.mem_cons, List.not_mem_nil,
    or_false] at hrule
  rcases hrule with rfl | rfl | rfl | rfl | rfl | rfl | rfl | rfl | rfl | rfl
  case inl => exact .inr fun line _ => ⟨_, if_neg hsteps⟩
  case inr.inr.inr.inr.inr.inl => exact .inr (keywordCase_ok s.keywordStyle)
  case inr.inr.inr.inr.inr.inr.inr.inl => exact .inl rfl
  all_goals exact .inr fun line _ => ⟨_, rfl⟩

theorem joinTables_mem (s : Settings) : joinTables ∈ lineRules s := by
  simp only [lineRules, checks, Check.lineRules, List.flatMap_cons, List.mem_append, List.mem_cons]
  exact .inr (.inr (.inr (.inr (.inl (.inl rfl)))))

section Lines
variable (s : Settings) (lines : List Line) (hsteps : lines ≠ [] → s.indentSteps ≠ 0)
  (hletters : ∀ line ∈ lines, ∀ t ∈ line.tokens, HasLetters t)
include hsteps hletters

theorem lineRule_settles : ∀ rule ∈ lineRules s, ∀ line ∈ lines, Settles .noToken (rule line) := by
  intro rule hrule line hline
  rcases lineRule_ok s (hsteps (List.ne_nil_of_mem hline)) rule hrule with rfl | hok
  · exact joinTables_settles line
  · exact .inr (hok line (hletters line hline))

theorem lineRules_eq_error_iff {line : Line} (hline : line ∈ lines) :
    (∃ rule ∈ lineRules s, rule line = .error .noToken) ↔ EndsAtJoin line.tokens := by
  rw [← joinTables_eq_error_iff]
  refine ⟨?_, fun h => ⟨joinTables, joinTables_mem s, h⟩⟩
  rintro ⟨rule, hrule, herror⟩
  rcases lineRule_ok s (hsteps (List.ne_nil_of_mem hline)) rule hrule with rfl | hok
  · exact herror
  · obtain ⟨found, hfound⟩ := hok line (hletters line hline)
    rw [hfound] at herror
    cases herror

theorem applyRules_settles : Settles .noToken (applyRules (lineRules s) lines) :=
  gather_settles _ _ _ fun rule hrule =>
    gather_settles _ _ _ (lineRule_settles s lines hsteps hletters rule hrule)

theorem applyRules_eq_error_iff :
    applyRules (lineRules s) lines = .error .noToken ↔ ∃ line ∈ lines, EndsAtJoin line.tokens := by
  have hrules := lineRule_settles s lines hsteps hletters
  rw [applyRules, gather_eq_error_iff _ _ _ fun rule hrule => gather_settles _ _ _ (hrules rule hrule)]
  constructor
  · rintro ⟨rule, hrule, herror⟩
    obtain ⟨line, hline, hstops⟩ := (gather_eq_error_iff _ _ _ (hrules rule hrule)).1 herror
    exact ⟨line, hline, (lineRules_eq_error_iff s lines hsteps hletters hline).1 ⟨rule, hrule, hstops⟩⟩
  · rintro ⟨line, hline, hjoin⟩
    obtain ⟨rule, hrule, hstops⟩ := (lineRules_eq_error_iff s lines hsteps hletters hline).2 hjoin
    exact ⟨rule, hrule, (gather_eq_error_iff _ _ _ (hrules rule hrule)).2 ⟨line, hline, hstops⟩⟩

end Lines

/-! ## Statements -/

theorem findings_noStep (s : Settings) (t : Tree) (hsteps : s.indentSteps = 0) (hleaves : t.leaves ≠ []) :
    findings s t = .error .noStep := by
  obtain ⟨⟨n, ls⟩, rest, ht⟩ := List.exists_cons_of_ne_nil hleaves
  apply gather_cons_error
  rw [Check.run, Tree.beneath, ht, Tree.forestNodes_node_cons, List.map_cons]
  exact gather_cons_error _ _ _ _ (if_pos hsteps)

theorem lexical_of_mem_beneath (condensed : Bool) (sql : String) :
    ∀ line ∈ (Tree.ofSql condensed sql).beneath.map Node.toLine, ∀ t ∈ line.tokens, Scan.Lexical t := by
  have hnumbered : ∀ line ∈ Tree.numbered (Scan.scan sql), ∀ t ∈ line.tokens, Scan.Lexical t := by
    intro line hline t ht
    have hmem : line.tokens ∈ Scan.scan sql := by
      rw [← Tree.tokens_numbered (Scan.scan sql)]
      exact List.mem_map_of_mem hline
    exact Scan.lexical_scan sql t (List.mem_flatten.2 ⟨_, hmem, ht⟩)
  intro line hline
  rw [Tree.ofSql, Tree.ofLines, Tree.beneath, Tree.leaves, Tree.toLine_forestNodes_nest] at hline
  cases condensed with
  | false => exact hnumbered line hline
  | true =>
    obtain ⟨full, hfull, rfl⟩ := List.mem_map.1 (List.mem_of_mem_filter hline)
    exact fun t ht => hnumbered full hfull t (List.mem_of_mem_filter ht)

/-- When checking a statement fails: if the steps have no width and there is a line, there is no step to
measure with; else, if the last token but one of a line is a join, a token is missing; else
checking ends, and there is a report on each finding. -/
theorem findings_cases (v : Values) (condensed : Bool) (sql : String) :
    (v.settings.indentSteps = 0 ∧ (Tree.ofSql condensed sql).leaves ≠ [] ∧
        findings v.settings (Tree.ofSql condensed sql) = .error .noStep) ∨
      (¬(v.settings.indentSteps = 0 ∧ (Tree.ofSql condensed sql).leaves ≠ []) ∧
        (∃ n ∈ (Tree.ofSql condensed sql).beneath, EndsAtJoin n.tokens) ∧
        findings v.settings (Tree.ofSql condensed sql) = .error .noToken) ∨
      (¬(v.settings.indentSteps = 0 ∧ (Tree.ofSql condensed sql).leaves ≠ []) ∧
        (¬ ∃ n ∈ (Tree.ofSql condensed sql).beneath, EndsAtJoin n.tokens) ∧
        ∃ found, findings v.settings (Tree.ofSql condensed sql) = .ok found ∧
          ∀ violation ∈ found, ∃ text, violation.text = .ok text) := by
  generalize v.settings = s
  have hlexical := lexical_of_mem_beneath condensed sql
  generalize Tree.ofSql condensed sql = t at hlexical
  by_cases hstep : s.indentSteps = 0 ∧ t.leaves ≠ []
  · exact .inl ⟨hstep.1, hstep.2, findings_noStep s t hstep.1 hstep.2⟩
  · right
    have hsteps : t.beneath.map Node.toLine ≠ [] → s.indentSteps ≠ 0 := by
      intro hlines hzero
      apply hstep
      refine ⟨hzero, fun hleaves => hlines ?_⟩
      rw [Tree.beneath, hleaves]
      rfl
    have hletters : ∀ line ∈ t.beneath.map Node.toLine, ∀ u ∈ line.tokens, HasLetters u :=
      fun line hline u hu _ => (hlexical line hline u hu).word_ne
    have hiff := applyRules_eq_error_iff s _ hsteps hletters
    have hsettles := applyRules_settles s _ hsteps hletters
    simp only [List.mem_map, exists_exists_and_eq_and] at hiff
    rw [← local_findings] at hiff hsettles
    cases hfound : findings s t with
    | error fault =>
      rw [hfound] at hiff hsettles
      rcases hsettles with hfault | ⟨found, hok⟩
      · exact .inl ⟨hstep, hiff.1 hfault, by cases hfault; rfl⟩
      · cases hok
    | ok found =>
      refine .inr ⟨hstep, fun hjoin => ?_, found, rfl, text_of_mem_findings s t found hfound⟩
      have herror := hiff.2 hjoin
      rw [hfound] at herror
      cases herror

end SqlStyle.Lint
