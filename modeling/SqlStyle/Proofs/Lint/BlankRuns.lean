import SqlStyle.Proofs.Lint.Scripts

/-! Runs of blank lines. Reading line by line, the count of blank lines just passed tells where the run ends and where
it began, so each maximal run of two or more blank lines is reported once: at the line after it, or at the last line of
all (`reports_blankRuns`). As the walk through a tree finds what reading the lines finds, the nesting of the lines
has no part in it (`run_blankLines`). -/
namespace SqlStyle.Lint
set_option autoImplicit false

/-! ## Maximal runs -/

/-- The lines from `first` on up to `next`, which is not one of them, are blank, and the lines around them are not. -/
structure BlankRun (lines : List (List Token)) (first next : Nat) : Prop where
  lt : first < next
  blank : ∀ k, first ≤ k → k < next → lines[k]? = some []
  start : ∀ k, k + 1 = first → lines[k]? ≠ some []
  stop : lines[next]? ≠ some []

instance (lines : List (List Token)) (first next : Nat) : Decidable (BlankRun lines first next) :=
  decidable_of_iff (first < next ∧ (∀ k < next, first ≤ k → lines[k]? = some []) ∧
      (∀ k < first, k + 1 = first → lines[k]? ≠ some []) ∧ lines[next]? ≠ some [])
    ⟨fun h => ⟨h.1, fun k hk hlt => h.2.1 k hlt hk, fun k hk => h.2.2.1 k (by omega) hk, h.2.2.2⟩,
      fun h => ⟨h.lt, fun k hlt hk => h.blank k hk hlt, fun k _ => h.start k, h.stop⟩⟩

/-- Exactly `blanks` blank lines come directly before line `n`. -/
structure BlanksBefore (lines : List (List Token)) (n blanks : Nat) : Prop where
  le : blanks ≤ n
  blank : ∀ k, n ≤ k + blanks → k < n → lines[k]? = some []
  start : ∀ k, k + 1 + blanks = n → lines[k]? ≠ some []

section Runs
variable {lines : List (List Token)} {n blanks first next : Nat}

theorem BlankRun.le_length (h : BlankRun lines first next) : next ≤ lines.length := by
  have hlt := h.lt
  have hlast := h.blank (next - 1) (by omega) (by omega)
  have hbound := (List.getElem?_eq_some_iff.1 hlast).1
  omega

theorem BlankRun.apart (h : BlankRun lines first next) (hn : lines[n]? ≠ some []) : n < first ∨ next ≤ n := by
  by_contra hin
  rw [not_or] at hin
  exact hn (h.blank n (by omega) (by omega))

theorem BlanksBefore.zero : BlanksBefore lines 0 0 :=
  ⟨Nat.le_refl 0, fun k _ hk => absurd hk (Nat.not_lt_zero k), fun k hk => by omega⟩

theorem BlanksBefore.blankLine (h : BlanksBefore lines n blanks) (hn : lines[n]? = some []) :
    BlanksBefore lines (n + 1) (blanks + 1) := by
  refine ⟨Nat.succ_le_succ h.le, fun k hk hlt => ?_, fun k hk => h.start k (by omega)⟩
  rcases Nat.lt_succ_iff_lt_or_eq.1 hlt with hlt | rfl
  · exact h.blank k (by omega) hlt
  · exact hn

theorem BlanksBefore.codeLine (hn : lines[n]? ≠ some []) : BlanksBefore lines (n + 1) 0 := by
  refine ⟨Nat.zero_le _, fun k hk hlt => by omega, fun k hk => ?_⟩
  have hkn : k = n := by omega
  rw [hkn]
  exact hn

/-- The blank lines before a line that is not blank, or before the end, are a run. -/
theorem BlanksBefore.blankRun_iff (h : BlanksBefore lines n blanks) (hn : lines[n]? ≠ some []) :
    BlankRun lines first n ↔ 0 < blanks ∧ first + blanks = n := by
  have hle := h.le
  constructor
  · intro hrun
    have hlt := hrun.lt
    rcases Nat.lt_trichotomy (first + blanks) n with hfirst | hfirst | hfirst
    · exact absurd (hrun.blank (n - blanks - 1) (by omega) (by omega)) (h.start _ (by omega))
    · exact ⟨by omega, hfirst⟩
    · exact absurd (h.blank (first - 1) (by omega) (by omega)) (hrun.start _ (by omega))
  · rintro ⟨hpos, rfl⟩
    exact ⟨by omega, fun k hk hlt => h.blank k (by omega) hlt, fun k hk => h.start k (by omega), hn⟩

end Runs

/-- The run of blank lines before line `n`, if there are two or more of them. -/
def runBefore (n blanks : Nat) : List (Nat × Nat) :=
  if 2 ≤ blanks then [(n - blanks, n)] else []

theorem mem_runBefore {lines : List (List Token)} {n blanks : Nat} (h : BlanksBefore lines n blanks)
    (hn : lines[n]? ≠ some []) (r : Nat × Nat) :
    r ∈ runBefore n blanks ↔ BlankRun lines r.1 r.2 ∧ r.1 + 2 ≤ r.2 ∧ r.2 = n := by
  obtain ⟨first, next⟩ := r
  have hle := h.le
  have hmem : (first, next) ∈ runBefore n blanks ↔ 2 ≤ blanks ∧ first + blanks = n ∧ next = n := by
    rw [runBefore]
    split
    · rw [List.mem_singleton, Prod.mk.injEq]
      omega
    · simp only [List.not_mem_nil, false_iff]
      omega
  rw [hmem]
  constructor
  · rintro ⟨hblanks, hfirst, rfl⟩
    exact ⟨(h.blankRun_iff hn).2 ⟨by omega, hfirst⟩, by omega, rfl⟩
  · rintro ⟨hrun, hlong, rfl⟩
    have hfirst := ((h.blankRun_iff hn).1 hrun).2
    exact ⟨by omega, hfirst, rfl⟩

/-! ## Reading line by line -/

def runReport (lines : List (List Token)) (next : Nat) : Violation :=
  ⟨.multipleBlankLines, if next < lines.length then next + 1 else lines.length, 1, {}⟩

def isRunReport (v : Violation) : Bool :=
  v.code == .multipleBlankLines

theorem filter_blanksAt (blanks : Nat) (line : Line) :
    (blanksAt blanks line).filter isRunReport =
      if line.tokens ≠ [] ∧ 2 ≤ blanks then [⟨.multipleBlankLines, line.number, 1, {}⟩] else [] := by
  have hwhitespace : (if isOnlyWhitespace line then [Violation.ofLine line .onlyWhitespace 0] else []).filter
      isRunReport = [] := by
    split <;> rfl
  rw [blanksAt, List.filter_append, hwhitespace, List.nil_append]
  by_cases h : line.tokens ≠ [] ∧ 2 ≤ blanks
  · rw [if_pos h, if_pos (by simpa using h)]
    rfl
  · rw [if_neg h, if_neg (by simpa using h)]
    rfl

theorem length_numbered (lines : List (List Token)) : (Tree.numbered lines).length = lines.length := by
  rw [Tree.numbered, List.length_map, List.length_zipIdx]

theorem numbered_drop_cons {lines : List (List Token)} {n : Nat} {line : Line} {rest : List Line}
    (h : line :: rest = (Tree.numbered lines).drop n) :
    lines[n]? = some line.tokens ∧ line.number = n + 1 ∧ rest = (Tree.numbered lines).drop (n + 1) := by
  have hline : (Tree.numbered lines)[n]? = some line := by
    rw [← List.head?_drop, ← h, List.head?_cons]
  rw [getElem?_numbered, Option.map_eq_some_iff] at hline
  obtain ⟨ts, hts, rfl⟩ := hline
  refine ⟨hts, rfl, ?_⟩
  rw [← List.tail_drop, ← h, List.tail_cons]

/-- Reading on from line `n` reports the runs of two or more blank lines that end there or later, in order. -/
theorem reports_blankRuns (lines : List (List Token)) (rest : List Line) (n blanks : Nat) (last : Line)
    (hrest : rest = (Tree.numbered lines).drop n) (hn : n ≤ lines.length) (hlast : last.number = n)
    (hblanks : BlanksBefore lines n blanks) :
    ∃ runs : List (Nat × Nat), runs.Pairwise (fun a b => a.2 < b.1) ∧
      (∀ r, r ∈ runs ↔ BlankRun lines r.1 r.2 ∧ r.1 + 2 ≤ r.2 ∧ n ≤ r.2) ∧
      (blankRuns last blanks rest).filter isRunReport = runs.map fun r => runReport lines r.2 := by
  induction rest generalizing n blanks last with
  | nil =>
    have hend : n = lines.length := by
      have hlength := List.drop_eq_nil_iff.1 hrest.symm
      rw [length_numbered] at hlength
      omega
    have hstop : lines[n]? ≠ some [] := by simp [hend]
    refine ⟨runBefore n blanks, ?_, fun r => ?_, ?_⟩
    · unfold runBefore
      split <;> simp
    · rw [mem_runBefore hblanks hstop]
      constructor
      · rintro ⟨hrun, hlong, hr⟩
        exact ⟨hrun, hlong, hr.ge⟩
      · rintro ⟨hrun, hlong, hr⟩
        have hle := hrun.le_length
        exact ⟨hrun, hlong, by omega⟩
    · rw [blankRuns, runBefore]
      split
      · simp [isRunReport, runReport, Violation.ofLine, Line.column, Token.width, hlast, hend]
      · rfl
  | cons line rest ih =>
    obtain ⟨hline, hnumber, hrest⟩ := numbered_drop_cons hrest
    have hbound := (List.getElem?_eq_some_iff.1 hline).1
    rw [blankRuns_cons, List.filter_append, filter_blanksAt]
    by_cases hblank : line.tokens = []
    · rw [hblank] at hline
      obtain ⟨runs, hordered, hmem, hfound⟩ :=
        ih (n + 1) (blanks + 1) line hrest (by omega) hnumber (hblanks.blankLine hline)
      refine ⟨runs, hordered, fun r => ?_, ?_⟩
      · rw [hmem]
        refine and_congr_right fun hrun => and_congr_right fun _ => ?_
        have hne : r.2 ≠ n := fun he => hrun.stop (he ▸ hline)
        omega
      · have hbehind : blanksBehind blanks line = blanks + 1 := if_pos (by simp [hblank])
        rw [if_neg (by simp [hblank]), hbehind, List.nil_append]
        exact hfound
    · have hstop : lines[n]? ≠ some [] := by simpa [hline] using hblank
      obtain ⟨runs, hordered, hmem, hfound⟩ :=
        ih (n + 1) 0 line hrest (by omega) hnumber (.codeLine hstop)
      refine ⟨runBefore n blanks ++ runs, ?_, fun r => ?_, ?_⟩
      · rw [List.pairwise_append]
        refine ⟨?_, hordered, fun a ha b hb => ?_⟩
        · unfold runBefore
          split <;> simp
        · have hend := ((mem_runBefore hblanks hstop a).1 ha).2.2
          obtain ⟨hrun, -, hlater⟩ := (hmem b).1 hb
          rcases hrun.apart hstop with hapart | hapart <;> omega
      · rw [List.mem_append, mem_runBefore hblanks hstop, hmem, ← and_or_left, ← and_or_left]
        refine and_congr_right fun _ => and_congr_right fun _ => ?_
        omega
      · have hbehind : blanksBehind blanks line = 0 := if_neg (by simpa using hblank)
        rw [List.map_append, hbehind, hfound]
        congr 1
        by_cases hlong : 2 ≤ blanks
        · rw [if_pos ⟨hblank, hlong⟩, runBefore, if_pos hlong]
          simp [runReport, hbound, hnumber]
        · rw [if_neg (fun h => hlong h.2), runBefore, if_neg hlong]
          rfl

/-! ## Statements -/

theorem blankRuns_top (a b : Line) (lines : List Line) : blankRuns a 0 lines = blankRuns b 0 lines := by
  cases lines with
  | nil => rfl
  | cons line rest => rw [blankRuns_cons, blankRuns_cons]

theorem isOnlyWhitespace_eq (line : Line) :
    isOnlyWhitespace line = (line.tokens.map Token.kind == [.whitespace]) := by
  unfold isOnlyWhitespace
  match line.tokens with
  | [] => rfl
  | [t] => simp
  | _ :: _ :: _ => simp

theorem flatMap_whitespaceLine (lines : List Line) :
    lines.flatMap whitespaceLine =
      (lines.filter fun l => l.tokens.map Token.kind == [.whitespace]).map
        fun l => ⟨.onlyWhitespace, l.number, 1, {}⟩ := by
  induction lines with
  | nil => rfl
  | cons line lines ih =>
    rw [List.flatMap_cons, ih, whitespaceLine, isOnlyWhitespace_eq, List.filter_cons]
    split <;> rfl

theorem code_of_mem_blankLines (t : Tree) :
    ∀ v ∈ blankLines t, v.code = .onlyWhitespace ∨ v.code = .multipleBlankLines := by
  intro v hv
  cases hlocal : isLocal v with
  | false => exact .inr (by simpa [isLocal] using hlocal)
  | true =>
    have hmem : v ∈ (blankLines t).filter isLocal := List.mem_filter.2 ⟨hv, hlocal⟩
    rw [local_blankLines, flatMap_whitespaceLine] at hmem
    obtain ⟨line, -, rfl⟩ := List.mem_map.1 hmem
    exact .inl rfl

/-- What the check for blank lines reports on a statement: each line that holds a single whitespace token, and each
maximal run of two or more blank lines once, at the line after it, or at the last line if the run goes on to the
end. All trees of these lines, however nested, give the same report. -/
theorem run_blankLines (s : Settings) (sql : String) :
    ∃ (vs : List Violation) (runs : List (Nat × Nat)),
      Check.blankLines.run s (Tree.ofSql false sql) = .ok vs ∧
      (∀ v ∈ vs, v.code = .onlyWhitespace ∨ v.code = .multipleBlankLines) ∧
      (vs.filter fun v => v.code == .onlyWhitespace) =
        ((Tree.numbered (Scan.scan sql)).filter fun l => l.tokens.map Token.kind == [.whitespace]).map
          (fun l => ⟨.onlyWhitespace, l.number, 1, {}⟩) ∧
      runs.Pairwise (fun a b => a.2 < b.1) ∧
      (∀ r, r ∈ runs ↔ BlankRun (Scan.scan sql) r.1 r.2 ∧ r.1 + 2 ≤ r.2) ∧
      (vs.filter fun v => v.code == .multipleBlankLines) = runs.map (fun r => runReport (Scan.scan sql) r.2) ∧
      ∀ t : Tree, t.beneath.map Node.toLine = Tree.numbered (Scan.scan sql) → Check.blankLines.run s t = .ok vs := by
  let whole := Tree.ofSql false sql
  have hlines : whole.beneath.map Node.toLine = Tree.numbered (Scan.scan sql) := Tree.beneath_ofSql sql
  obtain ⟨runs, hordered, hmem, hfound⟩ := reports_blankRuns (Scan.scan sql) (Tree.numbered (Scan.scan sql)) 0 0
    whole.root.toLine rfl (Nat.zero_le _) rfl .zero
  refine ⟨blankLines whole, runs, rfl, code_of_mem_blankLines whole, ?_, hordered, fun r => ?_, ?_, ?_⟩
  · rw [← flatMap_whitespaceLine, ← hlines, ← local_blankLines]
    refine List.filter_congr fun v hv => ?_
    rcases code_of_mem_blankLines whole v hv with hcode | hcode <;> simp [isLocal, hcode]
  · rw [hmem, and_iff_left (Nat.zero_le r.2)]
  · rw [blankLines_eq, hlines]
    exact hfound
  · intro t ht
    refine congrArg Except.ok ?_
    rw [blankLines_eq, blankLines_eq, ht, hlines]
    exact blankRuns_top t.root.toLine whole.root.toLine (Tree.numbered (Scan.scan sql))

/-- A line below a blank one, a line below that which holds whitespace only, and three blank lines at the end. -/
def scriptOfBlanks : String :=
  "a\n\n\n  b\n   \n\n\n"

def flatBlanks : Tree :=
  .node (Tree.top false) ((Tree.numbered (Scan.scan scriptOfBlanks)).map fun l => .node ⟨l, 1, false, none⟩ [])

theorem run_blankLines_of_script :
    let s : Settings := ⟨128, .head, .lower, 4⟩
    (Tree.ofSql false scriptOfBlanks).leaves.length < flatBlanks.leaves.length ∧
      flatBlanks.beneath.map Node.toLine = Tree.numbered (Scan.scan scriptOfBlanks) ∧
      BlankRun (Scan.scan scriptOfBlanks) 5 8 ∧
      ∃ vs, Check.blankLines.run s (Tree.ofSql false scriptOfBlanks) = .ok vs ∧
        Check.blankLines.run s flatBlanks = .ok vs ∧ ⟨.multipleBlankLines, 8, 1, {}⟩ ∈ vs := by
  intro s
  have hflat : flatBlanks.beneath.map Node.toLine = Tree.numbered (Scan.scan scriptOfBlanks) := by decide +kernel
  have hrun : BlankRun (Scan.scan scriptOfBlanks) 5 8 := by decide +kernel
  refine ⟨by decide +kernel, hflat, hrun, ?_⟩
  obtain ⟨vs, runs, hvs, -, -, -, hruns, hreports, hnested⟩ := run_blankLines s scriptOfBlanks
  have hmem : runReport (Scan.scan scriptOfBlanks) 8 ∈ vs.filter fun v => v.code == .multipleBlankLines := by
    rw [hreports]
    exact List.mem_map_of_mem ((hruns (5, 8)).2 ⟨hrun, by decide⟩)
  have hend : runReport (Scan.scan scriptOfBlanks) 8 = ⟨.multipleBlankLines, 8, 1, {}⟩ := by decide +kernel
  exact ⟨vs, hvs, hnested flatBlanks hflat, hend ▸ (List.mem_filter.1 hmem).1⟩

end SqlStyle.Lint
