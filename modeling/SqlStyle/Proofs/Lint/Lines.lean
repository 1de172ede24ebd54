import SqlStyle.Lint

/-! Checking line by line. All findings but those on runs of blank lines come from rules that look at one line
at a time (`local_findings`): such a rule reads the tokens of the line and stamps what it finds with the
line's number, so that how lines nest, and what stands on other lines, does not matter to it. What
it finds can always be reported (`isLineRule`). -/
namespace SqlStyle.Lint
set_option autoImplicit false

/-! ## Findings on the members of a list -/

section Gather
variable {α β γ : Type} (f : α → Except Fault (List β))

theorem gather_cons_ok (a : α) (found : List β) (as : List α) (h : f a = .ok found) :
    gather f (a :: as) = (gather f as).map (found ++ ·) := by
  rw [gather, h]
  cases gather f as <;> rfl

theorem gather_cons_error (a : α) (fault : Fault) (as : List α) (h : f a = .error fault) :
    gather f (a :: as) = .error fault := by
  rw [gather, h]
  rfl

theorem gather_congr {f g : α → Except Fault (List β)} {as : List α} (h : ∀ a ∈ as, f a = g a) :
    gather f as = gather g as := by
  induction as with
  | nil => rfl
  | cons a as ih =>
    obtain ⟨ha, has⟩ := List.forall_mem_cons.1 h
    rw [gather, gather, ha, ih has]

theorem gather_map (g : γ → α) (cs : List γ) : gather f (cs.map g) = gather (fun c => f (g c)) cs := by
  induction cs with
  | nil => rfl
  | cons c cs ih => rw [List.map_cons, gather, gather, ih]

theorem gather_append (as bs : List α) :
    gather f (as ++ bs) =
      (gather f as).bind fun found => (gather f bs).map (found ++ ·) := by
  induction as with
  | nil =>
    show gather f bs = (gather f bs).map ([] ++ ·)
    cases gather f bs <;> rfl
  | cons a as ih =>
    rw [List.cons_append]
    cases ha : f a with
    | error fault =>
      rw [gather_cons_error f _ _ _ ha, gather_cons_error f _ _ _ ha]
      rfl
    | ok found =>
      rw [gather_cons_ok f _ _ _ ha, gather_cons_ok f _ _ _ ha, ih]
      cases gather f as with
      | error fault => rfl
      | ok first =>
        cases gather f bs with
        | error fault => rfl
        | ok second => exact congrArg Except.ok (List.append_assoc found first second).symm

theorem gather_flatMap (g : γ → List α) (cs : List γ) :
    gather f (cs.flatMap g) = gather (fun c => gather f (g c)) cs := by
  induction cs with
  | nil => rfl
  | cons c cs ih =>
    rw [List.flatMap_cons, gather_append, ih, gather]
    cases gather f (g c) with
    | error fault => rfl
    | ok found => cases gather (fun c => gather f (g c)) cs <;> rfl

theorem map_gather (g : List β → List γ) (hnil : g [] = [])
    (happend : ∀ xs ys, g (xs ++ ys) = g xs ++ g ys) (as : List α) :
    (gather f as).map g = gather (fun a => (f a).map g) as := by
  induction as with
  | nil => exact congrArg Except.ok hnil
  | cons a as ih =>
    cases ha : f a with
    | error fault =>
      rw [gather_cons_error f _ _ _ ha, gather_cons_error _ a fault as (by rw [ha]; rfl)]
      rfl
    | ok found =>
      rw [gather_cons_ok f _ _ _ ha, gather_cons_ok _ a (g found) as (by rw [ha]; rfl), ← ih]
      cases gather f as with
      | error fault => rfl
      | ok rest => exact congrArg Except.ok (happend found rest)

theorem gather_pure (g : α → List β) (as : List α) :
    gather (fun a => .ok (g a)) as = .ok (as.flatMap g) := by
  induction as with
  | nil => rfl
  | cons a as ih =>
    rw [gather_cons_ok _ a (g a) as rfl, ih]
    rfl

theorem gather_eq_nil (as : List α) (h : ∀ a ∈ as, f a = .ok []) : gather f as = .ok [] := by
  induction as with
  | nil => rfl
  | cons a as ih =>
    obtain ⟨ha, has⟩ := List.forall_mem_cons.1 h
    rw [gather_cons_ok f a [] as ha, ih has]
    rfl

theorem gather_cons_eq_ok {a : α} {as : List α} {found : List β} (h : gather f (a :: as) = .ok found) :
    ∃ first rest, f a = .ok first ∧ gather f as = .ok rest ∧ found = first ++ rest := by
  cases ha : f a with
  | error fault =>
    rw [gather_cons_error f a fault as ha] at h
    cases h
  | ok first =>
    rw [gather_cons_ok f a first as ha] at h
    cases hrest : gather f as with
    | error fault =>
      rw [hrest] at h
      cases h
    | ok rest =>
      rw [hrest] at h
      exact ⟨first, rest, rfl, rfl, (Except.ok.inj h).symm⟩

theorem mem_gather {as : List α} {found : List β} (h : gather f as = .ok found) :
    ∀ b ∈ found, ∃ a ∈ as, ∃ some, f a = .ok some ∧ b ∈ some := by
  induction as generalizing found with
  | nil =>
    cases h
    simp
  | cons a as ih =>
    obtain ⟨first, rest, hfirst, hrest, rfl⟩ := gather_cons_eq_ok f h
    refine List.forall_mem_append.2 ⟨fun b hb => ⟨a, List.mem_cons_self, first, hfirst, hb⟩, fun b hb => ?_⟩
    obtain ⟨c, hc, some, hsome, hmem⟩ := ih hrest b hb
    exact ⟨c, List.mem_cons_of_mem a hc, some, hsome, hmem⟩

/-- The work ended, or the given fault stopped it. -/
def Settles (fault : Fault) (result : Except Fault (List β)) : Prop :=
  result = .error fault ∨ ∃ found, result = .ok found

theorem gather_settles (fault : Fault) (as : List α) (h : ∀ a ∈ as, Settles fault (f a)) :
    Settles fault (gather f as) := by
  induction as with
  | nil => exact .inr ⟨[], rfl⟩
  | cons a as ih =>
    obtain ⟨ha, has⟩ := List.forall_mem_cons.1 h
    rcases ha with ha | ⟨first, ha⟩
    · exact .inl (gather_cons_error f a fault as ha)
    · rw [gather_cons_ok f a first as ha]
      rcases ih has with hrest | ⟨rest, hrest⟩
      · exact .inl (by rw [hrest]; rfl)
      · exact .inr ⟨first ++ rest, by rw [hrest]; rfl⟩

theorem gather_eq_error_iff (fault : Fault) (as : List α) (h : ∀ a ∈ as, Settles fault (f a)) :
    gather f as = .error fault ↔ ∃ a ∈ as, f a = .error fault := by
  induction as with
  | nil => simp [gather]
  | cons a as ih =>
    obtain ⟨ha, has⟩ := List.forall_mem_cons.1 h
    simp only [List.mem_cons, exists_eq_or_imp, ← ih has]
    rcases ha with ha | ⟨first, ha⟩
    · exact iff_of_true (gather_cons_error f a fault as ha) (.inl ha)
    · have hfirst : f a ≠ .error fault := by simp [ha]
      rw [gather_cons_ok f a first as ha]
      cases gather f as with
      | error other => simp [hfirst, Except.map]
      | ok rest => simp [hfirst, Except.map]

theorem gather_ok (as : List α) (h : ∀ a ∈ as, ∃ found, f a = .ok found) :
    ∃ found, gather f as = .ok found := by
  have hsettles : ∀ a ∈ as, Settles .noToken (f a) := fun a ha => .inr (h a ha)
  rcases gather_settles f .noToken as hsettles with herror | hok
  · obtain ⟨a, ha, hstops⟩ := (gather_eq_error_iff f .noToken as hsettles).1 herror
    obtain ⟨found, hfound⟩ := h a ha
    rw [hfound] at hstops
    cases hstops
  · exact hok

end Gather

/-! ## Rules on one line -/

def stamp (number : Nat) (v : Violation) : Violation :=
  { v with line := number }

/-- The violation is about one line, and there is a report on it. -/
def IsTold (v : Violation) : Prop :=
  v.code ≠ .multipleBlankLines ∧ ∃ text, v.text = .ok text

/-- What a rule finds on a line, and on the same line with another number: the findings differ in that number
only, and all of them can be reported. -/
structure Stamped (number : Nat) (result other : Except Fault (List Violation)) : Prop where
  eq : other = result.map (List.map (stamp number))
  told : ∀ found, result = .ok found → ∀ v ∈ found, IsTold v

/-- The rule reads no more of a line than its tokens. -/
def IsLineRule (rule : Line → Except Fault (List Violation)) : Prop :=
  ∀ (number : Nat) (line : Line), Stamped number (rule line) (rule { line with number := number })

section Stamped
variable {number : Nat}

theorem Stamped.error (fault : Fault) : Stamped number (.error fault) (.error fault) :=
  ⟨rfl, by simp⟩

theorem Stamped.nil : Stamped number (.ok []) (.ok []) := by
  refine ⟨rfl, ?_⟩
  rintro found ⟨⟩
  simp

theorem Stamped.ofLine (line : Line) (code : Code) (index : Int) (details : Details)
    (hcode : code ≠ .multipleBlankLines)
    (htold : ∃ text, (Violation.ofLine line code index details).text = .ok text) :
    Stamped number (.ok [.ofLine line code index details])
      (.ok [.ofLine { line with number := number } code index details]) := by
  refine ⟨rfl, ?_⟩
  rintro found ⟨⟩
  rw [List.forall_mem_singleton]
  exact ⟨hcode, htold⟩

theorem Stamped.append {xs ys xs' ys' : List Violation} (hx : Stamped number (.ok xs) (.ok xs'))
    (hy : Stamped number (.ok ys) (.ok ys')) : Stamped number (.ok (xs ++ ys)) (.ok (xs' ++ ys')) := by
  refine ⟨?_, ?_⟩
  · have hxs : xs' = xs.map (stamp number) := Except.ok.inj hx.eq
    have hys : ys' = ys.map (stamp number) := Except.ok.inj hy.eq
    rw [hxs, hys, ← List.map_append]
    rfl
  · rintro found ⟨⟩
    exact List.forall_mem_append.2 ⟨hx.told xs rfl, hy.told ys rfl⟩

theorem Stamped.gather {f f' : Window → Except Fault (List Violation)} (ws : List Window)
    (h : ∀ w ∈ ws, Stamped number (f w) (f' w)) :
    Stamped number (Lint.gather f ws) (Lint.gather f' ws) := by
  refine ⟨?_, ?_⟩
  · rw [map_gather f (List.map (stamp number)) rfl fun _ _ => List.map_append]
    exact gather_congr fun w hw => (h w hw).eq
  · intro found hfound v hv
    obtain ⟨w, hw, some, hsome, hv⟩ := mem_gather f hfound v hv
    exact (h w hw).told some hsome v hv

theorem Stamped.flatMap {f f' : Window → List Violation} (ws : List Window)
    (h : ∀ w ∈ ws, Stamped number (.ok (f w)) (.ok (f' w))) :
    Stamped number (.ok (ws.flatMap f)) (.ok (ws.flatMap f')) := by
  rw [← gather_pure, ← gather_pure]
  exact .gather ws h

end Stamped

theorem isLineRule_indentation (steps : Nat) : IsLineRule (indentation steps) := by
  intro number line
  unfold indentation
  have hindent : Line.indent { line with number := number } = line.indent := rfl
  rw [hindent]
  split
  · exact .error _
  · split
    · exact .nil
    · exact .ofLine line _ _ _ (by decide) ⟨_, rfl⟩

theorem isLineRule_multipleSpaces : IsLineRule fun line => .ok (multipleSpaces line) := by
  intro number line
  simp only [multipleSpaces, List.map_eq_flatMap]
  exact .flatMap _ fun w _ => .ofLine line _ _ _ (by decide) ⟨_, rfl⟩

theorem isLineRule_commaSpaces : IsLineRule fun line => .ok (onWindows commaSpaces line) := by
  intro number line
  refine .flatMap _ fun w _ => ?_
  unfold commaSpaces
  split
  · exact .nil
  · split
    · refine .append ?_ ?_
      · split
        · exact .ofLine line _ _ _ (by decide) ⟨_, rfl⟩
        · exact .nil
      · split
        · exact .nil
        · exact .ofLine line _ _ _ (by decide) ⟨_, rfl⟩
    · exact .nil

theorem isLineRule_bracketSpaces : IsLineRule fun line => .ok (onWindows bracketSpaces line) := by
  intro number line
  refine .flatMap _ fun w _ => ?_
  unfold bracketSpaces
  split
  · exact .nil
  · refine .append ?_ ?_
    · split
      · exact .ofLine line _ _ _ (by decide) ⟨_, rfl⟩
      · exact .nil
    · split
      · split
        · exact .ofLine line _ _ _ (by decide) ⟨_, rfl⟩
        · exact .nil
      · exact .nil

theorem isLineRule_operatorSpaces : IsLineRule fun line => .ok (onWindows operatorSpaces line) := by
  intro number line
  refine .flatMap _ fun w _ => ?_
  unfold operatorSpaces
  split
  · exact .nil
  · split
    · refine .append ?_ ?_
      · split
        · split
          · exact .nil
          · exact .ofLine line _ _ _ (by decide) ⟨_, rfl⟩
        · exact .nil
      · split
        · exact .nil
        · exact .ofLine line _ _ _ (by decide) ⟨_, rfl⟩
    · exact .nil

theorem code_of_mem_commaSpaces (line : Line) :
    ∀ v ∈ onWindows commaSpaces line, v.code ∈ [.spaceBeforeComma, .noSpaceAfterComma] := by
  intro v hv
  obtain ⟨w, -, hv⟩ := List.mem_flatMap.1 hv
  unfold commaSpaces at hv
  split at hv
  · cases hv
  · split at hv
    · rcases List.mem_append.1 hv with hv | hv
      · split at hv
        · rw [List.mem_singleton.1 hv]
          exact List.mem_cons_self
        · cases hv
      · split at hv
        · cases hv
        · rw [List.mem_singleton.1 hv]
          exact List.mem_cons_of_mem _ List.mem_cons_self
    · cases hv

theorem code_of_mem_bracketSpaces (line : Line) :
    ∀ v ∈ onWindows bracketSpaces line, v.code ∈ [.spaceAfterBracket, .spaceBeforeBracket] := by
  intro v hv
  obtain ⟨w, -, hv⟩ := List.mem_flatMap.1 hv
  unfold bracketSpaces at hv
  split at hv
  · cases hv
  · rcases List.mem_append.1 hv with hv | hv
    · split at hv
      · rw [List.mem_singleton.1 hv]
        exact List.mem_cons_self
      · cases hv
    · split at hv
      · split at hv
        · rw [List.mem_singleton.1 hv]
          exact List.mem_cons_of_mem _ List.mem_cons_self
        · cases hv
      · cases hv

theorem code_of_mem_operatorSpaces (line : Line) :
    ∀ v ∈ onWindows operatorSpaces line, v.code ∈ [.noSpaceBeforeOperator, .noSpaceAfterOperator] := by
  intro v hv
  obtain ⟨w, -, hv⟩ := List.mem_flatMap.1 hv
  unfold operatorSpaces at hv
  split at hv
  · cases hv
  · split at hv
    · rcases List.mem_append.1 hv with hv | hv
      · split at hv
        · split at hv
          · cases hv
          · rw [List.mem_singleton.1 hv]
            exact List.mem_cons_self
        · cases hv
      · split at hv
        · cases hv
        · rw [List.mem_singleton.1 hv]
          exact List.mem_cons_of_mem _ List.mem_cons_self
    · cases hv

theorem isLineRule_keywordCase (style : KeywordStyle) : IsLineRule (keywordCase style) := by
  intro number line
  refine .gather _ fun w _ => ?_
  split
  · cases style.write w.token.word with
    | error fault => exact .error fault
    | ok expected =>
      show Stamped number (.ok (if w.token.word = expected then _ else _))
        (.ok (if w.token.word = expected then _ else _))
      split
      · exact .nil
      · cases style <;> exact .ofLine line _ _ _ (by decide) ⟨_, rfl⟩
  · exact .nil

theorem isLineRule_commas (position : CommaPosition) :
    IsLineRule fun line => .ok (commas position line) := by
  intro number line
  simp only [commas, List.map_eq_flatMap]
  refine .flatMap _ fun w _ => ?_
  cases position <;> exact .ofLine line _ _ _ (by decide) ⟨_, rfl⟩

theorem isLineRule_joinTable : IsLineRule fun line => gather (joinTable line) (joins line) := by
  intro number line
  refine .gather _ fun w _ => ?_
  have hmissing : Stamped number (.ok [.ofLine line .joinWithoutTable w.index])
      (.ok [.ofLine { line with number := number } .joinWithoutTable w.index]) :=
    .ofLine line _ _ _ (by decide) ⟨_, rfl⟩
  unfold joinTable
  split
  · exact hmissing
  · exact .error _
  · split
    · exact .nil
    · exact hmissing

theorem isLineRule_joinContext :
    IsLineRule fun line => .ok ((joins line).flatMap (joinContext line)) := by
  intro number line
  refine .flatMap _ fun w _ => ?_
  unfold joinContext
  split
  · exact .nil
  · exact .ofLine line _ _ _ (by decide) ⟨_, rfl⟩

def whitespaceLine (line : Line) : List Violation :=
  if isOnlyWhitespace line then [.ofLine line .onlyWhitespace 0] else []

theorem isLineRule_whitespaceLine : IsLineRule fun line => .ok (whitespaceLine line) := by
  intro number line
  have hsame : isOnlyWhitespace { line with number := number } = isOnlyWhitespace line := rfl
  simp only [whitespaceLine, hsame]
  split
  · exact .ofLine line _ _ _ (by decide) ⟨_, rfl⟩
  · exact .nil

/-! ## Checks -/

/-- The rules of a check that look at one line at a time, in the order in which they are applied. -/
def Check.lineRules (check : Check) (s : Settings) : List (Line → Except Fault (List Violation)) :=
  match check with
  | .indentation => [Lint.indentation s.indentSteps]
  | .spacing => spacingRules.map fun rule line => .ok (rule line)
  | .keywordCase => [Lint.keywordCase s.keywordStyle]
  | .commas => [fun line => .ok (Lint.commas s.commaPosition line)]
  | .joins =>
    [fun line => gather (joinTable line) (Lint.joins line),
      fun line => .ok ((Lint.joins line).flatMap (joinContext line))]
  | .blankLines => [fun line => .ok (whitespaceLine line)]

theorem isLineRule (check : Check) (s : Settings) : ∀ rule ∈ check.lineRules s, IsLineRule rule := by
  cases check with
  | indentation => simpa [Check.lineRules] using isLineRule_indentation s.indentSteps
  | spacing =>
    rw [Check.lineRules, List.forall_mem_map]
    simp only [spacingRules, List.forall_mem_cons]
    exact ⟨isLineRule_multipleSpaces, isLineRule_commaSpaces, isLineRule_bracketSpaces,
      isLineRule_operatorSpaces, by simp⟩
  | keywordCase => simpa [Check.lineRules] using isLineRule_keywordCase s.keywordStyle
  | commas => simpa [Check.lineRules] using isLineRule_commas s.commaPosition
  | joins => simpa [Check.lineRules] using ⟨isLineRule_joinTable, isLineRule_joinContext⟩
  | blankLines => simpa [Check.lineRules] using isLineRule_whitespaceLine

/-- The violation is about one line, not about a run of blank lines. -/
def isLocal (v : Violation) : Bool :=
  v.code != .multipleBlankLines

def applyRules (rules : List (Line → Except Fault (List Violation))) (lines : List Line) :
    Except Fault (List Violation) :=
  gather (fun rule => gather rule lines) rules

theorem local_applyRules (rules : List (Line → Except Fault (List Violation))) (lines : List Line)
    (h : ∀ rule ∈ rules, IsLineRule rule) :
    (applyRules rules lines).map (List.filter isLocal) = applyRules rules lines := by
  unfold applyRules
  rw [map_gather _ (List.filter isLocal) rfl fun _ _ => List.filter_append ..]
  refine gather_congr fun rule hrule => ?_
  rw [map_gather _ (List.filter isLocal) rfl fun _ _ => List.filter_append ..]
  refine gather_congr fun line _ => ?_
  cases hfound : rule line with
  | error fault => rfl
  | ok found =>
    have htold := (h rule hrule line.number line).told found hfound
    refine congrArg Except.ok (List.filter_eq_self.2 fun v hv => ?_)
    exact bne_iff_ne.2 (htold v hv).1

theorem applyRules_singleton (rule : Line → Except Fault (List Violation)) (lines : List Line) :
    applyRules [rule] lines = gather rule lines := by
  unfold applyRules
  cases hfound : gather rule lines with
  | error fault => exact gather_cons_error _ rule fault [] hfound
  | ok found =>
    rw [gather_cons_ok (fun rule => gather rule lines) rule found [] hfound]
    exact congrArg Except.ok (List.append_nil found)

theorem local_blankLines (t : Tree) :
    (blankLines t).filter isLocal = (t.beneath.map Node.toLine).flatMap whitespaceLine := by
  rw [blankLines_eq]
  generalize t.beneath.map Node.toLine = lines
  suffices h : ∀ last blanks, (blankRuns last blanks lines).filter isLocal = lines.flatMap whitespaceLine from
    h t.root.toLine 0
  induction lines with
  | nil =>
    intro last blanks
    rw [blankRuns]
    split <;> rfl
  | cons line rest ih =>
    intro last blanks
    have hown : (whitespaceLine line).filter isLocal = whitespaceLine line := by
      unfold whitespaceLine
      split <;> rfl
    have hrun : (if line.tokens.isEmpty then blankRuns line (blanks + 1) rest
        else (if 2 ≤ blanks then [.ofLine line .multipleBlankLines 0] else []) ++
          blankRuns line 0 rest).filter isLocal = rest.flatMap whitespaceLine := by
      split
      · exact ih line (blanks + 1)
      · rw [List.filter_append, ih line 0]
        split <;> rfl
    rw [blankRuns, List.filter_append, hrun, List.flatMap_cons]
    exact congrArg (· ++ rest.flatMap whitespaceLine) hown

theorem run_eq_applyRules (check : Check) (s : Settings) (t : Tree) (h : check ≠ .blankLines) :
    check.run s t = applyRules (check.lineRules s) (t.beneath.map Node.toLine) := by
  cases check with
  | indentation => exact (applyRules_singleton _ _).symm
  | keywordCase => exact (applyRules_singleton _ _).symm
  | commas =>
    rw [Check.lineRules, applyRules_singleton, gather_pure]
    rfl
  | spacing =>
    rw [Check.lineRules, applyRules, gather_map]
    simp only [gather_pure]
    rfl
  | joins =>
    rw [Check.lineRules, applyRules, Check.run]
    simp only [gather, gather_pure]
    cases gather (fun line => gather (joinTable line) (Lint.joins line)) (t.beneath.map Node.toLine) with
    | error fault => rfl
    | ok found => simp [bind, Except.bind, pure, Except.pure]
  | blankLines => exact absurd rfl h

/-- A check is made line by line, but for the findings on runs of blank lines. -/
theorem local_run (check : Check) (s : Settings) (t : Tree) :
    (check.run s t).map (List.filter isLocal) =
      applyRules (check.lineRules s) (t.beneath.map Node.toLine) := by
  by_cases hblank : check = .blankLines
  · subst hblank
    rw [Check.lineRules, applyRules_singleton, gather_pure]
    exact congrArg Except.ok (local_blankLines t)
  · rw [run_eq_applyRules check s t hblank]
    exact local_applyRules (check.lineRules s) (t.beneath.map Node.toLine) (isLineRule check s)

def lineRules (s : Settings) : List (Line → Except Fault (List Violation)) :=
  checks.flatMap fun check => check.lineRules s

theorem isLineRule_of_mem (s : Settings) : ∀ rule ∈ lineRules s, IsLineRule rule := by
  intro rule hrule
  obtain ⟨check, -, hrule⟩ := List.mem_flatMap.1 hrule
  exact isLineRule check s rule hrule

/-- The findings on a tree, but for those on runs of blank lines, are found line by line: they depend on
neither the nesting of the lines nor on the lines around. -/
theorem local_findings (s : Settings) (t : Tree) :
    (findings s t).map (List.filter isLocal) =
      applyRules (lineRules s) (t.beneath.map Node.toLine) := by
  rw [findings, map_gather _ (List.filter isLocal) rfl fun _ _ => List.filter_append ..]
  rw [gather_congr fun check _ => local_run check s t]
  exact (gather_flatMap _ _ _).symm

/-- Everything that is found can be reported. -/
theorem text_of_mem_findings (s : Settings) (t : Tree) (found : List Violation)
    (h : findings s t = .ok found) : ∀ v ∈ found, ∃ text, v.text = .ok text := by
  intro v hv
  cases hlocal : isLocal v with
  | false =>
    have hcode : v.code = .multipleBlankLines := by simpa [isLocal] using hlocal
    obtain ⟨code, line, column, details⟩ := v
    obtain rfl : code = .multipleBlankLines := hcode
    exact ⟨_, rfl⟩
  | true =>
    have hfound := local_findings s t
    rw [h] at hfound
    obtain ⟨rule, hrule, some, hsome, hv⟩ :=
      mem_gather _ hfound.symm v (List.mem_filter.2 ⟨hv, hlocal⟩)
    obtain ⟨line, -, own, hown, hv⟩ := mem_gather _ hsome v hv
    exact ((isLineRule_of_mem s rule hrule line.number line).told own hown v hv).2

end SqlStyle.Lint
