import SqlStyle.Token

/-! Cutting a list of tokens in two, at a token that is found by looking at the tokens one by one and
at the brackets passed on the way. What is cut can be put together again, and the second part begins
with the token that was looked for, so it is not empty (`Cut.Divides`). -/
namespace SqlStyle.Clause
set_option autoImplicit false

abbrev Cut := List Token × List Token

def Cut.cons (t : Token) (cut : Cut) : Cut :=
  (t :: cut.1, cut.2)

/-! ## Cuts -/

/-- Cut before the first token with the property `p`. -/
def cutFirst (p : Token → Bool) : List Token → Option Cut
  | [] => none
  | t :: ts => if p t then some ([], t :: ts) else (cutFirst p ts).map (Cut.cons t)

/-- Cut before the first token with the property `p` at which no bracket is open, if `depth` brackets
are open at the start. A bracket is counted before its token is looked at. -/
def cutTop (p : Token → Bool) (depth : Int) : List Token → Option Cut
  | [] => none
  | t :: ts =>
    if depth + t.level = 0 ∧ p t then some ([], t :: ts)
    else (cutTop p (depth + t.level) ts).map (Cut.cons t)

/-- Cut before the last token with the property `p` at which no bracket is open, if `depth` brackets
are open at the start. -/
def cutLast (p : Token → Bool) (depth : Int) : List Token → Option Cut
  | [] => none
  | t :: ts =>
    match cutLast p (depth + t.level) ts with
    | some cut => some (cut.cons t)
    | none => if depth + t.level = 0 ∧ p t then some ([], t :: ts) else none

/-- Cut before the bracket that closes the one open at the start. -/
def cutClose (ts : List Token) : Option Cut :=
  cutTop (fun _ => true) 1 ts

/-- Cut before the first of the keywords `stops` outside all brackets, unless the keyword `own`, which
begins the clause, stands there again before it. -/
def cutClause (own : String) (stops : List String) (ts : List Token) : Option Cut :=
  (cutTop (fun t => t.isKeyword own || t.isKeywordOf stops) 0 ts).filter fun cut =>
    !cut.2.head?.any fun t => t.isKeyword own

/-- How a token changes the number of open cases. -/
def caseLevel (t : Token) : Int :=
  (if t.isKeyword "CASE" then 1 else 0) - (if t.isKeyword "END" then 1 else 0)

/-- How a token changes the number of open cases, if it stands outside all brackets. -/
def topCaseLevel (depth : Int) (t : Token) : Int :=
  if depth = 0 then caseLevel t else 0

/-- Cut before the next keyword `WHEN` outside all brackets and outside the cases that begin on the
way, if `depth` brackets and `cases` cases are open at the start. -/
def cutWhen (depth cases : Int) : List Token → Option Cut
  | [] => none
  | t :: ts =>
    let depth := depth + t.level
    let cases := cases + topCaseLevel depth t
    if t.isKeyword "WHEN" ∧ cases ≤ 1 ∧ depth = 0 then some ([], t :: ts)
    else (cutWhen depth cases ts).map (Cut.cons t)

/-- Cut before the first of the keywords `stops` that is found, in the order of the list, before the
last token. -/
def cutBefore (stops : List String) (ts : List Token) : Option Cut :=
  stops.findSome? fun w => (cutFirst (fun t => t.isKeyword w) ts).filter fun cut => 1 < cut.2.length

/-! ## What is cut can be put together again -/

/-- The cut divides the list `ts`, and its second part is not empty. -/
def Cut.Divides (ts : List Token) (cut : Cut) : Prop :=
  cut.1 ++ cut.2 = ts ∧ cut.2 ≠ []

theorem Cut.Divides.cons {ts : List Token} {cut : Cut} (t : Token) (h : cut.Divides ts) :
    (cut.cons t).Divides (t :: ts) :=
  ⟨congrArg (t :: ·) h.1, h.2⟩

theorem Cut.divides_start (t : Token) (ts : List Token) : Cut.Divides (t :: ts) ([], t :: ts) :=
  ⟨rfl, List.cons_ne_nil t ts⟩

theorem Cut.Divides.length_le {ts : List Token} {cut : Cut} (h : cut.Divides ts) :
    cut.2.length ≤ ts.length := by
  rw [← h.1, List.length_append]
  omega

theorem cutFirst_divides (p : Token → Bool) (ts : List Token) (cut : Cut)
    (h : cutFirst p ts = some cut) : cut.Divides ts := by
  induction ts generalizing cut with
  | nil => simp [cutFirst] at h
  | cons t ts ih =>
    simp only [cutFirst] at h
    split at h
    · cases h
      exact Cut.divides_start t ts
    · obtain ⟨inner, hi, rfl⟩ := Option.map_eq_some_iff.1 h
      exact (ih inner hi).cons t

theorem cutTop_divides (p : Token → Bool) (depth : Int) (ts : List Token) (cut : Cut)
    (h : cutTop p depth ts = some cut) : cut.Divides ts := by
  induction ts generalizing depth cut with
  | nil => simp [cutTop] at h
  | cons t ts ih =>
    simp only [cutTop] at h
    split at h
    · cases h
      exact Cut.divides_start t ts
    · obtain ⟨inner, hi, rfl⟩ := Option.map_eq_some_iff.1 h
      exact (ih _ inner hi).cons t

theorem cutLast_divides (p : Token → Bool) (depth : Int) (ts : List Token) (cut : Cut)
    (h : cutLast p depth ts = some cut) : cut.Divides ts := by
  induction ts generalizing depth cut with
  | nil => simp [cutLast] at h
  | cons t ts ih =>
    simp only [cutLast] at h
    split at h
    · next inner hi =>
      cases h
      exact (ih _ inner hi).cons t
    · split at h
      · cases h
        exact Cut.divides_start t ts
      · simp at h

theorem cutClose_divides (ts : List Token) (cut : Cut) (h : cutClose ts = some cut) :
    cut.Divides ts :=
  cutTop_divides _ 1 ts cut h

theorem cutClause_divides (own : String) (stops : List String) (ts : List Token) (cut : Cut)
    (h : cutClause own stops ts = some cut) : cut.Divides ts :=
  cutTop_divides _ 0 ts cut (Option.filter_eq_some_iff.1 h).1

theorem cutWhen_divides (depth cases : Int) (ts : List Token) (cut : Cut)
    (h : cutWhen depth cases ts = some cut) : cut.Divides ts := by
  induction ts generalizing depth cases cut with
  | nil => simp [cutWhen] at h
  | cons t ts ih =>
    simp only [cutWhen] at h
    split at h
    · cases h
      exact Cut.divides_start t ts
    · obtain ⟨inner, hi, rfl⟩ := Option.map_eq_some_iff.1 h
      exact (ih _ _ inner hi).cons t

theorem cutBefore_divides (stops : List String) (ts : List Token) (cut : Cut)
    (h : cutBefore stops ts = some cut) : cut.Divides ts := by
  obtain ⟨w, -, hw⟩ := List.exists_of_findSome?_eq_some h
  exact cutFirst_divides _ ts cut (Option.filter_eq_some_iff.1 hw).1

end SqlStyle.Clause
