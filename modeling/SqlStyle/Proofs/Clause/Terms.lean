import SqlStyle.Proofs.Clause.Partition

/-! The terms of a condition, put together again. A condition is read token by token: a token goes on with
the term before it, begins the next one, or is a comment that stands apart (`Progress.role`). The terms
hold every token in order, but for one case: a last term of one token is left out
(`flatten_terms_eq_iff`). -/
namespace SqlStyle.Clause
set_option autoImplicit false

/-! ## Reading a condition -/

/-- How far a condition is read: the brackets and the cases that are open, and whether a `BETWEEN` waits
for its `AND`. -/
structure Progress where
  depth : Int := 0
  cases : Int := 0
  pending : Bool := false
deriving DecidableEq, Repr

inductive Role where
  | continues
  | begins
  | aside
deriving DecidableEq, Repr

namespace Progress

/-- What the next token is: inside brackets it goes on with its term; outside of them a comment stands
apart and a connective begins a term, unless a case is open or the connective belongs to `BETWEEN`. -/
def role (p : Progress) (t : Token) : Role :=
  if 0 < p.depth + t.level ∨ p.cases ≠ 0 then .continues
  else if t.kind = .comment then .aside
  else if t.isKeywordOf ["AND", "OR"] ∧ !p.pending then .begins
  else .continues

def next (p : Progress) (t : Token) : Progress :=
  if 0 < p.depth + t.level then { p with depth := p.depth + t.level }
  else
    ⟨p.depth + t.level, p.cases + caseLevel t,
      (p.pending || t.isKeyword "BETWEEN") && !t.isKeyword "AND"⟩

def after (p : Progress) (ts : List Token) : Progress :=
  ts.foldl next p

end Progress

def roleBehind (before : List Token) (t : Token) : Role :=
  (Progress.after {} before).role t

/-! ## One token -/

theorem isKeyword_of_ne {v w : String} {t : Token} (h : t.isKeyword v = true) (hne : v ≠ w) :
    t.isKeyword w = false := by
  apply Token.isKeyword_of_key_ne
  intro hw
  rw [Token.isKeyword, hw, Bool.and_eq_true, beq_iff_eq] at h
  exact hne h.1.symm

theorem connective_neutral {t : Token} (h : t.isKeywordOf ["AND", "OR"] = true) :
    caseLevel t = 0 ∧ t.isKeyword "BETWEEN" = false := by
  have hor : t.isKeyword "AND" = true ∨ t.isKeyword "OR" = true := by
    simpa [Token.isKeywordOf] using h
  have hother (w : String) (hand : "AND" ≠ w) (hor' : "OR" ≠ w) : t.isKeyword w = false := by
    rcases hor with ht | ht
    · exact isKeyword_of_ne ht hand
    · exact isKeyword_of_ne ht hor'
  refine ⟨?_, hother "BETWEEN" (by decide) (by decide)⟩
  simp [caseLevel, hother "CASE" (by decide) (by decide), hother "END" (by decide) (by decide)]

theorem caseLevel_of_comment {t : Token} (h : t.kind = .comment) :
    caseLevel t = 0 ∧ t.isKeyword "BETWEEN" = false ∧ t.isKeyword "AND" = false := by
  simp [caseLevel, Token.isKeyword, h]

theorem kind_of_aside {p : Progress} {t : Token} (h : p.role t = .aside) : t.kind = .comment := by
  unfold Progress.role at h
  split at h
  · cases h
  · split at h
    · assumption
    · split at h <;> cases h

/-- The terms that are complete once a token with the given role is read, if the tokens `cur` are read of
the term before it. -/
def Role.closes (r : Role) (cur : List Token) (t : Token) : List (List Token) :=
  match r with
  | .continues => []
  | .begins => [cur]
  | .aside => [cur, [t]]

/-- The tokens of the term that is open once a token with the given role is read. -/
def Role.opens (r : Role) (cur : List Token) (t : Token) : List Token :=
  match r with
  | .continues => cur ++ [t]
  | .begins => [t]
  | .aside => []

theorem Role.flatten_closes (r : Role) (cur : List Token) (t : Token) :
    (r.closes cur t).flatten ++ r.opens cur t = cur ++ [t] := by
  cases r <;> simp [closes, opens]

namespace Progress

/-- The terms from a given progress on, of which the first begins with the tokens `cur`. -/
def terms (p : Progress) (cur ts : List Token) : List (List Token) :=
  termsFrom p.depth p.cases p.pending cur ts

theorem terms_cons (p : Progress) (cur : List Token) (t : Token) (ts : List Token) :
    p.terms cur (t :: ts) =
      (p.role t).closes cur t ++ (p.next t).terms ((p.role t).opens cur t) ts := by
  rw [terms, termsFrom]
  -- the cases are those of the recursion, which asks for the role and the progress at once
  by_cases hdepth : 0 < p.depth + t.level
  · simp [role, next, terms, hdepth, Role.closes, Role.opens]
  · by_cases hcomment : t.kind = .comment
    · obtain ⟨hlevel, hbetween, hand⟩ := caseLevel_of_comment hcomment
      have hconnective := Token.isKeywordOf_of_kind_ne ["AND", "OR"] t (by simp [hcomment])
      by_cases hcases : p.cases = 0
      · simp [role, next, terms, hdepth, hcomment, hcases, hlevel, hbetween, hand, Role.closes, Role.opens]
      · simp [role, next, terms, hdepth, hcases, hlevel, hbetween, hand, hconnective, Role.closes, Role.opens]
    · by_cases hconnective : t.isKeywordOf ["AND", "OR"] = true
      · obtain ⟨hlevel, hbetween⟩ := connective_neutral hconnective
        by_cases hcases : p.cases = 0 <;> cases hpending : p.pending <;>
          cases hand : t.isKeyword "AND" <;>
          simp [role, next, terms, hdepth, hcomment, hconnective, hlevel, hbetween, hcases, hpending,
            hand, Role.closes, Role.opens]
      · have hand : t.isKeyword "AND" = false := by
          simp only [Token.isKeywordOf, List.any_cons, Bool.or_eq_true, not_or] at hconnective
          exact Bool.eq_false_iff.2 hconnective.1
        simp [role, next, terms, hdepth, hcomment, hconnective, hand, Role.closes, Role.opens]

/-- The tokens of the last term, of which the tokens `cur` are read. -/
def openTerm (p : Progress) (cur : List Token) : List Token → List Token
  | [] => cur
  | t :: ts => (p.next t).openTerm ((p.role t).opens cur t) ts

/-- The terms and a last term of one token are the whole condition. -/
theorem flatten_terms (p : Progress) (cur ts : List Token) :
    (p.terms cur ts).flatten ++ (if 1 < (p.openTerm cur ts).length then [] else p.openTerm cur ts) =
      cur ++ ts := by
  induction ts generalizing p cur with
  | nil =>
    rw [terms, termsFrom, openTerm]
    split <;> simp
  | cons t ts ih =>
    calc (p.terms cur (t :: ts)).flatten ++ _
        = ((p.role t).closes cur t).flatten ++ ((p.role t).opens cur t ++ ts) := by
          rw [terms_cons, List.flatten_append, List.append_assoc, openTerm, ih]
      _ = cur ++ [t] ++ ts := by rw [← List.append_assoc, Role.flatten_closes]
      _ = cur ++ t :: ts := by rw [List.append_assoc, List.singleton_append]

theorem openTerm_concat (p : Progress) (cur ts : List Token) (t : Token) :
    p.openTerm cur (ts ++ [t]) = ((p.after ts).role t).opens (p.openTerm cur ts) t := by
  induction ts generalizing p cur with
  | nil => rfl
  | cons u ts ih => exact ih (p.next u) ((p.role u).opens cur u)

end Progress

/-! ## The last term -/

/-- What the last of the tokens is, if there is one. -/
def lastRole? (ts : List Token) : Option Role :=
  ts.getLast?.map (roleBehind ts.dropLast)

/-- The last of the tokens is a term of its own: a connective that begins a term, or a token that goes on
with a term of which nothing is there, as the first token of all or behind a comment that stands
apart. -/
def EndsAlone (ts : List Token) : Prop :=
  lastRole? ts = some .begins ∨
    (lastRole? ts = some .continues ∧ lastRole? ts.dropLast ∈ [none, some .aside])

instance (ts : List Token) : Decidable (EndsAlone ts) :=
  inferInstanceAs (Decidable (_ ∨ (_ ∧ _)))

theorem lastRole?_concat (before : List Token) (t : Token) :
    lastRole? (before ++ [t]) = some (roleBehind before t) := by
  rw [lastRole?, List.getLast?_concat, List.dropLast_concat, Option.map_some]

theorem Role.opens_eq_nil_iff (r : Role) (cur : List Token) (t : Token) :
    r.opens cur t = [] ↔ r = .aside := by
  cases r <;> simp [opens]

theorem Role.length_opens_iff (r : Role) (cur : List Token) (t : Token) :
    (r.opens cur t).length = 1 ↔ r = .begins ∨ (r = .continues ∧ cur = []) := by
  cases r <;> simp [opens]

theorem openTerm_eq_nil_iff (ts : List Token) :
    Progress.openTerm {} [] ts = [] ↔ lastRole? ts ∈ [none, some .aside] := by
  rcases List.eq_nil_or_concat ts with rfl | ⟨before, t, rfl⟩
  · simp [Progress.openTerm, lastRole?]
  · rw [List.concat_eq_append, Progress.openTerm_concat, Role.opens_eq_nil_iff, lastRole?_concat]
    simp [roleBehind]

theorem length_openTerm_iff (ts : List Token) :
    (Progress.openTerm {} [] ts).length = 1 ↔ EndsAlone ts := by
  rcases List.eq_nil_or_concat ts with rfl | ⟨before, t, rfl⟩
  · simp [Progress.openTerm, EndsAlone, lastRole?]
  · rw [List.concat_eq_append, Progress.openTerm_concat, Role.length_opens_iff, openTerm_eq_nil_iff,
      EndsAlone, lastRole?_concat, List.dropLast_concat, Option.some_inj, Option.some_inj]
    rfl

theorem flatten_terms_of_alone {ts : List Token} (h : EndsAlone ts) :
    ∃ t, (terms ts).flatten ++ [t] = ts := by
  obtain ⟨t, ht⟩ := List.length_eq_one_iff.1 ((length_openTerm_iff ts).2 h)
  have hflat := Progress.flatten_terms {} [] ts
  rw [ht] at hflat
  exact ⟨t, hflat⟩

theorem flatten_terms_of_not_alone {ts : List Token} (h : ¬ EndsAlone ts) : (terms ts).flatten = ts := by
  have hlength : (Progress.openTerm {} [] ts).length ≠ 1 := mt (length_openTerm_iff ts).1 h
  have hrest : (if 1 < (Progress.openTerm {} [] ts).length then [] else Progress.openTerm {} [] ts) = [] := by
    split
    · rfl
    · exact List.eq_nil_of_length_eq_zero (by omega)
  have hflat := Progress.flatten_terms {} [] ts
  rwa [hrest, List.append_nil] at hflat

/-- The terms of a condition hold all its tokens in order, unless the last token is a term of its own;
this token, and no other, is then lost. -/
theorem flatten_terms_eq_iff (ts : List Token) :
    (terms ts).flatten = (if EndsAlone ts then ts.dropLast else ts) ∧
      ((terms ts).flatten = ts ↔ ¬ EndsAlone ts) := by
  by_cases halone : EndsAlone ts
  · obtain ⟨t, ht⟩ := flatten_terms_of_alone halone
    have hlost : (terms ts).flatten = ts.dropLast := by
      conv => rhs; rw [← ht, List.dropLast_concat]
    have hne : (terms ts).flatten ≠ ts := by
      intro hall
      rw [hall] at ht
      simp at ht
    rw [if_pos halone]
    exact ⟨hlost, iff_of_false hne (not_not_intro halone)⟩
  · have hall := flatten_terms_of_not_alone halone
    rw [if_neg halone]
    exact ⟨hall, iff_of_true hall halone⟩

/-- A condition that is a name only is lost. -/
theorem flatten_terms_of_name :
    (terms [⟨.identifier, "flag", none⟩]).flatten ≠ [⟨.identifier, "flag", none⟩] := by
  decide

end SqlStyle.Clause
