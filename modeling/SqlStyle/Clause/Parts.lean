import SqlStyle.Clause.Cut

/-! Cutting a list of tokens into parts: the items of a list at its commas, and the terms of a condition
at its connectives. No part is longer than the list (`length_le_of_mem_items`,
`length_le_of_mem_terms`). -/
namespace SqlStyle.Clause
set_option autoImplicit false

/-! ## Items -/

/-- The items of a list, of which the first begins with the tokens `cur`, with `depth` brackets open. A
comma outside all brackets begins the next item. -/
def itemsFrom (depth : Int) (cur : List Token) : List Token → List (List Token)
  | [] => if cur.isEmpty then [] else [cur]
  | t :: ts =>
    if t.kind = .comma ∧ depth + t.level = 0 then cur :: itemsFrom (depth + t.level) [t] ts
    else itemsFrom (depth + t.level) (cur ++ [t]) ts

def items (ts : List Token) : List (List Token) :=
  itemsFrom 0 [] ts

/-! ## Terms -/

/-- The terms of a condition, of which the first begins with the tokens `cur`, with `depth` brackets
and `cases` cases open, and a `BETWEEN` that still waits for its `AND` if `pending`. A connective
begins the next term, and a comment is a term of its own. A last term of one token is left out. -/
def termsFrom (depth cases : Int) (pending : Bool) (cur : List Token) :
    List Token → List (List Token)
  | [] => if 1 < cur.length then [cur] else []
  | t :: ts =>
    let depth := depth + t.level
    if 0 < depth then termsFrom depth cases pending (cur ++ [t]) ts
    else if t.kind = .comment ∧ cases = 0 then cur :: [t] :: termsFrom depth cases pending [] ts
    else
      let cases := cases + caseLevel t
      let pending := pending || t.isKeyword "BETWEEN"
      if t.isKeyword "AND" ∧ pending then termsFrom depth cases false (cur ++ [t]) ts
      else if t.isKeywordOf ["AND", "OR"] ∧ cases = 0 ∧ !pending then
        cur :: termsFrom depth cases pending [t] ts
      else termsFrom depth cases pending (cur ++ [t]) ts

def terms (ts : List Token) : List (List Token) :=
  termsFrom 0 0 false [] ts

/-! ## No part is longer than the list -/

theorem length_le_of_mem_itemsFrom (depth : Int) (cur ts part : List Token)
    (h : part ∈ itemsFrom depth cur ts) : part.length ≤ cur.length + ts.length := by
  induction ts generalizing depth cur with
  | nil =>
    simp only [itemsFrom] at h
    split at h
    · simp at h
    · rw [List.mem_singleton] at h
      simp [h]
  | cons t ts ih =>
    simp only [itemsFrom] at h
    split at h
    · rcases List.mem_cons.1 h with rfl | h
      · omega
      · have := ih _ _ h
        simp only [List.length_cons, List.length_nil] at this ⊢
        omega
    · have := ih _ _ h
      simp only [List.length_append, List.length_cons, List.length_nil] at this ⊢
      omega

theorem length_le_of_mem_items (ts part : List Token) (h : part ∈ items ts) :
    part.length ≤ ts.length := by
  have := length_le_of_mem_itemsFrom 0 [] ts part h
  simpa using this

theorem length_le_of_mem_termsFrom (depth cases : Int) (pending : Bool) (cur ts part : List Token)
    (h : part ∈ termsFrom depth cases pending cur ts) : part.length ≤ cur.length + ts.length := by
  induction ts generalizing depth cases pending cur with
  | nil =>
    simp only [termsFrom] at h
    split at h
    · rw [List.mem_singleton] at h
      simp [h]
    · simp at h
  | cons t ts ih =>
    have grown (d c : Int) (b : Bool) (h : part ∈ termsFrom d c b (cur ++ [t]) ts) :
        part.length ≤ cur.length + (t :: ts).length := by
      have := ih d c b _ h
      simp only [List.length_append, List.length_cons, List.length_nil] at this ⊢
      omega
    simp only [termsFrom] at h
    split at h
    · exact grown _ _ _ h
    · split at h
      · rcases List.mem_cons.1 h with rfl | h
        · omega
        · rcases List.mem_cons.1 h with rfl | h
          · simp only [List.length_cons, List.length_nil]
            omega
          · have := ih _ _ _ _ h
            simp only [List.length_cons, List.length_nil] at this ⊢
            omega
      · split at h
        · exact grown _ _ _ h
        · split at h
          · rcases List.mem_cons.1 h with rfl | h
            · omega
            · have := ih _ _ _ _ h
              simp only [List.length_cons, List.length_nil] at this ⊢
              omega
          · exact grown _ _ _ h

theorem length_le_of_mem_terms (ts part : List Token) (h : part ∈ terms ts) :
    part.length ≤ ts.length := by
  have := length_le_of_mem_termsFrom 0 0 false [] ts part h
  simpa using this

end SqlStyle.Clause
