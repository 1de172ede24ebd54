import SqlStyle.Clause.Rules

/-! Splitting makes progress: the line is no longer than the run it is taken from, and the runs below
and after it are shorter (`split_fits`, `splitLong_fits`). So breaking a run into lines comes to an
end. -/
namespace SqlStyle.Clause
set_option autoImplicit false

/-- The line has at most `n` tokens, and every run below or after it has fewer. -/
structure Split.Fits (n : Nat) (s : Split) : Prop where
  own : s.own.length ≤ n
  children : ∀ c ∈ s.children, c.length < n
  sibling : s.sibling.length < n

theorem Split.whole_fits (t : Token) (ts : List Token) :
    (Split.whole (t :: ts)).Fits (t :: ts).length :=
  ⟨Nat.le_refl _, by simp [Split.whole], by simp [Split.whole]⟩

theorem Split.after_fits (n : Nat) (t : Token) (ts : List Token) :
    (Split.after (n + 1) (t :: ts)).Fits (t :: ts).length := by
  refine ⟨?_, by simp [Split.after], ?_⟩
  · simp only [Split.after, List.length_take]
    omega
  · simp only [Split.after, List.length_drop, List.length_cons]
    omega

theorem Cut.Divides.fits {ts : List Token} {cut : Cut} (h : cut.Divides ts) (t : Token) :
    Split.Fits (t :: ts).length { own := [t] ++ cut.1, sibling := cut.2 } := by
  have he := congrArg List.length h.1
  simp only [List.length_append] at he
  refine ⟨?_, by simp, ?_⟩ <;> simp <;> omega

/-! ## Runs that begin with no keyword -/

theorem splitOther_fits (t : Token) (ts : List Token) :
    (splitOther (t :: ts)).Fits (t :: ts).length := by
  unfold splitOther
  split
  · next before rest h =>
    have hc := cutTop_divides _ _ _ _ h
    have hl := List.length_pos_iff.2 hc.2
    have he := congrArg List.length hc.1
    simp only [List.length_append, List.length_cons] at hl he
    refine ⟨?_, by simp, ?_⟩ <;> simp <;> omega
  · exact Split.whole_fits t ts

theorem splitTables_fits (t : Token) (ts : List Token) (ht : t.kind ≠ .keyword) :
    (splitTables (t :: ts)).Fits (t :: ts).length := by
  unfold splitTables
  split
  · next before rest h =>
    have hc := cutTop_divides _ _ _ _ h
    have hp : t.isKeywordOf joinWords = false := Token.isKeywordOf_of_kind_ne joinWords t ht
    have hn : before ≠ [] := cutTop_cons_of_not _ 0 t ts _ hp h
    have hl := List.length_pos_iff.2 hn
    have he := congrArg List.length hc.1
    simp only [List.length_append, List.length_cons] at hl he
    refine ⟨?_, by simp, ?_⟩ <;> simp <;> omega
  · exact splitOther_fits t ts

theorem splitRightBracket_fits (depth : Int) (t : Token) (ts : List Token) :
    (splitRightBracket depth (t :: ts)).Fits (t :: ts).length := by
  unfold splitRightBracket
  split
  · exact Split.after_fits 1 t ts
  · split
    · exact Split.after_fits 0 t ts
    · exact Split.whole_fits t ts

theorem splitItem_fits (t : Token) (ts : List Token) :
    (splitItem (t :: ts)).Fits (t :: ts).length := by
  unfold splitItem
  split
  · next before rest h => exact (cutTop_divides _ _ _ _ h).fits t
  · exact Split.whole_fits t ts

/-! ## Table expressions -/

theorem splitBody_fits (n : Nat) (head body : List Token) (missing : Split) (hh : head ≠ [])
    (hn : head.length + body.length ≤ n) (hm : missing.Fits n) :
    (splitBody head body missing).Fits n := by
  have hl := List.length_pos_iff.2 hh
  obtain ⟨inside, rest, hc, hs⟩ | hs := splitBody_cases head body missing
  · have he := congrArg List.length (cutClose_divides _ _ hc).1
    simp only [List.length_append] at he
    rw [hs]
    refine ⟨?_, ?_, ?_⟩
    · simp only
      omega
    · intro c hm
      rw [List.mem_singleton] at hm
      subst hm
      omega
    · simp only
      omega
  · rw [hs]
    exact hm

theorem splitTableExpression_fits (t : Token) (ts : List Token) (s : Split)
    (h : splitTableExpression (t :: ts) = .ok s) : s.Fits (t :: ts).length := by
  obtain rfl | rfl | ⟨head, name, as, bracket, body, he, -, -, -, -, rfl⟩ :=
    splitTableExpression_cases (t :: ts) s h
  · exact Split.whole_fits t ts
  · exact Split.after_fits 1 t ts
  · refine splitBody_fits _ _ _ _ (by simp) ?_ (Split.after_fits 0 t ts)
    rw [he]
    simp only [List.length_cons, List.length_nil]
    omega

theorem length_nameAfterWith (ts : List Token) : (nameAfterWith ts).length = ts.length := by
  unfold nameAfterWith
  split
  · split <;> rfl
  · rfl

theorem splitWith_fits (t : Token) (ts : List Token) (s : Split)
    (h : splitWith (t :: ts) = .ok s) : s.Fits (t :: ts).length := by
  obtain rfl | rfl | ⟨head, name, as, bracket, body, he, -, -, -, hs⟩ := splitWith_cases (t :: ts) s h
  · exact Split.whole_fits t ts
  · exact Split.after_fits 1 t ts
  · rw [he]
    obtain ⟨inside, rest, hc, rfl⟩ | rfl := hs
    · have hd := cutClose_divides _ _ hc
      have hp := List.length_pos_iff.2 hd.2
      have hl := congrArg List.length hd.1
      simp only [List.length_append] at hl hp
      refine ⟨by simp, ?_, ?_⟩
      · intro c hm
        rw [List.mem_singleton] at hm
        subst hm
        simp only [List.length_append, List.length_take, List.length_cons]
        omega
      · simp only [List.length_drop, List.length_cons]
        omega
    · refine ⟨by simp, ?_, by simp⟩
      intro c hm
      rw [List.mem_singleton] at hm
      subst hm
      simp

theorem splitAs_fits (t : Token) (ts : List Token) : (splitAs (t :: ts)).Fits (t :: ts).length := by
  obtain hs | hs | ⟨head, bracket, body, he, -, hs⟩ := splitAs_cases (t :: ts)
  · rw [hs]
    exact Split.whole_fits t ts
  · rw [hs]
    exact Split.after_fits 1 t ts
  · rw [hs]
    refine splitBody_fits _ _ _ _ (by simp) ?_ (Split.after_fits 1 t ts)
    rw [he]
    simp only [List.length_cons, List.length_nil]
    omega

/-! ## Clauses -/

theorem splitDefinition_fits (stops : List String) (t : Token) (ts : List Token) :
    (splitDefinition stops (t :: ts)).Fits (t :: ts).length := by
  unfold splitDefinition
  split
  · next before rest h => exact (cutBefore_divides _ _ _ h).fits t
  · exact Split.after_fits 0 t ts

theorem splitSelect_fits (t : Token) (ts : List Token) :
    (splitSelect (t :: ts)).Fits (t :: ts).length := by
  unfold splitSelect
  split
  · next before rest h =>
    have he := congrArg List.length (cutClause_divides _ _ _ _ h).1
    simp only [List.length_append, List.drop_one, List.tail_cons] at he
    refine ⟨by simp, ?_, ?_⟩
    · intro c hc
      have := length_le_of_mem_items before c hc
      simp only [List.length_cons]
      omega
    · simp only [List.length_cons]
      omega
  · exact ⟨by simp, by simp, by simp⟩

theorem splitCondition_fits (own : String) (others : List String) (t : Token) (ts : List Token) :
    (splitCondition own others (t :: ts)).Fits (t :: ts).length := by
  unfold splitCondition
  split
  · next before rest h =>
    have he := congrArg List.length (cutClause_divides _ _ _ _ h).1
    simp only [List.length_append, List.drop_one, List.tail_cons] at he
    refine ⟨by simp, ?_, ?_⟩
    · intro c hc
      have := length_le_of_mem_terms before c hc
      simp only [List.length_cons]
      omega
    · simp only [List.length_cons]
      omega
  · refine ⟨by simp, ?_, by simp⟩
    intro c hc
    have := length_le_of_mem_terms _ c hc
    simp only [List.drop_one, List.tail_cons, List.length_cons] at this ⊢
    omega

theorem kept_fits (kept : Nat) (t : Token) (ts before rest : List Token) (h : before ++ rest = ts) :
    Split.Fits (t :: ts).length
      { own := (t :: ts).take (1 + kept), children := [before.drop kept], sibling := rest } := by
  have he := congrArg List.length h
  simp only [List.length_append] at he
  refine ⟨?_, ?_, ?_⟩
  · simp only [List.length_take]
    omega
  · intro c hc
    rw [List.mem_singleton] at hc
    subst hc
    simp only [List.length_drop, List.length_cons]
    omega
  · simp only [List.length_cons]
    omega

theorem splitFrom_fits (t : Token) (ts : List Token) :
    (splitFrom (t :: ts)).Fits (t :: ts).length := by
  unfold splitFrom
  split
  · next before rest h => exact kept_fits _ t ts before rest (cutClause_divides _ _ _ _ h).1
  · exact ⟨by simp, by simp, by simp⟩

theorem splitKeys_fits (own : String) (t : Token) (ts : List Token) :
    (splitKeys own (t :: ts)).Fits (t :: ts).length := by
  unfold splitKeys
  split
  · next before rest h => exact kept_fits _ t ts before rest (cutClause_divides _ _ _ _ h).1
  · refine ⟨?_, ?_, by simp⟩
    · simp only [List.length_take]
      omega
    · intro c hc
      rw [List.mem_singleton] at hc
      subst hc
      simp only [List.length_drop, List.length_cons]
      omega

theorem splitLimit_fits (t : Token) (ts : List Token) :
    (splitLimit (t :: ts)).Fits (t :: ts).length :=
  ⟨by simp [splitLimit], by simp [splitLimit], by simp [splitLimit]⟩

/-! ## Cases -/

theorem splitCase_fits (t : Token) (ts : List Token) (s : Split) (ht : t.key ≠ "WHEN")
    (h : splitCase (t :: ts) = .ok s) : s.Fits (t :: ts).length := by
  obtain ⟨own, branches, hc, hs⟩ := splitCase_cases (t :: ts) s h
  have hw : t.isKeyword "WHEN" = false := Token.isKeyword_of_key_ne ht
  have hl := List.length_pos_iff.2 (cutFirst_cons_of_not _ t ts _ hw hc)
  have he := congrArg List.length (cutFirst_divides _ _ _ hc).1
  simp only [List.length_append] at he hl
  obtain ⟨before, rest, hb, rfl⟩ | rfl := hs
  · have hr := congrArg List.length hb
    simp only [List.length_append] at hr
    refine ⟨?_, ?_, ?_⟩
    · simp only
      omega
    · intro c hm
      rw [List.mem_singleton] at hm
      subst hm
      omega
    · simp only
      omega
  · refine ⟨?_, ?_, by simp⟩
    · simp only
      omega
    · intro c hm
      rw [List.mem_singleton] at hm
      subst hm
      omega

theorem splitWhen_fits (t : Token) (ts : List Token) :
    (splitWhen (t :: ts)).Fits (t :: ts).length := by
  unfold splitWhen
  split
  · next before rest h => exact (cutWhen_divides _ _ _ _ h).fits t
  · exact Split.whole_fits t ts

/-! ## Joins -/

theorem length_le_of_mem_joinTerms (ts part : List Token) (parts : List (List Token))
    (h : joinTerms ts = .ok parts) (hp : part ∈ parts) : part.length ≤ ts.length := by
  unfold joinTerms at h
  split at h
  · cases h
  · cases h
    split at hp
    · exact length_le_of_mem_terms _ _ hp
    · rw [List.mem_singleton] at hp
      subst hp
      exact Nat.le_refl _

theorem splitJoined_fits (n : Nat) (head joined next : List Token) (s : Split) (hh : head ≠ [])
    (hn : (head ++ joined ++ next).length ≤ n)
    (h : splitJoined head joined next = .ok s) : s.Fits n := by
  have hl := List.length_pos_iff.2 hh
  simp only [List.length_append] at hn
  obtain ⟨table, condition, parts, hc, hj, rfl⟩ | rfl := splitJoined_cases head joined next s h
  · have he := congrArg List.length (cutLast_divides _ _ _ _ hc).1
    simp only [List.length_append] at he
    refine ⟨?_, ?_, ?_⟩
    · simp only [List.length_append]
      omega
    · intro c hm
      have := length_le_of_mem_joinTerms _ _ _ hj hm
      omega
    · simp only
      omega
  · refine ⟨?_, by simp, ?_⟩
    · simp only [List.length_append]
      omega
    · simp only
      omega

theorem splitJoin_fits (ts : List Token) (s : Split) (h : splitJoin ts = .ok s) :
    s.Fits ts.length := by
  obtain ⟨head, joined, next, hh, rfl, hs⟩ := splitJoin_cases ts s h
  exact splitJoined_fits _ head joined next s hh (Nat.le_refl _) hs

/-! ## All runs -/

theorem Rule.fits {place : Place} {t : Token} {ts : List Token} {s : Split} (h : Rule place t ts s) :
    s.Fits (t :: ts).length := by
  cases h with
  | definition stops => exact splitDefinition_fits stops t ts
  | named => exact splitAs_fits t ts
  | firstTable _ _ h => exact splitWith_fits t ts s h
  | select => exact splitSelect_fits t ts
  | tables => exact splitFrom_fits t ts
  | condition own others => exact splitCondition_fits own others t ts
  | keys own => exact splitKeys_fits own t ts
  | limit => exact splitLimit_fits t ts
  | branches _ _ hw h => exact splitCase_fits t ts s (by rw [hw]; decide) h
  | branch => exact splitWhen_fits t ts
  | join _ _ _ h => exact splitJoin_fits (t :: ts) s h
  | word => exact Split.whole_fits t ts
  | furtherTable _ _ h => exact splitTableExpression_fits t ts s h
  | item => exact splitItem_fits t ts
  | table hk => exact splitTables_fits t ts (by rw [hk]; decide)
  | other => exact splitOther_fits t ts
  | closing => exact splitRightBracket_fits place.depth t ts
  | alone => exact Split.after_fits 0 t ts

theorem split_fits (place : Place) (ts : List Token) (s : Split) (hne : ts ≠ [])
    (h : split place ts = .ok s) : s.Fits ts.length := by
  match ts, hne with
  | t :: ts, _ =>
    obtain ⟨rest, hn, hr⟩ := split_rule place t ts s h
    have hl := length_nameAfterWith (t :: ts)
    rw [hn] at hl
    exact hl ▸ hr.fits

/-! ## Lines that are too long -/

theorem splitLongBrackets_fits (t : Token) (ts : List Token) :
    (splitLongBrackets (t :: ts)).Fits (t :: ts).length := by
  obtain hw | ⟨before, left, inside, right, after, he, -, -, hs⟩ := splitLongBrackets_cases (t :: ts)
  · rw [hw]
    exact Split.whole_fits t ts
  · rw [hs, ← he]
    simp only [List.length_append, List.length_cons]
    refine ⟨?_, ?_, ?_⟩
    · simp
    · intro c hm
      have := length_le_of_mem_items _ _ hm
      omega
    · simp only [List.length_cons]
      omega

theorem splitLong_fits (ts : List Token) (s : Split) (h : splitLong ts = .ok s) :
    s.Fits ts.length := by
  match ts with
  | [] => cases h
  | t :: ts =>
    obtain ⟨-, before, mark, rest, he, -, rfl⟩ | ⟨-, rfl⟩ := splitLong_cases t ts s h
    · rw [← he]
      simp only [List.length_append, List.length_cons]
      refine ⟨?_, ?_, ?_⟩
      · simp
      · intro c hm
        have := length_le_of_mem_terms _ _ hm
        omega
      · simp only [List.length_nil]
        omega
    · exact splitLongBrackets_fits t ts

end SqlStyle.Clause
