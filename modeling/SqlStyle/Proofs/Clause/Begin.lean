import SqlStyle.Clause.Shrink

/-! The line of a split is the beginning of the run that is split, and it holds a token
(`split_begins`, `splitLong_begins`). The name behind `WITH` is relabelled before the run is split, so
the line is the beginning of the relabelled run. -/
namespace SqlStyle.Clause
set_option autoImplicit false

/-- The line of the split begins the run `ts` and holds a token. -/
structure Split.Begins (ts : List Token) (s : Split) : Prop where
  own_ne_nil : s.own ≠ []
  own_prefix : s.own <+: ts

theorem Split.Begins.exists_cons {t : Token} {ts : List Token} {s : Split} (h : s.Begins (t :: ts)) :
    ∃ us, s.own = t :: us := by
  obtain ⟨u, us, hown⟩ := List.exists_cons_of_ne_nil h.own_ne_nil
  obtain ⟨after, hafter⟩ := h.own_prefix
  rw [hown, List.cons_append] at hafter
  exact ⟨us, by rw [hown, (List.cons.inj hafter).1]⟩

theorem Split.whole_begins (t : Token) (ts : List Token) :
    (Split.whole (t :: ts)).Begins (t :: ts) :=
  ⟨List.cons_ne_nil t ts, List.prefix_rfl⟩

theorem Split.take_begins (n : Nat) (t : Token) (ts : List Token) (children : List (List Token))
    (sibling : List Token) :
    Split.Begins (t :: ts) ⟨(t :: ts).take (n + 1), children, sibling⟩ :=
  ⟨List.cons_ne_nil t _, List.take_prefix _ _⟩

theorem Split.after_begins (n : Nat) (t : Token) (ts : List Token) :
    (Split.after (n + 1) (t :: ts)).Begins (t :: ts) :=
  Split.take_begins n t ts [] _

theorem Split.cons_begins (t : Token) (ts : List Token) (cut : Cut) (h : cut.Divides ts) :
    Split.Begins (t :: ts) { own := (t :: ts).take 1 ++ cut.1, sibling := cut.2 } := by
  refine ⟨List.cons_ne_nil t cut.1, cut.2, ?_⟩
  rw [List.append_assoc, h.1]
  rfl

theorem Split.through_begins (ts : List Token) (cut : Cut) (children : List (List Token))
    (sibling : List Token) (h : cut.Divides ts) :
    Split.Begins ts ⟨cut.1 ++ cut.2.take 1, children, sibling⟩ := by
  refine ⟨?_, cut.2.drop 1, ?_⟩
  · intro hn
    have hlen := List.length_pos_iff.2 h.2
    have hzero := congrArg List.length hn
    simp only [List.length_append, List.length_take, List.length_nil] at hzero
    omega
  · rw [List.append_assoc, List.take_append_drop, h.1]

/-! ## Runs that begin with no keyword -/

theorem splitOther_begins (t : Token) (ts : List Token) : (splitOther (t :: ts)).Begins (t :: ts) := by
  unfold splitOther
  split
  · next before rest h => exact Split.through_begins _ (before, rest) _ _ (cutTop_divides _ _ _ _ h)
  · exact Split.whole_begins t ts

theorem splitTables_begins (t : Token) (ts : List Token) (ht : t.kind ≠ .keyword) :
    (splitTables (t :: ts)).Begins (t :: ts) := by
  unfold splitTables
  split
  · next before rest h =>
    have hp : t.isKeywordOf joinWords = false := Token.isKeywordOf_of_kind_ne joinWords t ht
    exact ⟨cutTop_cons_of_not _ 0 t ts _ hp h, rest, (cutTop_divides _ _ _ _ h).1⟩
  · exact splitOther_begins t ts

theorem splitRightBracket_begins (depth : Int) (t : Token) (ts : List Token) :
    (splitRightBracket depth (t :: ts)).Begins (t :: ts) := by
  unfold splitRightBracket
  split
  · exact Split.after_begins 1 t ts
  · split
    · exact Split.after_begins 0 t ts
    · exact Split.whole_begins t ts

theorem splitItem_begins (t : Token) (ts : List Token) : (splitItem (t :: ts)).Begins (t :: ts) := by
  unfold splitItem
  split
  · next before rest h => exact Split.cons_begins t ts (before, rest) (cutTop_divides _ _ _ _ h)
  · exact Split.whole_begins t ts

/-! ## Table expressions -/

theorem splitBody_begins (head body ts : List Token) (missing : Split) (hh : head ≠ [])
    (hts : head ++ body = ts) (hm : missing.Begins ts) : (splitBody head body missing).Begins ts := by
  obtain ⟨inside, rest, -, hs⟩ | hs := splitBody_cases head body missing
  · rw [hs]
    exact ⟨hh, body, hts⟩
  · rw [hs]
    exact hm

theorem splitTableExpression_begins (t : Token) (ts : List Token) (s : Split)
    (h : splitTableExpression (t :: ts) = .ok s) : s.Begins (t :: ts) := by
  obtain rfl | rfl | ⟨head, name, as, bracket, body, he, -, -, -, -, rfl⟩ :=
    splitTableExpression_cases (t :: ts) s h
  · exact Split.whole_begins t ts
  · exact Split.after_begins 1 t ts
  · exact splitBody_begins _ body _ _ (List.cons_ne_nil _ _) he.symm (Split.after_begins 0 t ts)

theorem splitWith_begins (t : Token) (ts : List Token) (s : Split)
    (h : splitWith (t :: ts) = .ok s) : s.Begins (t :: ts) := by
  obtain rfl | rfl | ⟨head, name, as, bracket, body, he, -, -, -, hs⟩ := splitWith_cases (t :: ts) s h
  · exact Split.whole_begins t ts
  · exact Split.after_begins 1 t ts
  · rw [he]
    obtain ⟨inside, rest, -, rfl⟩ | rfl := hs
    · exact Split.take_begins 3 head _ _ _
    · exact Split.take_begins 0 head _ _ _

theorem splitAs_begins (t : Token) (ts : List Token) : (splitAs (t :: ts)).Begins (t :: ts) := by
  obtain hs | hs | ⟨head, bracket, body, he, -, hs⟩ := splitAs_cases (t :: ts)
  · rw [hs]
    exact Split.whole_begins t ts
  · rw [hs]
    exact Split.after_begins 1 t ts
  · rw [hs]
    exact splitBody_begins _ body _ _ (List.cons_ne_nil _ _) he.symm (Split.after_begins 1 t ts)

/-! ## Clauses -/

theorem splitDefinition_begins (stops : List String) (t : Token) (ts : List Token) :
    (splitDefinition stops (t :: ts)).Begins (t :: ts) := by
  unfold splitDefinition
  split
  · next before rest h => exact Split.cons_begins t ts (before, rest) (cutBefore_divides _ _ _ h)
  · exact Split.after_begins 0 t ts

theorem splitSelect_begins (t : Token) (ts : List Token) :
    (splitSelect (t :: ts)).Begins (t :: ts) := by
  unfold splitSelect
  split <;> exact Split.take_begins 0 t ts _ _

theorem splitCondition_begins (own : String) (others : List String) (t : Token) (ts : List Token) :
    (splitCondition own others (t :: ts)).Begins (t :: ts) := by
  unfold splitCondition
  split <;> exact Split.take_begins 0 t ts _ _

theorem splitFrom_begins (t : Token) (ts : List Token) : (splitFrom (t :: ts)).Begins (t :: ts) := by
  unfold splitFrom
  split
  · simp only [Nat.add_comm 1]
    exact Split.take_begins _ t ts _ _
  · exact Split.take_begins 0 t ts _ _

theorem splitKeys_begins (own : String) (t : Token) (ts : List Token) :
    (splitKeys own (t :: ts)).Begins (t :: ts) := by
  unfold splitKeys
  split
  · simp only [Nat.add_comm 1]
    exact Split.take_begins _ t ts _ _
  · exact Split.take_begins 1 t ts _ _

theorem splitLimit_begins (t : Token) (ts : List Token) : (splitLimit (t :: ts)).Begins (t :: ts) :=
  Split.take_begins 0 t ts _ _

theorem splitCase_begins (t : Token) (ts : List Token) (s : Split) (ht : t.key ≠ "WHEN")
    (h : splitCase (t :: ts) = .ok s) : s.Begins (t :: ts) := by
  obtain ⟨own, branches, hc, hs⟩ := splitCase_cases (t :: ts) s h
  have hw : t.isKeyword "WHEN" = false := Token.isKeyword_of_key_ne ht
  have hown := cutFirst_cons_of_not _ t ts _ hw hc
  have hpre : own <+: t :: ts := ⟨branches, (cutFirst_divides _ _ _ hc).1⟩
  obtain ⟨before, rest, -, rfl⟩ | rfl := hs
  · exact ⟨hown, hpre⟩
  · exact ⟨hown, hpre⟩

theorem splitWhen_begins (t : Token) (ts : List Token) : (splitWhen (t :: ts)).Begins (t :: ts) := by
  unfold splitWhen
  split
  · next before rest h => exact Split.cons_begins t ts (before, rest) (cutWhen_divides _ _ _ _ h)
  · exact Split.whole_begins t ts

/-! ## Joins -/

theorem splitJoin_begins (ts : List Token) (s : Split) (h : splitJoin ts = .ok s) : s.Begins ts := by
  obtain ⟨head, joined, next, hh, rfl, hs⟩ := splitJoin_cases ts s h
  obtain ⟨table, condition, parts, hc, -, rfl⟩ | rfl := splitJoined_cases head joined next s hs
  · refine ⟨List.append_ne_nil_of_left_ne_nil hh table, condition ++ next, ?_⟩
    rw [← (cutLast_divides _ _ _ _ hc).1]
    simp only [List.append_assoc]
  · exact ⟨List.append_ne_nil_of_left_ne_nil hh joined, List.prefix_append _ _⟩

/-! ## All runs -/

theorem Rule.begins {place : Place} {t : Token} {ts : List Token} {s : Split} (h : Rule place t ts s) :
    s.Begins (t :: ts) := by
  cases h with
  | definition stops => exact splitDefinition_begins stops t ts
  | named => exact splitAs_begins t ts
  | firstTable _ _ h => exact splitWith_begins t ts s h
  | select => exact splitSelect_begins t ts
  | tables => exact splitFrom_begins t ts
  | condition own others => exact splitCondition_begins own others t ts
  | keys own => exact splitKeys_begins own t ts
  | limit => exact splitLimit_begins t ts
  | branches _ _ hw h => exact splitCase_begins t ts s (by rw [hw]; decide) h
  | branch => exact splitWhen_begins t ts
  | join _ _ _ h => exact splitJoin_begins (t :: ts) s h
  | word => exact Split.whole_begins t ts
  | furtherTable _ _ h => exact splitTableExpression_begins t ts s h
  | item => exact splitItem_begins t ts
  | table hk => exact splitTables_begins t ts (by rw [hk]; decide)
  | other => exact splitOther_begins t ts
  | closing => exact splitRightBracket_begins place.depth t ts
  | alone => exact Split.after_begins 0 t ts

theorem split_begins (place : Place) (ts : List Token) (s : Split) (hne : ts ≠ [])
    (h : split place ts = .ok s) : s.Begins (nameAfterWith ts) := by
  match ts, hne with
  | t :: ts, _ =>
    obtain ⟨rest, hn, hr⟩ := split_rule place t ts s h
    rw [hn]
    exact hr.begins

/-! ## Lines that are too long -/

theorem splitLongBrackets_begins (t : Token) (ts : List Token) :
    (splitLongBrackets (t :: ts)).Begins (t :: ts) := by
  obtain hw | ⟨before, left, inside, right, after, he, -, -, hs⟩ := splitLongBrackets_cases (t :: ts)
  · rw [hw]
    exact Split.whole_begins t ts
  · refine ⟨?_, inside ++ right :: after, ?_⟩
    · rw [hs]
      exact List.append_ne_nil_of_right_ne_nil before (List.cons_ne_nil left [])
    · rw [hs, ← he, List.append_assoc, List.singleton_append]

theorem splitLong_begins (ts : List Token) (s : Split) (h : splitLong ts = .ok s) : s.Begins ts := by
  match ts with
  | [] => cases h
  | t :: ts =>
    obtain ⟨-, before, mark, rest, he, -, rfl⟩ | ⟨-, rfl⟩ := splitLong_cases t ts s h
    · refine ⟨List.append_ne_nil_of_right_ne_nil before (List.cons_ne_nil mark []), rest, ?_⟩
      rw [List.append_assoc, List.singleton_append, he]
    · exact splitLongBrackets_begins t ts

end SqlStyle.Clause
