import SqlStyle.Clause.Split

/-! What a split can be. A run is split by one of the rules of `Rule`, which its first token chooses
(`split_rule`); what holds of every rule holds of every split. A line that is too long is broken after
`THEN`, at its first pair of brackets, or not at all (`splitLong_cases`). -/
namespace SqlStyle.Clause
set_option autoImplicit false

/-! ## Where cuts fall -/

theorem cutFirst_cons_of_not (p : Token → Bool) (t : Token) (ts : List Token) (cut : Cut)
    (hp : p t = false) (h : cutFirst p (t :: ts) = some cut) : cut.1 ≠ [] := by
  simp only [cutFirst, hp] at h
  obtain ⟨inner, -, rfl⟩ := Option.map_eq_some_iff.1 h
  exact List.cons_ne_nil t inner.1

theorem cutTop_cons_of_not (p : Token → Bool) (depth : Int) (t : Token) (ts : List Token) (cut : Cut)
    (hp : p t = false) (h : cutTop p depth (t :: ts) = some cut) : cut.1 ≠ [] := by
  rw [cutTop, if_neg (by simp [hp])] at h
  obtain ⟨inner, -, rfl⟩ := Option.map_eq_some_iff.1 h
  exact List.cons_ne_nil t inner.1

theorem cutFirst_found (p : Token → Bool) (ts : List Token) (cut : Cut) (h : cutFirst p ts = some cut) :
    ∃ t rest, cut.2 = t :: rest ∧ p t = true := by
  induction ts generalizing cut with
  | nil => simp [cutFirst] at h
  | cons t ts ih =>
    simp only [cutFirst] at h
    split at h
    · next hp =>
      cases h
      exact ⟨t, ts, rfl, hp⟩
    · obtain ⟨inner, hi, rfl⟩ := Option.map_eq_some_iff.1 h
      exact ih inner hi

theorem cutTop_found (p : Token → Bool) (depth : Int) (ts : List Token) (cut : Cut)
    (h : cutTop p depth ts = some cut) : ∃ t rest, cut.2 = t :: rest ∧ p t = true := by
  induction ts generalizing depth cut with
  | nil => simp [cutTop] at h
  | cons t ts ih =>
    simp only [cutTop] at h
    split at h
    · next hp =>
      cases h
      exact ⟨t, ts, rfl, hp.2⟩
    · obtain ⟨inner, hi, rfl⟩ := Option.map_eq_some_iff.1 h
      exact ih _ inner hi

theorem cutLast_found (p : Token → Bool) (depth : Int) (ts : List Token) (cut : Cut)
    (h : cutLast p depth ts = some cut) : ∃ t rest, cut.2 = t :: rest ∧ p t = true := by
  induction ts generalizing depth cut with
  | nil => simp [cutLast] at h
  | cons t ts ih =>
    simp only [cutLast] at h
    split at h
    · next inner hi =>
      cases h
      exact ih _ inner hi
    · split at h
      · next hp =>
        cases h
        exact ⟨t, ts, rfl, hp.2⟩
      · simp at h

theorem cutClose_found (ts : List Token) (cut : Cut) (h : cutClose ts = some cut) :
    ∃ t rest, cut.2 = t :: rest ∧ t.kind = .rightBracket := by
  -- as long as the cut is not found, at least one bracket stays open
  suffices hd : ∀ (depth : Int) (cut : Cut), 1 ≤ depth → cutTop (fun _ => true) depth ts = some cut →
      ∃ t rest, cut.2 = t :: rest ∧ t.kind = .rightBracket from hd 1 cut (Int.le_refl 1) h
  clear h cut
  intro depth cut hdepth h
  induction ts generalizing depth cut with
  | nil => simp [cutTop] at h
  | cons t ts ih =>
    simp only [cutTop, and_true] at h
    split at h
    · next hz =>
      cases h
      exact ⟨t, ts, rfl, Token.kind_of_level_neg (by omega)⟩
    · next hz =>
      obtain ⟨inner, hi, rfl⟩ := Option.map_eq_some_iff.1 h
      have hl := t.neg_one_le_level
      exact ih _ inner (by omega) hi

/-! ## Table expressions -/

theorem splitBody_cases (head body : List Token) (missing : Split) :
    (∃ inside rest, cutClose body = some (inside, rest) ∧
        splitBody head body missing = ⟨head, [inside], rest⟩) ∨
      splitBody head body missing = missing := by
  unfold splitBody
  split
  · next inside rest hc => exact .inl ⟨inside, rest, hc, rfl⟩
  · exact .inr rfl

theorem splitTableExpression_cases (ts : List Token) (s : Split)
    (h : splitTableExpression ts = .ok s) :
    s = .whole ts ∨ s = .after 2 ts ∨
      ∃ head name as bracket body, ts = head :: name :: as :: bracket :: body ∧
        head.kind = .comma ∧ name.kind = .identifier ∧ as.isKeyword "AS" = true ∧
        bracket.kind = .leftBracket ∧ s = splitBody [head, name, as, bracket] body (.after 1 ts) := by
  unfold splitTableExpression at h
  split at h
  · next head name as rest =>
    split at h
    · cases h
    · next hc =>
      split at h
      · cases h
      · next hn =>
        split at h
        · cases h
          exact .inr (.inl rfl)
        · next ha =>
          split at h
          · cases h
          · next bracket body =>
            split at h
            · cases h
            · next hb =>
              cases h
              exact .inr (.inr ⟨head, name, as, bracket, body, rfl, Decidable.not_not.1 hc,
                Decidable.not_not.1 hn, by simpa using ha, Decidable.not_not.1 hb, rfl⟩)
  · cases h
    exact .inl rfl

theorem splitWith_cases (ts : List Token) (s : Split) (h : splitWith ts = .ok s) :
    s = .whole ts ∨ s = .after 2 ts ∨
      ∃ head name as bracket body, ts = head :: name :: as :: bracket :: body ∧
        name.kind = .identifier ∧ as.isKeyword "AS" = true ∧ bracket.kind = .leftBracket ∧
        ((∃ inside rest, cutClose body = some (inside, rest) ∧
            s = ⟨[head, name, as, bracket], [inside ++ rest.take 1], rest.drop 1⟩) ∨
          s = { own := [head], children := [name :: as :: bracket :: body] }) := by
  unfold splitWith at h
  split at h
  · next head name as rest =>
    split at h
    · cases h
    · next hn =>
      split at h
      · cases h
        exact .inr (.inl rfl)
      · next ha =>
        split at h
        · cases h
        · next bracket body =>
          split at h
          · cases h
          · next hb =>
            cases h
            refine .inr (.inr ⟨head, name, as, bracket, body, rfl, Decidable.not_not.1 hn,
              by simpa using ha, Decidable.not_not.1 hb, ?_⟩)
            split
            · next inside rest hc => exact .inl ⟨inside, rest, hc, rfl⟩
            · exact .inr rfl
  · cases h
    exact .inl rfl

theorem splitAs_cases (ts : List Token) :
    splitAs ts = .whole ts ∨ splitAs ts = .after 2 ts ∨
      ∃ head bracket body, ts = head :: bracket :: body ∧ bracket.kind = .leftBracket ∧
        splitAs ts = splitBody [head, bracket] body (.after 2 ts) := by
  unfold splitAs
  split
  · next head next third rest =>
    simp only
    split
    · next hb => exact .inr (.inr ⟨head, next, third :: rest, rfl, hb, rfl⟩)
    · exact .inr (.inl rfl)
  · exact .inl rfl

/-! ## Cases -/

theorem splitCase_cases (ts : List Token) (s : Split) (h : splitCase ts = .ok s) :
    ∃ own branches, cutFirst (fun t => t.isKeyword "WHEN") ts = some (own, branches) ∧
      ((∃ before rest, before ++ rest = branches ∧ s = ⟨own, [before], rest⟩) ∨
        s = { own := own, children := [branches] }) := by
  unfold splitCase at h
  split at h
  · cases h
  · next own branches hc =>
    cases h
    refine ⟨own, branches, hc, ?_⟩
    split
    · next before rest he => exact .inl ⟨before, rest, (cutClause_divides _ _ _ _ he).1, rfl⟩
    · exact .inr rfl

/-! ## Joins -/

theorem splitJoined_cases (head joined next : List Token) (s : Split)
    (h : splitJoined head joined next = .ok s) :
    (∃ table condition parts, cutLast isJoinCondition 0 joined = some (table, condition) ∧
        joinTerms condition = .ok parts ∧ s = ⟨head ++ table, parts, next⟩) ∨
      s = { own := head ++ joined, sibling := next } := by
  unfold splitJoined at h
  split at h
  · next table condition hc =>
    cases hj : joinTerms condition with
    | error fault =>
      rw [hj] at h
      cases h
    | ok parts =>
      rw [hj] at h
      cases h
      exact .inl ⟨table, condition, parts, hc, hj, rfl⟩
  · cases h
    exact .inr rfl

/-- A run that begins with a join falls into the join word with what stands before it, the table with its
condition, and the next join. -/
theorem splitJoin_cases (ts : List Token) (s : Split) (h : splitJoin ts = .ok s) :
    ∃ head joined next, head ≠ [] ∧ head ++ joined ++ next = ts ∧
      splitJoined head joined next = .ok s := by
  unfold splitJoin at h
  split at h
  · next before rest hc =>
    have hd := cutFirst_divides _ _ _ hc
    have hh : before ++ rest.take 1 ≠ [] := by
      intro hn
      have hp := List.length_pos_iff.2 hd.2
      have hzero := congrArg List.length hn
      simp only [List.length_append, List.length_take, List.length_nil] at hzero hp
      omega
    have hts : before ++ rest.take 1 ++ rest.drop 1 = ts := by
      rw [List.append_assoc, List.take_append_drop, hd.1]
    split at h
    · next joined next hj =>
      refine ⟨_, joined, next, hh, ?_, h⟩
      rw [List.append_assoc, (cutTop_divides _ _ _ _ hj).1, hts]
    · refine ⟨_, rest.drop 1, [], hh, ?_, h⟩
      rw [List.append_nil, hts]
  · split at h <;> cases h

/-! ## Rules -/

/-- The rules by which a run that begins with the token `t` is split. The first of them are for a
reserved word, and the others for any other token. -/
inductive Rule (place : Place) (t : Token) (ts : List Token) : Split → Prop where
  | definition (stops : List String) (hk : t.kind.isReserved = true) :
      Rule place t ts (splitDefinition stops (t :: ts))
  | named (hk : t.kind.isReserved = true) : Rule place t ts (splitAs (t :: ts))
  | firstTable (s : Split) (hk : t.kind.isReserved = true) (h : splitWith (t :: ts) = .ok s) :
      Rule place t ts s
  | select (hk : t.kind.isReserved = true) : Rule place t ts (splitSelect (t :: ts))
  | tables (hk : t.kind.isReserved = true) : Rule place t ts (splitFrom (t :: ts))
  | condition (own : String) (others : List String) (hk : t.kind.isReserved = true)
      (hw : t.key = "WHERE" ∨ t.key = "HAVING") : Rule place t ts (splitCondition own others (t :: ts))
  | keys (own : String) (hk : t.kind.isReserved = true) (hw : t.key = own)
      (ho : own = "ORDER" ∨ own = "GROUP") : Rule place t ts (splitKeys own (t :: ts))
  | limit (hk : t.kind.isReserved = true) : Rule place t ts (splitLimit (t :: ts))
  | branches (s : Split) (hk : t.kind.isReserved = true) (hw : t.key = "CASE")
      (h : splitCase (t :: ts) = .ok s) : Rule place t ts s
  | branch (hk : t.kind.isReserved = true) (hw : t.key = "WHEN") : Rule place t ts (splitWhen (t :: ts))
  | join (s : Split) (hk : t.kind.isReserved = true) (hw : t.key ∈ joinWords)
      (h : splitJoin (t :: ts) = .ok s) : Rule place t ts s
  | word (hk : t.kind.isReserved = true) : Rule place t ts (.whole (t :: ts))
  | furtherTable (s : Split) (hk : t.kind = .comma) (h : splitTableExpression (t :: ts) = .ok s) :
      Rule place t ts s
  | item (hk : t.kind = .comma) : Rule place t ts (splitItem (t :: ts))
  | table (hk : t.kind = .identifier) : Rule place t ts (splitTables (t :: ts))
  | other (hk : t.kind = .identifier ∨ t.kind = .leftBracket ∨ t.kind = .operator) :
      Rule place t ts (splitOther (t :: ts))
  | closing (hk : t.kind = .rightBracket) : Rule place t ts (splitRightBracket place.depth (t :: ts))
  | alone (hk : t.kind.isReserved = false) : Rule place t ts (.after 1 (t :: ts))

inductive ClauseSplit (w : String) : (List Token → Except Fault Split) → Prop where
  | definition (stops : List String) (hstops : ∀ stop ∈ stops, stop ∈ ["RETURNS", "LANGUAGE", "AS"]) :
      ClauseSplit w fun ts => .ok (splitDefinition stops ts)
  | named (hw : w = "AS") : ClauseSplit w fun ts => .ok (splitAs ts)
  | firstTable (hw : w = "WITH") : ClauseSplit w splitWith
  | select (hw : w = "SELECT") : ClauseSplit w fun ts => .ok (splitSelect ts)
  | tables (hw : w = "FROM") : ClauseSplit w fun ts => .ok (splitFrom ts)
  | condition (hw : w = "WHERE" ∨ w = "HAVING") : ClauseSplit w fun ts => .ok (splitCondition w ["FROM"] ts)
  | keys (hw : w = "ORDER" ∨ w = "GROUP") : ClauseSplit w fun ts => .ok (splitKeys w ts)
  | limit (hw : w = "LIMIT") : ClauseSplit w fun ts => .ok (splitLimit ts)
  | branches (hw : w = "CASE") : ClauseSplit w splitCase
  | branch (hw : w = "WHEN") : ClauseSplit w fun ts => .ok (splitWhen ts)
  | join (hw : w ∈ joinWords) : ClauseSplit w splitJoin
  | word : ClauseSplit w fun ts => .ok (.whole ts)

theorem splitClause_cases (w : String) : ClauseSplit w (splitClause w) := by
  unfold splitClause
  split
  case h_1 => exact .definition _ (by simp)
  case h_2 => exact .definition _ (by simp)
  case h_3 => exact .definition _ (by simp)
  case h_4 => exact .named rfl
  case h_5 => exact .firstTable rfl
  case h_6 => exact .select rfl
  case h_7 => exact .tables rfl
  case h_8 => exact .condition (.inl rfl)
  case h_9 => exact .keys (.inl rfl)
  case h_10 => exact .keys (.inr rfl)
  case h_11 => exact .condition (.inr rfl)
  case h_12 => exact .limit rfl
  case h_13 => exact .branches rfl
  case h_14 => exact .branch rfl
  case h_15 =>
    by_cases hj : joinWords.contains w = true
    · simp only [hj, if_true]
      exact .join (List.contains_iff_mem.1 hj)
    · simp only [hj]
      exact .word

theorem splitClause_of_mem {w : String} (hw : w ∈ joinWords) : splitClause w = splitJoin := by
  simp only [joinWords, List.mem_cons, List.not_mem_nil, or_false] at hw
  rcases hw with rfl | rfl | rfl | rfl | rfl | rfl | rfl <;> rfl

theorem splitClause_rule (place : Place) (t : Token) (ts : List Token) (s : Split)
    (hk : t.kind.isReserved = true) (h : splitClause t.key (t :: ts) = .ok s) : Rule place t ts s := by
  have hclause := splitClause_cases t.key
  generalize splitClause t.key = f at h hclause
  cases hclause with
  | firstTable => exact .firstTable s hk h
  | branches hw => exact .branches s hk hw h
  | join hw => exact .join s hk hw h
  | definition => cases h; exact .definition _ hk
  | named => cases h; exact .named hk
  | select => cases h; exact .select hk
  | tables => cases h; exact .tables hk
  | condition hw => cases h; exact .condition _ _ hk hw
  | keys hw => cases h; exact .keys _ hk rfl hw
  | limit => cases h; exact .limit hk
  | branch hw => cases h; exact .branch hk hw
  | word => cases h; exact .word hk

theorem nameAfterWith_cons (t : Token) (ts : List Token) :
    ∃ rest, nameAfterWith (t :: ts) = t :: rest ∧ rest.length = ts.length := by
  unfold nameAfterWith
  split
  · next head name next rest he =>
    obtain ⟨rfl, rfl⟩ := List.cons.inj he
    split <;> exact ⟨_, rfl, rfl⟩
  · exact ⟨ts, rfl, rfl⟩

theorem nameAfterWith_of_not_reserved (t : Token) (ts : List Token) (h : t.kind.isReserved = false) :
    nameAfterWith (t :: ts) = t :: ts := by
  unfold nameAfterWith
  split
  · next head name next rest he =>
    obtain ⟨rfl, rfl⟩ := List.cons.inj he
    simp [h]
  · rfl

theorem split_of_reserved (place : Place) (t : Token) (ts : List Token) (hk : t.kind.isReserved = true) :
    split place (t :: ts) = splitReserved (t :: ts) := by
  have hkinds : t.kind = .keyword ∨ t.kind = .function := by simpa [Kind.isReserved] using hk
  rcases hkinds with hkind | hkind <;> simp only [split, hkind]

theorem split_of_with {place : Place} {t : Token} {ts : List Token} (hk : t.kind.isReserved = true)
    (hw : t.key = "WITH") : split place (t :: ts) = splitWith (nameAfterWith (t :: ts)) := by
  obtain ⟨rest, hname, -⟩ := nameAfterWith_cons t ts
  rw [split_of_reserved place t ts hk, splitReserved, hname]
  simp only [hk, if_true, hw, splitClause]

theorem split_of_keyword (place : Place) {t : Token} {w : String} (ts : List Token) (h : t.isKeyword w = true)
    (hw : w ≠ "WITH") : split place (t :: ts) = splitClause w (t :: ts) := by
  obtain ⟨hkey, hk⟩ : t.key = w ∧ t.kind = .keyword := by simpa [Token.isKeyword] using h
  have hname : nameAfterWith (t :: ts) = t :: ts := by
    unfold nameAfterWith
    split
    · next head name next rest he =>
      obtain ⟨rfl, rfl⟩ := List.cons.inj he
      simp [hkey, hw]
    · rfl
  rw [split_of_reserved place t ts (by simp [hk, Kind.isReserved]), splitReserved, hname]
  simp [hk, Kind.isReserved, hkey]

theorem splitReserved_rule (place : Place) (t : Token) (ts : List Token) (s : Split)
    (h : splitReserved (t :: ts) = .ok s) :
    ∃ rest, nameAfterWith (t :: ts) = t :: rest ∧ Rule place t rest s := by
  obtain ⟨rest, hn, -⟩ := nameAfterWith_cons t ts
  refine ⟨rest, hn, ?_⟩
  rw [splitReserved, hn] at h
  simp only at h
  split at h
  · next hk => exact splitClause_rule place t rest s hk h
  · cases h

theorem splitName_rule (place : Place) (t : Token) (ts : List Token) (s : Split)
    (hk : t.kind = .identifier) (h : splitName place (t :: ts) = .ok s) : Rule place t ts s := by
  have hr : t.kind.isReserved = false := by rw [hk]; rfl
  unfold splitName at h
  split at h
  · cases h
    exact .alone hr
  · split at h
    · cases h
      exact .alone hr
    · split at h
      · cases h
      · cases h
        split
        · exact .table hk
        · exact .other (.inl hk)

theorem splitComma_rule (place : Place) (t : Token) (ts : List Token) (s : Split)
    (hk : t.kind = .comma) (h : splitComma place (t :: ts) = .ok s) : Rule place t ts s := by
  unfold splitComma at h
  split at h
  · cases h
  · split at h
    · exact .furtherTable s hk h
    · cases h
      exact .item hk

/-- Every run that is not empty is split by one of the rules, once the name behind `WITH` is relabelled. -/
theorem split_rule (place : Place) (t : Token) (ts : List Token) (s : Split)
    (h : split place (t :: ts) = .ok s) :
    ∃ rest, nameAfterWith (t :: ts) = t :: rest ∧ Rule place t rest s := by
  have other (hk : t.kind.isReserved = false) (hs : Rule place t ts s) :
      ∃ rest, nameAfterWith (t :: ts) = t :: rest ∧ Rule place t rest s :=
    ⟨ts, nameAfterWith_of_not_reserved t ts hk, hs⟩
  cases hk : t.kind with
  | keyword | function => exact splitReserved_rule place t ts s (by simpa only [split, hk] using h)
  | comma => exact other (by rw [hk]; rfl) (splitComma_rule place t ts s hk (by simpa only [split, hk] using h))
  | identifier => exact other (by rw [hk]; rfl) (splitName_rule place t ts s hk (by simpa only [split, hk] using h))
  | leftBracket =>
    simp only [split, hk] at h
    cases h
    exact other (by rw [hk]; rfl) (.other (.inr (.inl hk)))
  | operator =>
    simp only [split, hk] at h
    cases h
    exact other (by rw [hk]; rfl) (.other (.inr (.inr hk)))
  | rightBracket =>
    simp only [split, hk] at h
    cases h
    exact other (by rw [hk]; rfl) (.closing hk)
  | dot | comment | whitespace | unknown | other =>
    simp only [split, hk] at h
    cases h
    exact other (by rw [hk]; rfl) (.alone (by rw [hk]; rfl))

/-! ## Lines that are too long -/

theorem splitLongBrackets_cases (ts : List Token) :
    splitLongBrackets ts = .whole ts ∨
      ∃ before left inside right after, before ++ left :: (inside ++ right :: after) = ts ∧
        left.kind = .leftBracket ∧ right.kind = .rightBracket ∧
        splitLongBrackets ts = ⟨before ++ [left], items inside, right :: after⟩ := by
  unfold splitLongBrackets
  split
  · exact .inl rfl
  · next before rest hc =>
    obtain ⟨left, tail, hl, hp⟩ := cutFirst_found _ _ _ hc
    have hd := cutFirst_divides _ _ _ hc
    simp only at hl hd
    subst hl
    split
    · next inside after ha =>
      obtain ⟨right, after', hr, hk⟩ := cutClose_found _ _ ha
      simp only at hr
      subst hr
      have hi : inside ++ right :: after' = tail := (cutClose_divides _ _ ha).1
      refine .inr ⟨before, left, inside, right, after', ?_, ?_, hk, rfl⟩
      · rw [hi]
        exact hd.1
      · simp only [Bool.and_eq_true, beq_iff_eq] at hp
        exact hp.2
    · exact .inl rfl

/-- A branch of a case that is too long is broken after `THEN`, and any other line at its brackets. -/
theorem splitLong_cases (t : Token) (ts : List Token) (s : Split) (h : splitLong (t :: ts) = .ok s) :
    (t.key = "WHEN" ∧ ∃ before mark rest, before ++ mark :: rest = t :: ts ∧
        mark.isKeyword "THEN" = true ∧ s = { own := before ++ [mark], children := terms rest }) ∨
      (t.key ≠ "WHEN" ∧ s = splitLongBrackets (t :: ts)) := by
  unfold splitLong at h
  simp only at h
  split at h
  · next hw =>
    unfold splitLongWhen at h
    split at h
    · next before rest hc =>
      obtain ⟨mark, tail, hm, hp⟩ := cutTop_found _ _ _ _ hc
      have hd := (cutTop_divides _ _ _ _ hc).1
      simp only at hm hd
      subst hm
      cases h
      exact .inl ⟨hw, before, mark, tail, hd, hp, rfl⟩
    · cases h
  · next hw =>
    cases h
    exact .inr ⟨hw, rfl⟩

end SqlStyle.Clause
