import SqlStyle.Proofs.Clause.Partition

/-! What goes below a line. If the line holds a pair of brackets, these are the branches of a case or the
condition of a join (`Rule.guarded`), and if it is too long, it is broken at the brackets and followed by
the right one (`splitLong_sibling`). If the line ends in a comma, nothing goes below it, unless a grouping,
an ordering, a case or a join begins it (`Rule.commaBare`). -/
namespace SqlStyle.Clause
set_option autoImplicit false

/-! ## Lines that hold a pair of brackets -/

/-- The line holds no right bracket behind a left one. -/
def Unclosed (ts : List Token) : Prop :=
  ts.Pairwise fun l r => l.kind = .leftBracket → r.kind ≠ .rightBracket

theorem unclosed_take_one (t : Token) (ts : List Token) : Unclosed ((t :: ts).take 1) :=
  List.pairwise_singleton _ t

theorem unclosed_take_two (t : Token) (ts : List Token) (ht : t.kind ≠ .leftBracket) :
    Unclosed ((t :: ts).take 2) := by
  match ts with
  | [] => exact List.pairwise_singleton _ t
  | u :: ts => simp [Unclosed, ht]

theorem unclosed_take_three (t : Token) (ts : List Token) (ht : t.kind ≠ .leftBracket)
    (hb : (((t :: ts).drop 2).head?.any fun b => b.kind == .leftBracket) = true) :
    Unclosed ((t :: ts).take 3) := by
  match ts with
  | [] => exact List.pairwise_singleton _ t
  | [u] => simp [Unclosed, ht]
  | u :: b :: ts =>
    have hk : b.kind = .leftBracket := by simpa using hb
    simp [Unclosed, ht, hk]

theorem unclosed_tableHead (head name as bracket : Token) (hh : head.kind ≠ .leftBracket)
    (hn : name.kind = .identifier) (ha : as.isKeyword "AS" = true)
    (hb : bracket.kind = .leftBracket) : Unclosed [head, name, as, bracket] := by
  have hk : as.kind = .keyword := by
    simp only [Token.isKeyword, Bool.and_eq_true, beq_iff_eq] at ha
    exact ha.2
  simp [Unclosed, hh, hn, hb, hk]

/-- A long line that is broken and has something after it holds a pair of brackets, and what is after it
begins with the right one. -/
theorem splitLong_sibling (ts : List Token) (s : Split) (h : splitLong ts = .ok s)
    (hne : s.sibling ≠ []) :
    ¬ Unclosed ts ∧ ∃ right after, s.sibling = right :: after ∧ right.kind = .rightBracket := by
  match ts with
  | [] => cases h
  | t :: ts =>
    obtain ⟨-, before, mark, rest, -, -, rfl⟩ | ⟨-, rfl⟩ := splitLong_cases t ts s h
    · exact absurd rfl hne
    · obtain hw | ⟨before, left, inside, right, after, he, hleft, hright, hs⟩ :=
        splitLongBrackets_cases (t :: ts)
      · rw [hw] at hne
        exact absurd rfl hne
      · rw [hs]
        refine ⟨fun hu => ?_, right, after, rfl, hright⟩
        rw [Unclosed, ← he] at hu
        have hpair := (List.pairwise_append.1 hu).2.1
        have hmem : right ∈ inside ++ right :: after :=
          List.mem_append_right inside List.mem_cons_self
        exact (List.pairwise_cons.1 hpair).1 right hmem hleft hright

/-- If the line of a run that begins with `t` holds a pair of brackets, what goes below it are the branches
of a case or the condition of a join. -/
def Split.Guarded (t : Token) (s : Split) : Prop :=
  ¬ Unclosed s.own → ∀ u us, s.children.flatten = u :: us →
    u.isKeyword "WHEN" = true ∨ (t.key ∈ joinWords ∧ isJoinCondition u = true)

theorem Split.guarded_of_unclosed {t : Token} {s : Split} (h : Unclosed s.own) : s.Guarded t :=
  fun hn => absurd h hn

theorem Split.guarded_of_childless {t : Token} {s : Split} (h : s.children = []) : s.Guarded t := by
  intro _ u us hu
  simp [h] at hu

theorem isReserved_of_guard {t u : Token}
    (h : u.isKeyword "WHEN" = true ∨ (t.key ∈ joinWords ∧ isJoinCondition u = true)) :
    u.kind.isReserved = true := by
  simp only [isJoinCondition, Token.isKeyword, Bool.or_eq_true, Bool.and_eq_true, beq_iff_eq] at h
  rcases h with ⟨-, hk⟩ | ⟨-, ⟨-, hk⟩ | ⟨-, hk⟩⟩ <;> rw [hk] <;> rfl

/-! ## Rules that put nothing below -/

theorem childless_splitOther (ts : List Token) : (splitOther ts).children = [] := by
  unfold splitOther
  split <;> rfl

theorem childless_splitTables (ts : List Token) : (splitTables ts).children = [] := by
  unfold splitTables
  split
  · rfl
  · exact childless_splitOther ts

theorem childless_splitRightBracket (depth : Int) (ts : List Token) :
    (splitRightBracket depth ts).children = [] := by
  unfold splitRightBracket
  split
  · rfl
  · split <;> rfl

theorem childless_splitItem (ts : List Token) : (splitItem ts).children = [] := by
  unfold splitItem
  split <;> rfl

theorem childless_splitDefinition (stops : List String) (ts : List Token) :
    (splitDefinition stops ts).children = [] := by
  unfold splitDefinition
  split <;> rfl

theorem childless_splitWhen (ts : List Token) : (splitWhen ts).children = [] := by
  unfold splitWhen
  split <;> rfl

/-! ## Rules that put something below -/

theorem splitBody_guarded (t : Token) (head body : List Token) (missing : Split) (hh : Unclosed head)
    (hm : missing.children = []) : (splitBody head body missing).Guarded t := by
  obtain ⟨inside, rest, -, hs⟩ | hs := splitBody_cases head body missing
  · rw [hs]
    exact Split.guarded_of_unclosed hh
  · rw [hs]
    exact Split.guarded_of_childless hm

theorem splitTableExpression_guarded (t : Token) (ts : List Token) (s : Split)
    (h : splitTableExpression ts = .ok s) : s.Guarded t := by
  obtain rfl | rfl | ⟨head, name, as, bracket, body, -, hh, hn, ha, hb, rfl⟩ :=
    splitTableExpression_cases ts s h
  · exact Split.guarded_of_childless rfl
  · exact Split.guarded_of_childless rfl
  · exact splitBody_guarded t _ body _
      (unclosed_tableHead head name as bracket (by rw [hh]; decide) hn ha hb) rfl

theorem splitWith_guarded (t : Token) (ts : List Token) (s : Split) (ht : t.kind ≠ .leftBracket)
    (h : splitWith (t :: ts) = .ok s) : s.Guarded t := by
  obtain rfl | rfl | ⟨head, name, as, bracket, body, he, hn, ha, hb, hs⟩ :=
    splitWith_cases (t :: ts) s h
  · exact Split.guarded_of_childless rfl
  · exact Split.guarded_of_childless rfl
  · obtain ⟨rfl, -⟩ := List.cons.inj he
    obtain ⟨inside, rest, -, rfl⟩ | rfl := hs
    · exact Split.guarded_of_unclosed (unclosed_tableHead t name as bracket ht hn ha hb)
    · exact Split.guarded_of_unclosed (List.pairwise_singleton _ t)

theorem splitAs_guarded (t : Token) (ts : List Token) (ht : t.kind ≠ .leftBracket) :
    (splitAs (t :: ts)).Guarded t := by
  obtain hs | hs | ⟨head, bracket, body, he, -, hs⟩ := splitAs_cases (t :: ts)
  · rw [hs]
    exact Split.guarded_of_childless rfl
  · rw [hs]
    exact Split.guarded_of_childless rfl
  · obtain ⟨rfl, -⟩ := List.cons.inj he
    rw [hs]
    exact splitBody_guarded t _ body _ (unclosed_take_two t [bracket] ht) rfl

theorem splitFrom_guarded (t : Token) (ts : List Token) (ht : t.kind ≠ .leftBracket) :
    (splitFrom (t :: ts)).Guarded t := by
  unfold splitFrom
  split
  · apply Split.guarded_of_unclosed
    simp only
    split
    · exact unclosed_take_two t ts ht
    · exact unclosed_take_one t ts
  · exact Split.guarded_of_unclosed (unclosed_take_one t ts)

theorem splitKeys_guarded (own : String) (t : Token) (ts : List Token) (ht : t.kind ≠ .leftBracket) :
    (splitKeys own (t :: ts)).Guarded t := by
  unfold splitKeys
  split
  · apply Split.guarded_of_unclosed
    simp only
    split
    · next hb => exact unclosed_take_three t ts ht hb
    · exact unclosed_take_two t ts ht
  · exact Split.guarded_of_unclosed (unclosed_take_two t ts ht)

theorem splitCase_guarded (t : Token) (ts : List Token) (s : Split) (h : splitCase ts = .ok s) :
    s.Guarded t := by
  obtain ⟨own, branches, hc, hs⟩ := splitCase_cases ts s h
  obtain ⟨mark, tail, hb, hm⟩ := cutFirst_found _ _ _ hc
  simp only at hb
  intro _ u us hu
  left
  obtain ⟨before, rest, hd, rfl⟩ | rfl := hs
  · simp only [List.flatten_cons, List.flatten_nil, List.append_nil] at hu
    simp only [hu, hb, List.cons_append, List.cons.injEq] at hd
    rw [hd.1]
    exact hm
  · simp only [List.flatten_cons, List.flatten_nil, List.append_nil, hb, List.cons.injEq] at hu
    rw [← hu.1]
    exact hm

theorem splitJoin_guarded (t : Token) (ts : List Token) (s : Split) (ht : t.key ∈ joinWords)
    (hs : s.tokens = ts) (h : splitJoin ts = .ok s) : s.Guarded t := by
  obtain ⟨head, joined, next, -, hts, hj⟩ := splitJoin_cases ts s h
  obtain ⟨table, condition, parts, hc, -, rfl⟩ | rfl := splitJoined_cases head joined next s hj
  · obtain ⟨mark, rest, hm, hp⟩ := cutLast_found _ _ _ _ hc
    have hd := (cutLast_divides _ _ _ _ hc).1
    simp only at hm hd
    have hparts : parts.flatten = condition := by
      rw [← hts, ← hd] at hs
      simp only [Split.tokens, List.append_assoc, List.append_cancel_left_eq] at hs
      exact List.append_cancel_right hs
    intro _ u us hu
    simp only [hparts, hm, List.cons.injEq] at hu
    rw [← hu.1]
    exact .inr ⟨ht, hp⟩
  · exact Split.guarded_of_childless rfl

theorem Rule.guarded {place : Place} {t : Token} {ts : List Token} {s : Split}
    (h : Rule place t ts s) (hs : s.tokens = t :: ts) : s.Guarded t := by
  have reserved (hk : t.kind.isReserved = true) : t.kind ≠ .leftBracket := by
    intro hb
    rw [hb] at hk
    exact absurd hk (by decide)
  cases h with
  | definition stops => exact Split.guarded_of_childless (childless_splitDefinition stops (t :: ts))
  | named hk => exact splitAs_guarded t ts (reserved hk)
  | firstTable _ hk h => exact splitWith_guarded t ts s (reserved hk) h
  | select =>
    apply Split.guarded_of_unclosed
    unfold splitSelect
    split <;> exact unclosed_take_one t ts
  | tables hk => exact splitFrom_guarded t ts (reserved hk)
  | condition own others =>
    apply Split.guarded_of_unclosed
    unfold splitCondition
    split <;> exact unclosed_take_one t ts
  | keys own hk => exact splitKeys_guarded own t ts (reserved hk)
  | limit => exact Split.guarded_of_unclosed (unclosed_take_one t ts)
  | branches _ _ _ h => exact splitCase_guarded t (t :: ts) s h
  | branch => exact Split.guarded_of_childless (childless_splitWhen (t :: ts))
  | join _ _ hw h => exact splitJoin_guarded t (t :: ts) s hw hs h
  | word => exact Split.guarded_of_childless rfl
  | furtherTable _ _ h => exact splitTableExpression_guarded t (t :: ts) s h
  | item => exact Split.guarded_of_childless (childless_splitItem (t :: ts))
  | table => exact Split.guarded_of_childless (childless_splitTables (t :: ts))
  | other => exact Split.guarded_of_childless (childless_splitOther (t :: ts))
  | closing => exact Split.guarded_of_childless (childless_splitRightBracket place.depth (t :: ts))
  | alone => exact Split.guarded_of_childless rfl

/-! ## Lines that end in a comma -/

/-- Nothing goes below the line if it ends in a comma. -/
def Split.CommaBare (s : Split) : Prop :=
  (s.own.map Token.kind).getLast? = some .comma → s.children = []

theorem Split.commaBare_of_childless {s : Split} (h : s.children = []) : s.CommaBare :=
  fun _ => h

theorem Split.commaBare_of_last {s : Split} (u : Token) (h : s.own.getLast? = some u)
    (hu : u.kind ≠ .comma) : s.CommaBare := by
  intro hlast
  rw [List.getLast?_map, h] at hlast
  exact absurd (Option.some.inj hlast) hu

theorem splitBody_commaBare (head body : List Token) (bracket : Token) (missing : Split)
    (hb : bracket.kind = .leftBracket) (hm : missing.children = []) :
    (splitBody (head ++ [bracket]) body missing).CommaBare := by
  obtain ⟨inside, rest, -, hs⟩ | hs := splitBody_cases (head ++ [bracket]) body missing
  · rw [hs]
    exact Split.commaBare_of_last bracket List.getLast?_concat (by rw [hb]; decide)
  · rw [hs]
    exact Split.commaBare_of_childless hm

theorem splitTableExpression_commaBare (ts : List Token) (s : Split)
    (h : splitTableExpression ts = .ok s) : s.CommaBare := by
  obtain rfl | rfl | ⟨head, name, as, bracket, body, -, -, -, -, hb, rfl⟩ :=
    splitTableExpression_cases ts s h
  · exact Split.commaBare_of_childless rfl
  · exact Split.commaBare_of_childless rfl
  · exact splitBody_commaBare [head, name, as] body bracket _ hb rfl

theorem splitWith_commaBare (t : Token) (ts : List Token) (s : Split) (ht : t.kind ≠ .comma)
    (h : splitWith (t :: ts) = .ok s) : s.CommaBare := by
  obtain rfl | rfl | ⟨head, name, as, bracket, body, he, -, -, hb, hs⟩ := splitWith_cases (t :: ts) s h
  · exact Split.commaBare_of_childless rfl
  · exact Split.commaBare_of_childless rfl
  · obtain ⟨rfl, -⟩ := List.cons.inj he
    obtain ⟨inside, rest, -, rfl⟩ | rfl := hs
    · exact Split.commaBare_of_last bracket rfl (by rw [hb]; decide)
    · exact Split.commaBare_of_last t rfl ht

theorem splitAs_commaBare (ts : List Token) : (splitAs ts).CommaBare := by
  obtain hs | hs | ⟨head, bracket, body, -, hb, hs⟩ := splitAs_cases ts
  · rw [hs]
    exact Split.commaBare_of_childless rfl
  · rw [hs]
    exact Split.commaBare_of_childless rfl
  · rw [hs]
    exact splitBody_commaBare [head] body bracket _ hb rfl

theorem splitFrom_commaBare (t : Token) (ts : List Token) (ht : t.kind ≠ .comma) :
    (splitFrom (t :: ts)).CommaBare := by
  unfold splitFrom
  split
  · simp only
    split
    · next hb =>
      match ts with
      | [] => simp at hb
      | u :: ts =>
        have hk : u.kind = .leftBracket := by simpa using hb
        exact Split.commaBare_of_last u rfl (by rw [hk]; decide)
    · exact Split.commaBare_of_last t rfl ht
  · exact Split.commaBare_of_last t rfl ht

theorem splitCase_found (ts : List Token) (s : Split) (h : splitCase ts = .ok s) :
    ∃ u ∈ ts, u.isKeyword "WHEN" = true := by
  obtain ⟨own, branches, hc, -⟩ := splitCase_cases ts s h
  obtain ⟨u, rest, hb, hu⟩ := cutFirst_found _ _ _ hc
  refine ⟨u, ?_, hu⟩
  rw [← (cutFirst_divides _ _ _ hc).1, hb]
  exact List.mem_append_right own List.mem_cons_self

/-- Nothing goes below a line that ends in a comma, unless a grouping, an ordering, a case or a join begins
it. -/
theorem Rule.commaBare {place : Place} {t : Token} {ts : List Token} {s : Split}
    (h : Rule place t ts s) (ht : t.key ∉ "ORDER" :: "GROUP" :: joinWords)
    (hwhen : ∀ u ∈ t :: ts, u.isKeyword "WHEN" = false) : s.CommaBare := by
  have reserved (hk : t.kind.isReserved = true) : t.kind ≠ .comma := by
    intro hc
    rw [hc] at hk
    exact absurd hk (by decide)
  cases h with
  | definition stops => exact Split.commaBare_of_childless (childless_splitDefinition stops (t :: ts))
  | named => exact splitAs_commaBare (t :: ts)
  | firstTable _ hk h => exact splitWith_commaBare t ts s (reserved hk) h
  | select hk =>
    unfold splitSelect
    split <;> exact Split.commaBare_of_last t rfl (reserved hk)
  | tables hk => exact splitFrom_commaBare t ts (reserved hk)
  | condition own others hk =>
    unfold splitCondition
    split <;> exact Split.commaBare_of_last t rfl (reserved hk)
  | keys own _ hw ho =>
    exfalso
    apply ht
    rcases ho with rfl | rfl <;> simp [hw]
  | limit hk => exact Split.commaBare_of_last t rfl (reserved hk)
  | branches _ _ _ h =>
    obtain ⟨u, hmem, hu⟩ := splitCase_found (t :: ts) s h
    rw [hwhen u hmem] at hu
    cases hu
  | branch => exact Split.commaBare_of_childless (childless_splitWhen (t :: ts))
  | join _ _ hw => exact absurd (List.mem_cons_of_mem _ (List.mem_cons_of_mem _ hw)) ht
  | word => exact Split.commaBare_of_childless rfl
  | furtherTable _ _ h => exact splitTableExpression_commaBare (t :: ts) s h
  | item => exact Split.commaBare_of_childless (childless_splitItem (t :: ts))
  | table => exact Split.commaBare_of_childless (childless_splitTables (t :: ts))
  | other => exact Split.commaBare_of_childless (childless_splitOther (t :: ts))
  | closing => exact Split.commaBare_of_childless (childless_splitRightBracket place.depth (t :: ts))
  | alone => exact Split.commaBare_of_childless rfl

end SqlStyle.Clause
