import SqlStyle.Proofs.Layout.Joins

/-! Splits of runs with joins in full. If the words of each join follow each other, a name or a right bracket, joins can
be completed before a run is split or after it (`split_completeJoins`), and the same holds of a line that is too long
(`splitLong_completeJoins`). -/
namespace SqlStyle.Layout
set_option autoImplicit false
open Clause

/-! ## Splits -/

theorem after_completeJoins (style : KeywordStyle) (n : Nat) (ts : List Token)
    (h : ∀ t ∈ ts.take n, isJoinWord t = false) :
    Split.after n (completeJoins style ts) = Split.through (completeJoins style) (.after n ts) := by
  obtain ⟨htake, hdrop⟩ := completeJoins_take style n ts h
  rw [Split.after, htake, hdrop]
  rfl

theorem splitOther_completeJoins (style : KeywordStyle) (ts : List Token) :
    splitOther (completeJoins style ts) = Split.through (completeJoins style) (splitOther ts) := by
  have hblind : Blind fun t => t.kind == .comma || t.kind == .comment := blind_of_kind fun t ht => by simp [ht]
  unfold splitOther
  rw [completeJoins, cutTop_completeFrom hblind]
  cases hcut : cutTop (fun t => t.kind == .comma || t.kind == .comment) 0 ts with
  | none => rfl
  | some cut =>
    obtain ⟨before, rest⟩ := cut
    obtain ⟨t, after, hrest, ht⟩ := cutTop_found _ _ _ _ hcut
    simp only at hrest
    subst hrest
    have hsep := hblind.not ht
    simp [completeCut, Split.through, completeJoins_cons style hsep, completeJoins_append style _ hsep,
      completeJoins_nil, ← completeJoins.eq_def]

theorem splitTables_completeJoins (style : KeywordStyle) (ts : List Token) :
    splitTables (completeJoins style ts) = Split.through (completeJoins style) (splitTables ts) := by
  have hcut := cutTop_isJoinWord style none 0 ts fun _ => rfl
  rw [show isJoinWord = fun t => t.isKeywordOf joinWords from rfl] at hcut
  unfold splitTables
  rw [completeJoins, hcut]
  cases cutTop (fun t => t.isKeywordOf joinWords) 0 ts with
  | none => exact splitOther_completeJoins style ts
  | some cut => rfl

theorem isJoinWord_of_word {t : Token} (h : (t.word == ";") = true) : isJoinWord t = false := by
  by_contra hj
  have hkey := (isJoinWord_iff.1 (by simpa using hj)).2
  rw [Token.key, beq_iff_eq.1 h] at hkey
  exact absurd hkey (by decide +kernel)

theorem head?_completeJoins_any {p : Token → Bool} (hp : Blind p) (style : KeywordStyle) (ts : List Token) :
    (completeJoins style ts).head?.any p = ts.head?.any p := by
  cases ts with
  | nil => rfl
  | cons t ts =>
    rw [completeJoins, completeFrom_cons]
    rcases joinWord_word style none t with hnil | ⟨w, hw, ht, hjoin, -⟩
    · rw [hnil]
      rfl
    · rw [hw, List.singleton_append, List.head?_cons, List.head?_cons, Option.any_some, Option.any_some, hp w hjoin,
        hp t (isJoinWord_of_join ht)]

theorem splitRightBracket_completeJoins (style : KeywordStyle) (depth : Int) (t : Token) (ts : List Token)
    (ht : isJoinWord t = false) :
    splitRightBracket depth (completeJoins style (t :: ts)) =
      Split.through (completeJoins style) (splitRightBracket depth (t :: ts)) := by
  have hblind : Blind fun t => t.word == ";" := by
    intro u hu
    by_contra hword
    rw [isJoinWord_of_word (by simpa using hword)] at hu
    cases hu
  have hdrop : (completeJoins style (t :: ts)).drop 1 = completeJoins style ts := by
    rw [completeJoins_cons style ht]
    rfl
  unfold splitRightBracket
  rw [hdrop, head?_completeJoins_any hblind, List.drop_one, List.tail_cons]
  split
  · next hword =>
    obtain ⟨u, hu, huword⟩ := (Option.any_eq_true _ _).1 hword
    obtain ⟨us, rfl⟩ := List.head?_eq_some_iff.1 hu
    exact after_completeJoins style 2 _ (by simp [ht, isJoinWord_of_word huword])
  · split
    · exact after_completeJoins style 1 _ (by simp [ht])
    · rfl

theorem splitItem_completeJoins (style : KeywordStyle) (t : Token) (ts : List Token) (ht : isJoinWord t = false) :
    splitItem (completeJoins style (t :: ts)) = Split.through (completeJoins style) (splitItem (t :: ts)) := by
  have hcut := cutTop_completeFrom (p := fun t => t.kind == .comma) (blind_of_kind fun t ht => by simp [ht]) style none 0 ts
  unfold splitItem
  rw [completeJoins_cons style ht, List.drop_one, List.tail_cons, List.drop_one, List.tail_cons, completeJoins, hcut]
  cases cutTop (fun t => t.kind == .comma) 0 ts with
  | none => exact congrArg Split.whole (completeJoins_cons style ht ts).symm
  | some cut => simp [completeCut, Split.through, completeJoins_cons style ht, completeJoins.eq_def]

theorem splitBody_completeJoins (style : KeywordStyle) (head body : List Token) (missing : Split)
    (hhead : completeJoins style head = head) :
    splitBody head (completeJoins style body) (Split.through (completeJoins style) missing) =
      Split.through (completeJoins style) (splitBody head body missing) := by
  unfold splitBody
  rw [completeJoins, cutClose_completeFrom]
  cases cutClose body with
  | none => rfl
  | some cut => simp [completeCut, Split.through, hhead, completeJoins.eq_def]

/-- The token behind the first two stays in its place, or is a join before which a word is put. -/
theorem completeJoins_behindName (style : KeywordStyle) {t name : Token} (ht : isJoinWord t = false)
    (hname : isJoinWord name = false) (as : Token) (rest : List Token) :
    ∃ u us, completeJoins style (t :: name :: as :: rest) = t :: name :: u :: us ∧
      u.isKeyword "AS" = as.isKeyword "AS" ∧ (as.isKeyword "AS" = true → u = as ∧ us = completeJoins style rest) := by
  have hne : completeJoins style (as :: rest) ≠ [] := by simp [completeJoins, completeFrom_eq_nil]
  obtain ⟨u, us, hus⟩ := List.exists_cons_of_ne_nil hne
  refine ⟨u, us, by rw [completeJoins_cons style ht, completeJoins_cons style hname, hus], ?_, fun has => ?_⟩
  · have hany := head?_completeJoins_any (blind_isKeyword (w := "AS") (by decide)) style (as :: rest)
    rwa [hus] at hany
  · rw [completeJoins_cons style ((blind_isKeyword (w := "AS") (by decide)).not has)] at hus
    obtain ⟨rfl, rfl⟩ := List.cons.inj hus
    exact ⟨rfl, rfl⟩

theorem completeJoins_short (style : KeywordStyle) {t : Token} (ts : List Token) (ht : isJoinWord t = false)
    (hnext : ∀ u ∈ ts.head?, isJoinWord u = false) (hts : ts.length ≤ 1) : completeJoins style (t :: ts) = t :: ts := by
  rcases ts with _ | ⟨u, _ | ⟨v, vs⟩⟩
  case nil => exact completeJoins_cons style ht []
  case cons.nil => rw [completeJoins_cons style ht, completeJoins_cons style (hnext u rfl), completeJoins_nil]
  case cons.cons => simp at hts

theorem completeJoins_tableHead (style : KeywordStyle) {t name as bracket : Token} (ht : isJoinWord t = false)
    (hname : isJoinWord name = false) (has : as.isKeyword "AS" = true) (hbracket : bracket.kind = .leftBracket)
    (body : List Token) :
    completeJoins style [t, name, as, bracket] = [t, name, as, bracket] ∧
      completeJoins style (bracket :: body) = bracket :: completeJoins style body ∧
      completeJoins style (t :: name :: as :: bracket :: body) = t :: name :: as :: bracket :: completeJoins style body := by
  have hmark : isJoinWord as = false := (blind_isKeyword (w := "AS") (by decide)).not has
  have hleft : isJoinWord bracket = false := isJoinWord_of_kind (by simp [hbracket])
  simp only [completeJoins_cons style ht, completeJoins_cons style hname, completeJoins_cons style hmark,
    completeJoins_cons style hleft, completeJoins_nil, and_self]

theorem splitTableExpression_completeJoins (style : KeywordStyle) (t : Token) (ts : List Token) (s : Split)
    (ht : t.kind = .comma) (hfollow : JoinsFollow (t :: ts)) (h : splitTableExpression (t :: ts) = .ok s) :
    splitTableExpression (completeJoins style (t :: ts)) = .ok (Split.through (completeJoins style) s) := by
  have htoken : isJoinWord t = false := isJoinWord_of_kind (by simp [ht])
  have hnext := hfollow.next htoken (by simp [ht]) (by simp [ht])
  rcases ts with _ | ⟨name, _ | ⟨third, rest⟩⟩
  case nil | cons.nil =>
    have hrun := completeJoins_short style _ htoken hnext (by simp)
    cases h
    rw [Split.through_whole hrun rfl, hrun]
    rfl
  case cons.cons =>
    have hname := hnext name rfl
    have hafter := after_completeJoins style 2 (t :: name :: third :: rest) (by simp [htoken, hname])
    obtain ⟨u, us, hus, hu, has⟩ := completeJoins_behindName style htoken hname third rest
    rw [hus] at hafter ⊢
    simp only [splitTableExpression, hu] at h ⊢
    split at h
    · cases h
    · next hcomma =>
      rw [if_neg hcomma]
      split at h
      · cases h
      · next hkind =>
        rw [if_neg hkind]
        split at h
        · next hnot =>
          rw [if_pos hnot]
          cases h
          exact congrArg Except.ok hafter
        · next hkeyword =>
          rw [if_neg hkeyword]
          obtain ⟨rfl, rfl⟩ := has (by simpa using hkeyword)
          cases rest with
          | nil => cases h
          | cons bracket body =>
            simp only at h
            split at h
            · cases h
            · next hbracket =>
              cases h
              obtain ⟨hhead, hbody, hrun⟩ := completeJoins_tableHead style htoken hname (by simpa using hkeyword)
                (Decidable.not_not.1 hbracket) body
              have hlone := after_completeJoins style 1 (t :: name :: u :: bracket :: body) (by simp [htoken])
              rw [hrun] at hlone
              simp only [hbody]
              rw [if_neg hbracket, hlone, splitBody_completeJoins style _ _ _ hhead]

theorem splitWith_completeJoins (style : KeywordStyle) (t : Token) (ts : List Token) (s : Split)
    (ht : t.kind.isReserved = true) (htoken : isJoinWord t = false) (hfollow : JoinsFollow (t :: ts))
    (h : splitWith (t :: ts) = .ok s) :
    splitWith (completeJoins style (t :: ts)) = .ok (Split.through (completeJoins style) s) := by
  have hnext := hfollow.next htoken (by rintro hk; simp [hk, Kind.isReserved] at ht)
    (by rintro hk; simp [hk, Kind.isReserved] at ht)
  rcases ts with _ | ⟨name, _ | ⟨third, rest⟩⟩
  case nil | cons.nil =>
    have hrun := completeJoins_short style _ htoken hnext (by simp)
    cases h
    rw [Split.through_whole hrun rfl, hrun]
    rfl
  case cons.cons =>
    have hname := hnext name rfl
    have hafter := after_completeJoins style 2 (t :: name :: third :: rest) (by simp [htoken, hname])
    obtain ⟨u, us, hus, hu, has⟩ := completeJoins_behindName style htoken hname third rest
    rw [hus] at hafter ⊢
    simp only [splitWith, hu] at h ⊢
    split at h
    · cases h
    · next hkind =>
      rw [if_neg hkind]
      split at h
      · next hnot =>
        rw [if_pos hnot]
        cases h
        exact congrArg Except.ok hafter
      · next hkeyword =>
        rw [if_neg hkeyword]
        obtain ⟨rfl, rfl⟩ := has (by simpa using hkeyword)
        cases rest with
        | nil => cases h
        | cons bracket body =>
          simp only at h
          split at h
          · cases h
          · next hbracket =>
            cases h
            obtain ⟨hhead, hbody, hrun⟩ := completeJoins_tableHead style htoken hname (by simpa using hkeyword)
              (Decidable.not_not.1 hbracket) body
            simp only [hbody]
            rw [if_neg hbracket, completeJoins, cutClose_completeFrom]
            cases hcut : cutClose body with
            | none =>
              have hlone : completeJoins style [t] = [t] := completeJoins_cons style htoken []
              rw [completeJoins_cons style htoken] at hrun
              simp [Split.through, hlone, (List.cons.inj hrun).2, completeJoins_nil, ← completeJoins.eq_def]
            | some cut =>
              obtain ⟨inside, after⟩ := cut
              obtain ⟨right, later, hright, hk⟩ := cutClose_found _ _ hcut
              simp only at hright
              subst hright
              have hclose : isJoinWord right = false := isJoinWord_of_kind (by simp [hk])
              simp [Split.through, completeCut, hhead, completeJoins_append style _ hclose,
                completeJoins_cons style hclose, completeJoins_nil, ← completeJoins.eq_def]

theorem splitAs_completeJoins (style : KeywordStyle) (t : Token) (ts : List Token) (ht : t.kind.isReserved = true)
    (htoken : isJoinWord t = false) (hfollow : JoinsFollow (t :: ts)) :
    splitAs (completeJoins style (t :: ts)) = Split.through (completeJoins style) (splitAs (t :: ts)) := by
  have hnext := hfollow.next htoken (by rintro hk; simp [hk, Kind.isReserved] at ht)
    (by rintro hk; simp [hk, Kind.isReserved] at ht)
  rcases ts with _ | ⟨name, _ | ⟨third, rest⟩⟩
  case nil | cons.nil =>
    have hrun := completeJoins_short style _ htoken hnext (by simp)
    rw [hrun]
    exact (Split.through_whole hrun rfl).symm
  case cons.cons =>
    have hname := hnext name rfl
    have hafter := after_completeJoins style 2 (t :: name :: third :: rest) (by simp [htoken, hname])
    have hhead : completeJoins style [t, name] = [t, name] :=
      completeJoins_short style [name] htoken (by simpa using hname) (by simp)
    have hbody := splitBody_completeJoins style [t, name] (third :: rest) (.after 2 (t :: name :: third :: rest)) hhead
    rw [← hafter] at hbody
    obtain ⟨u, us, hus, -⟩ := completeJoins_behindName style htoken hname third rest
    have hrest : completeJoins style (third :: rest) = u :: us := by
      rw [completeJoins_cons style htoken, completeJoins_cons style hname] at hus
      exact (List.cons.inj (List.cons.inj hus).2).2
    rw [hrest, hus] at hbody
    rw [hus] at hafter ⊢
    simp only [splitAs]
    split
    · exact hbody
    · exact hafter

theorem splitDefinition_completeJoins (style : KeywordStyle) {stops : List String}
    (hstops : ∀ w ∈ stops, w ∉ joinWords) (t : Token) (ts : List Token) (ht : isJoinWord t = false) :
    splitDefinition stops (completeJoins style (t :: ts)) =
      Split.through (completeJoins style) (splitDefinition stops (t :: ts)) := by
  have hcut := cutBefore_completeFrom hstops style none ts
  have hafter := after_completeJoins style 1 (t :: ts) (by simp [ht])
  rw [completeJoins_cons style ht] at hafter ⊢
  rw [← completeJoins] at hcut
  simp only [splitDefinition, List.drop_one, List.tail_cons, hcut]
  cases cutBefore stops ts with
  | none => exact hafter
  | some cut => simp [completeCut, Split.through, completeJoins_cons style ht, ← completeJoins.eq_def]

theorem stopsOf_notMem (own : String) (others : List String) : ∀ w ∈ stopsOf own others, w ∉ joinWords := by
  intro w hw
  have hclause : ∀ w ∈ clauseWords, w ∉ joinWords := by decide
  exact hclause w (List.mem_of_mem_filter hw)

theorem splitSelect_completeJoins (style : KeywordStyle) (t : Token) (ts : List Token) (ht : isJoinWord t = false) :
    splitSelect (completeJoins style (t :: ts)) = Split.through (completeJoins style) (splitSelect (t :: ts)) := by
  have hcut := cutClause_completeFrom (by decide : "SELECT" ∉ joinWords) (stopsOf_notMem "SELECT" []) style none ts
  rw [← completeJoins] at hcut
  simp only [splitSelect, completeJoins_cons style ht, List.drop_one, List.tail_cons, hcut]
  cases cutClause "SELECT" (stopsOf "SELECT" []) ts with
  | none => simp [Split.through, completeJoins_cons style ht, completeJoins_nil]
  | some cut =>
    simp [completeCut, Split.through, completeJoins_cons style ht, completeJoins_nil, ← completeJoins.eq_def,
      items_completeJoins]

theorem splitCondition_completeJoins (style : KeywordStyle) {own : String} (hown : own ∉ joinWords)
    (others : List String) (t : Token) (ts : List Token) (ht : isJoinWord t = false) (hfollow : JoinsFollow (t :: ts))
    (hnext : ∀ u ∈ ts.head?, isJoinWord u = false) :
    splitCondition own others (completeJoins style (t :: ts)) =
      Split.through (completeJoins style) (splitCondition own others (t :: ts)) := by
  have hcut := cutClause_completeFrom hown (stopsOf_notMem own others) style none ts
  rw [← completeJoins] at hcut
  simp only [splitCondition, completeJoins_cons style ht, List.drop_one, List.tail_cons, hcut]
  cases hclause : cutClause own (stopsOf own others) ts with
  | none =>
    simp [Split.through, completeJoins_cons style ht, completeJoins_nil, terms_completeJoins style hfollow.tail hnext]
  | some cut =>
    have hdivides := (cutClause_divides _ _ _ _ hclause).1
    have hbefore : cut.1 <+: ts := ⟨cut.2, hdivides⟩
    have hterms := terms_completeJoins style (hfollow.tail.piece hbefore.isInfix) fun u hu => hnext u (by
      obtain ⟨us, hus⟩ := List.head?_eq_some_iff.1 hu
      rw [← hdivides, hus]
      rfl)
    simp [completeCut, Split.through, completeJoins_cons style ht, completeJoins_nil, ← completeJoins.eq_def, hterms]

theorem splitLimit_completeJoins (style : KeywordStyle) (t : Token) (ts : List Token) (ht : isJoinWord t = false) :
    splitLimit (completeJoins style (t :: ts)) = Split.through (completeJoins style) (splitLimit (t :: ts)) := by
  simp [splitLimit, Split.through, completeJoins_cons style ht, completeJoins_nil]

theorem kept_completeJoins (style : KeywordStyle) (kept : Nat) (t : Token) (ts before rest : List Token)
    (hts : before ++ rest = ts) (ht : isJoinWord t = false) (hkept : ∀ u ∈ ts.take kept, isJoinWord u = false) :
    Split.mk ((t :: completeJoins style ts).take (1 + kept)) [(completeJoins style before).drop kept]
        (completeJoins style rest) =
      Split.through (completeJoins style) ⟨(t :: ts).take (1 + kept), [before.drop kept], rest⟩ := by
  have hbefore : ∀ u ∈ before.take kept, isJoinWord u = false := fun u hu =>
    hkept u (hts ▸ ((List.prefix_append before rest).take kept).subset hu)
  have hown := (completeJoins_take style (1 + kept) (t :: ts) (by simpa [Nat.add_comm 1 kept, ht] using hkept)).1
  rw [completeJoins_cons style ht] at hown
  rw [hown, (completeJoins_take style kept before hbefore).2]
  rfl

theorem blind_leftBracket : Blind fun t => t.kind == .leftBracket :=
  blind_of_kind fun t ht => by simp [ht]

theorem splitFrom_completeJoins (style : KeywordStyle) (t : Token) (ts : List Token) (ht : isJoinWord t = false) :
    splitFrom (completeJoins style (t :: ts)) = Split.through (completeJoins style) (splitFrom (t :: ts)) := by
  have hcut := cutClause_completeFrom (by decide : "FROM" ∉ joinWords) (stopsOf_notMem "FROM" []) style none ts
  rw [← completeJoins] at hcut
  simp only [splitFrom, completeJoins_cons style ht, List.drop_one, List.tail_cons, hcut,
    head?_completeJoins_any blind_leftBracket]
  cases hclause : cutClause "FROM" (stopsOf "FROM" []) ts with
  | none => simp [Split.through, completeJoins_cons style ht, completeJoins_nil]
  | some cut =>
    apply kept_completeJoins style _ t ts cut.1 cut.2 (cutClause_divides _ _ _ _ hclause).1 ht
    split
    · next hbracket =>
      obtain ⟨u, hu, hkind⟩ := (Option.any_eq_true _ _).1 hbracket
      obtain ⟨us, rfl⟩ := List.head?_eq_some_iff.1 hu
      simpa using blind_leftBracket.not hkind
    · simp

theorem splitKeys_completeJoins (style : KeywordStyle) {own : String} (hown : own ∉ joinWords) (t : Token)
    (ts : List Token) (ht : isJoinWord t = false) (hnext : ∀ u ∈ ts.head?, isJoinWord u = false) :
    splitKeys own (completeJoins style (t :: ts)) = Split.through (completeJoins style) (splitKeys own (t :: ts)) := by
  have hcut := cutClause_completeFrom hown (stopsOf_notMem own ["FROM"]) style none ts
  have hone : ∀ u ∈ ts.take 1, isJoinWord u = false := by
    cases ts with
    | nil => simp
    | cons u us => simpa using hnext u rfl
  have hdrop := (completeJoins_take style 1 ts hone).2
  have htwo := completeJoins_take style 2 (t :: ts) (by simpa [ht] using hone)
  rw [← completeJoins] at hcut
  rw [completeJoins_cons style ht] at htwo
  have hbehind : (t :: completeJoins style ts).drop 2 = completeJoins style (ts.drop 1) := hdrop
  simp only [splitKeys, completeJoins_cons style ht, hbehind, List.drop_succ_cons, List.drop_zero, hcut,
    head?_completeJoins_any blind_leftBracket]
  cases hclause : cutClause own (stopsOf own ["FROM"]) ts with
  | none => simp [Split.through, htwo.1, completeJoins_nil]
  | some cut =>
    apply kept_completeJoins style _ t ts cut.1 cut.2 (cutClause_divides _ _ _ _ hclause).1 ht
    split
    · next hbracket =>
      obtain ⟨v, hv, hkind⟩ := (Option.any_eq_true _ _).1 hbracket
      obtain ⟨vs, hvs⟩ := List.head?_eq_some_iff.1 hv
      have htake : ts.take 2 = ts.take 1 ++ [v] := by
        cases ts with
        | nil => cases hvs
        | cons u us =>
          simp only [List.drop_one, List.tail_cons] at hvs
          simp [hvs]
      rw [htake, List.forall_mem_append]
      exact ⟨hone, by simpa using blind_leftBracket.not hkind⟩
    · exact hone

theorem splitCase_completeJoins (style : KeywordStyle) (ts : List Token) (s : Split) (h : splitCase ts = .ok s) :
    splitCase (completeJoins style ts) = .ok (Split.through (completeJoins style) s) := by
  unfold splitCase at h ⊢
  rw [completeJoins, cutFirst_completeFrom (blind_isKeyword (w := "WHEN") (by decide))]
  cases hcut : cutFirst (fun t => t.isKeyword "WHEN") ts with
  | none =>
    rw [hcut] at h
    cases h
  | some cut =>
    rw [hcut] at h
    cases h
    have hclause := cutClause_completeFrom (by decide : "CASE" ∉ joinWords) (by decide : ∀ w ∈ ["END"], w ∉ joinWords)
      style none cut.2
    simp only [Option.map_some, completeCut, completeJoins, hclause]
    cases cutClause "CASE" ["END"] cut.2 <;> rfl

theorem splitWhen_completeJoins (style : KeywordStyle) (t : Token) (ts : List Token) (ht : isJoinWord t = false) :
    splitWhen (completeJoins style (t :: ts)) = Split.through (completeJoins style) (splitWhen (t :: ts)) := by
  have hcut := cutWhen_completeFrom style none 0 1 ts
  rw [← completeJoins] at hcut
  simp only [splitWhen, completeJoins_cons style ht, List.drop_one, List.tail_cons, hcut]
  cases cutWhen 0 1 ts with
  | none => exact congrArg Split.whole (completeJoins_cons style ht ts).symm
  | some cut => simp [completeCut, Split.through, completeJoins_cons style ht, ← completeJoins.eq_def]

/-! ## Joins -/

theorem blind_isJoinCondition : Blind isJoinCondition := by
  intro t ht
  simp [isJoinCondition, isKeyword_of_isJoinWord ht (w := "ON") (by decide), (isJoinWord_iff.1 ht).1]

theorem joinTerms_completeJoins (style : KeywordStyle) (t : Token) (ts : List Token) (parts : List (List Token))
    (ht : isJoinWord t = false) (hfollow : JoinsFollow (t :: ts)) (h : joinTerms (t :: ts) = .ok parts) :
    joinTerms (completeJoins style (t :: ts)) = .ok (parts.map (completeJoins style)) := by
  have hterms := terms_completeJoins style hfollow (by simpa using ht)
  rw [completeJoins_cons style ht] at hterms ⊢
  rw [joinTerms] at h ⊢
  cases h
  split
  · rw [hterms]
  · rw [List.map_singleton, completeJoins_cons style ht]

theorem splitJoined_completeJoins (style : KeywordStyle) (before joined next : List Token) (join : Token) (s : Split)
    (hfollow : JoinsFollow joined) (h : splitJoined (before ++ [join]) joined next = .ok s) :
    splitJoined (completeJoins style (before ++ [join])) (completeFrom style (some join) joined)
      (completeJoins style next) = .ok (Split.through (completeJoins style) s) := by
  have hown (us : List Token) : completeJoins style (before ++ [join]) ++ completeFrom style (some join) us =
      completeJoins style (before ++ [join] ++ us) := by
    rw [completeJoins, completeJoins, completeFrom_append style none (before ++ [join]) us, List.getLast?_concat,
      Option.some_or]
  unfold splitJoined at h ⊢
  rw [cutLast_completeFrom blind_isJoinCondition]
  cases hcut : cutLast isJoinCondition 0 joined with
  | none =>
    rw [hcut] at h
    cases h
    simp only [Option.map_none, hown]
    rfl
  | some cut =>
    obtain ⟨table, condition⟩ := cut
    obtain ⟨t, ts, hts, ht⟩ := cutLast_found _ _ _ _ hcut
    have hdivides := (cutLast_divides _ _ _ _ hcut).1
    simp only at hts hdivides
    subst hts
    rw [hcut] at h
    cases hterms : joinTerms (t :: ts) with
    | error fault =>
      simp only [hterms] at h
      cases h
    | ok parts =>
      simp only [hterms] at h
      cases h
      have hcompleted := joinTerms_completeJoins style t ts parts (blind_isJoinCondition.not ht)
        (hfollow.piece ⟨table, [], by simpa using hdivides⟩) hterms
      simp only [Option.map_some, completeCut, hcompleted, hown]
      rfl

theorem splitJoin_completeJoins (style : KeywordStyle) (ts : List Token) (s : Split) (hfollow : JoinsFollow ts)
    (h : splitJoin ts = .ok s) :
    splitJoin (completeJoins style ts) = .ok (Split.through (completeJoins style) s) := by
  unfold splitJoin at h
  cases hcut : cutFirst (fun t => t.isKeyword "JOIN") ts with
  | none =>
    rw [hcut] at h
    cases ts <;> cases h
  | some cut =>
    obtain ⟨before, rest⟩ := cut
    obtain ⟨join, after, hrest, hjoin⟩ := cutFirst_found _ _ _ hcut
    have hdivides := (cutFirst_divides _ _ _ hcut).1
    have hbefore := cutFirst_passed _ _ _ hcut
    simp only at hrest hdivides hbefore
    subst hrest hdivides
    rw [hcut] at h
    simp only [List.take_succ_cons, List.take_zero, List.drop_one, List.tail_cons] at h
    have hhead : completeJoins style (before ++ [join]) = before ++ joinWord style before.getLast? join ++ [join] := by
      rw [completeJoins_concat, completeJoins, completeFrom_of_no_join style none before hbefore, List.append_assoc]
    have hrun : completeJoins style (before ++ join :: after) =
        (before ++ joinWord style before.getLast? join) ++ join :: completeFrom style (some join) after := by
      rw [completeJoins, completeFrom_append, completeFrom_of_no_join style none before hbefore, Option.or_none,
        completeFrom_cons, List.append_assoc]
    have hpassed : ∀ u ∈ before ++ joinWord style before.getLast? join, u.isKeyword "JOIN" = false := by
      rw [List.forall_mem_append]
      refine ⟨hbefore, ?_⟩
      rcases joinWord_word style before.getLast? join with hnil | ⟨w, hw, -, -, hword⟩
      · rw [hnil]
        exact List.forall_mem_nil _
      · rw [hw]
        simpa using hword
    have hmissing : missingJoinWord (some join) = missingJoinWord none := by
      have hnot {w : String} (hw : "JOIN" ≠ w) := isKeyword_of_ne hjoin hw
      simp [missingJoinWord, Token.isKeywordOf, hnot]
    have hnext := cutTop_isJoinWord style (some join) 0 after fun _ => hmissing
    rw [show isJoinWord = fun t => t.isKeywordOf joinWords from rfl] at hnext
    have hafter : JoinsFollow after := hfollow.piece ⟨before ++ [join], [], by simp⟩
    unfold splitJoin
    rw [hrun, cutFirst_append _ _ _ _ hpassed hjoin]
    simp only [List.take_succ_cons, List.take_zero, List.drop_one, List.tail_cons, hnext, ← hhead]
    cases htop : cutTop (fun t => t.isKeywordOf joinWords) 0 after with
    | none =>
      rw [htop] at h
      exact splitJoined_completeJoins style before after [] join s hafter h
    | some cut =>
      rw [htop] at h
      have hprefix : cut.1 <+: after := ⟨cut.2, (cutTop_divides _ _ _ _ htop).1⟩
      exact splitJoined_completeJoins style before cut.1 cut.2 join s (hafter.piece hprefix.isInfix) h

/-! ## Runs in their place -/

/-- The token that a run begins with once its joins are in full. -/
def fullHead (style : KeywordStyle) (t : Token) : Token :=
  (joinWord style none t).head?.getD t

theorem head?_completeJoins (style : KeywordStyle) (ts : List Token) :
    (completeJoins style ts).head? = ts.head?.map (fullHead style) := by
  cases ts with
  | nil => rfl
  | cons t ts =>
    rw [completeJoins, completeFrom_cons, List.head?_cons, Option.map_some, fullHead, List.head?_append]
    cases (joinWord style none t).head? <;> rfl

/-- A run begins with its own first token, or with a word of a join where it began with a join. -/
theorem fullHead_cases (style : KeywordStyle) (t : Token) :
    fullHead style t = t ∨ isJoinWord t = true ∧ isJoinWord (fullHead style t) = true := by
  rcases joinWord_word style none t with hnil | ⟨w, hw, ht, hjoin, -⟩
  · exact .inl (by rw [fullHead, hnil]; rfl)
  · exact .inr ⟨isJoinWord_of_join ht, by rw [fullHead, hw]; exact hjoin⟩

theorem fullHead_any {p : Token → Bool} (hp : Blind p) (style : KeywordStyle) (t : Token) :
    p (fullHead style t) = p t := by
  rcases fullHead_cases style t with hsame | ⟨ht, hfull⟩
  · rw [hsame]
  · rw [hp t ht, hp _ hfull]

theorem not_name_of_reserved {k : Kind} (h : k.isReserved = true) : k ≠ .identifier ∧ k ≠ .rightBracket := by
  constructor <;> rintro rfl <;> cases h

theorem splitClause_completeJoins (style : KeywordStyle) (t : Token) (ts : List Token) (s : Split)
    (hk : t.kind.isReserved = true) (hfollow : JoinsFollow (t :: ts)) (h : splitClause t.key (t :: ts) = .ok s) :
    splitClause (fullHead style t).key (completeJoins style (t :: ts)) =
      .ok (Split.through (completeJoins style) s) := by
  cases ht : isJoinWord t with
  | true =>
    have hfull : (fullHead style t).key ∈ joinWords := by
      rcases fullHead_cases style t with hsame | ⟨-, hjoin⟩
      · rw [hsame]
        exact (isJoinWord_iff.1 ht).2
      · exact (isJoinWord_iff.1 hjoin).2
    rw [splitClause_of_mem (isJoinWord_iff.1 ht).2] at h
    rw [splitClause_of_mem hfull]
    exact splitJoin_completeJoins style _ s hfollow h
  | false =>
    have hhead : fullHead style t = t := by
      rcases fullHead_cases style t with hsame | ⟨hjoin, -⟩
      · exact hsame
      · rw [ht] at hjoin
        cases hjoin
    have hnext := hfollow.next ht (not_name_of_reserved hk).1 (not_name_of_reserved hk).2
    rw [hhead]
    have hclause := splitClause_cases t.key
    generalize splitClause t.key = f at h hclause ⊢
    cases hclause with
    | firstTable => exact splitWith_completeJoins style t ts s hk ht hfollow h
    | branches => exact splitCase_completeJoins style _ s h
    | join => exact splitJoin_completeJoins style _ s hfollow h
    | definition stops hstops =>
      cases h
      have hwords : ∀ w ∈ ["RETURNS", "LANGUAGE", "AS"], w ∉ joinWords := by decide
      exact congrArg Except.ok
        (splitDefinition_completeJoins style (fun w hw => hwords w (hstops w hw)) t ts ht)
    | named => cases h; exact congrArg Except.ok (splitAs_completeJoins style t ts hk ht hfollow)
    | select => cases h; exact congrArg Except.ok (splitSelect_completeJoins style t ts ht)
    | tables => cases h; exact congrArg Except.ok (splitFrom_completeJoins style t ts ht)
    | condition hw =>
      cases h
      have hown : t.key ∉ joinWords := by rcases hw with hw | hw <;> rw [hw] <;> decide
      exact congrArg Except.ok (splitCondition_completeJoins style hown _ t ts ht hfollow hnext)
    | keys hw =>
      cases h
      have hown : t.key ∉ joinWords := by rcases hw with hw | hw <;> rw [hw] <;> decide
      exact congrArg Except.ok (splitKeys_completeJoins style hown t ts ht hnext)
    | limit => cases h; exact congrArg Except.ok (splitLimit_completeJoins style t ts ht)
    | branch => cases h; exact congrArg Except.ok (splitWhen_completeJoins style t ts ht)
    | word => cases h; rfl

theorem splitReserved_eq {t : Token} {ts : List Token} (hk : t.kind.isReserved = true)
    (hname : nameAfterWith (t :: ts) = t :: ts) : splitReserved (t :: ts) = splitClause t.key (t :: ts) := by
  rw [splitReserved, hname]
  exact if_pos hk

theorem splitName_completeJoins (style : KeywordStyle) (place : Place) (t : Token) (ts : List Token) (s : Split)
    (ht : isJoinWord t = false) (h : splitName place (t :: ts) = .ok s) :
    splitName (place.map (fullHead style)) (completeJoins style (t :: ts)) =
      .ok (Split.through (completeJoins style) s) := by
  have hafter := after_completeJoins style 1 (t :: ts) (by simp [ht])
  obtain ⟨depth, parent?⟩ := place
  cases parent? with
  | none =>
    cases h
    exact congrArg Except.ok hafter
  | some parent =>
    obtain ⟨above, head?⟩ := parent
    simp only [splitName, Place.map, Option.map_some] at h ⊢
    split at h
    · next hd =>
      rw [if_pos hd]
      cases h
      exact congrArg Except.ok hafter
    · next hd =>
      rw [if_neg hd]
      cases head? with
      | none => cases h
      | some head =>
        have hfrom := fullHead_any (blind_isKeyword (w := "FROM") (by decide)) style head
        simp only [Option.map_some, hfrom] at h ⊢
        cases h
        split
        · exact congrArg Except.ok (splitTables_completeJoins style _)
        · exact congrArg Except.ok (splitOther_completeJoins style _)

theorem splitComma_completeJoins (style : KeywordStyle) (place : Place) (t : Token) (ts : List Token) (s : Split)
    (hk : t.kind = .comma) (hfollow : JoinsFollow (t :: ts)) (h : splitComma place (t :: ts) = .ok s) :
    splitComma (place.map (fullHead style)) (completeJoins style (t :: ts)) =
      .ok (Split.through (completeJoins style) s) := by
  obtain ⟨depth, parent?⟩ := place
  cases parent? with
  | none => cases h
  | some parent =>
    simp only [splitComma, Place.map, Option.map_some] at h ⊢
    split at h
    · next hd =>
      rw [if_pos hd]
      exact splitTableExpression_completeJoins style t ts s hk hfollow h
    · next hd =>
      rw [if_neg hd]
      cases h
      exact congrArg Except.ok (splitItem_completeJoins style t ts (isJoinWord_of_kind (by simp [hk])))

/-- Joins can be completed before a split or after it, if the words of each join follow each other, a name or
a right bracket. -/
theorem split_completeJoins (style : KeywordStyle) (place : Place) (ts : List Token) (s : Split)
    (hfollow : JoinsFollow ts) (hname : nameAfterWith ts = ts)
    (hfull : nameAfterWith (completeJoins style ts) = completeJoins style ts) (h : split place ts = .ok s) :
    split (place.map (fullHead style)) (completeJoins style ts) = .ok (Split.through (completeJoins style) s) := by
  cases ts with
  | nil =>
    cases h
    rfl
  | cons t ts =>
    have hother (hk : t.kind ≠ .keyword) : completeJoins style (t :: ts) = t :: completeJoins style ts :=
      completeJoins_cons style (isJoinWord_of_kind hk) ts
    cases hk : t.kind with
    | keyword | function =>
      have hreserved : t.kind.isReserved = true := by rw [hk]; rfl
      obtain ⟨us, hus⟩ : ∃ us, completeJoins style (t :: ts) = fullHead style t :: us := by
        have hhead := head?_completeJoins style (t :: ts)
        exact List.head?_eq_some_iff.1 hhead
      have hfirst : (fullHead style t).kind.isReserved = true := by
        rcases fullHead_cases style t with hsame | ⟨-, hjoin⟩
        · rw [hsame, hreserved]
        · rw [(isJoinWord_iff.1 hjoin).1]
          rfl
      have hclause := splitClause_completeJoins style t ts s hreserved hfollow
        (by rw [split_of_reserved place t ts hreserved, splitReserved_eq hreserved hname] at h; exact h)
      rw [hus] at hfull hclause ⊢
      rw [split_of_reserved _ _ _ hfirst, splitReserved_eq hfirst hfull, hclause]
    | comma =>
      have hcomma := splitComma_completeJoins style place t ts s hk hfollow (by simpa only [split, hk] using h)
      rw [hother (by simp [hk])] at hcomma ⊢
      simpa only [split, hk] using hcomma
    | identifier =>
      have hnamed := splitName_completeJoins style place t ts s (isJoinWord_of_kind (by simp [hk]))
        (by simpa only [split, hk] using h)
      rw [hother (by simp [hk])] at hnamed ⊢
      simpa only [split, hk] using hnamed
    | leftBracket | operator =>
      simp only [split, hk] at h
      cases h
      rw [hother (by simp [hk])]
      simp only [split, hk]
      rw [← hother (by simp [hk]), splitOther_completeJoins]
    | rightBracket =>
      simp only [split, hk] at h
      cases h
      rw [hother (by simp [hk])]
      simp only [split, hk]
      rw [← hother (by simp [hk]), ← splitRightBracket_completeJoins style _ t ts (isJoinWord_of_kind (by simp [hk]))]
      rfl
    | dot | comment | whitespace | unknown | other =>
      have hafter := after_completeJoins style 1 (t :: ts) (by simp [isJoinWord_of_kind, hk])
      simp only [split, hk] at h
      cases h
      rw [hother (by simp [hk])] at hafter ⊢
      simp only [split, hk, hafter]

/-! ## Lines that are too long -/

theorem splitLongBrackets_completeJoins (style : KeywordStyle) (ts : List Token) :
    splitLongBrackets (completeJoins style ts) = Split.through (completeJoins style) (splitLongBrackets ts) := by
  have hblind : Blind fun t => t.key == "(" && t.kind == .leftBracket := blind_of_kind fun t ht => by simp [ht]
  unfold splitLongBrackets
  rw [completeJoins, cutFirst_completeFrom hblind]
  cases hcut : cutFirst (fun t => t.key == "(" && t.kind == .leftBracket) ts with
  | none => rfl
  | some cut =>
    obtain ⟨before, rest⟩ := cut
    obtain ⟨left, body, hrest, hleft⟩ := cutFirst_found _ _ _ hcut
    simp only at hrest
    subst hrest
    have hbracket := hblind.not hleft
    have hclose := cutClose_completeFrom style none body
    simp only [Option.map_some, completeCut, completeJoins_cons style hbracket, List.drop_one, List.tail_cons,
      List.take_succ_cons, List.take_zero]
    rw [completeJoins, hclose]
    cases cutClose body with
    | none => rfl
    | some inner =>
      simp [completeCut, Split.through, completeJoins_append style _ hbracket, completeJoins_nil,
        ← completeJoins.eq_def, items_completeJoins]

theorem splitLong_completeJoins (style : KeywordStyle) (ts : List Token) (s : Split) (hfollow : JoinsFollow ts)
    (h : splitLong ts = .ok s) :
    splitLong (completeJoins style ts) = .ok (Split.through (completeJoins style) s) := by
  cases ts with
  | nil => cases h
  | cons t ts =>
    obtain ⟨us, hus⟩ : ∃ us, completeJoins style (t :: ts) = fullHead style t :: us :=
      List.head?_eq_some_iff.1 (head?_completeJoins style (t :: ts))
    have hwhen : (fullHead style t).key = "WHEN" ↔ t.key = "WHEN" := by
      rcases fullHead_cases style t with hsame | ⟨ht, hjoin⟩
      · rw [hsame]
      · have hwords : "WHEN" ∉ joinWords := by decide
        exact iff_of_false (fun hw => hwords (hw ▸ (isJoinWord_iff.1 hjoin).2))
          (fun hw => hwords (hw ▸ (isJoinWord_iff.1 ht).2))
    have hlong (result : Except Fault Split) (hresult : (if t.key = "WHEN" then splitLongWhen (completeJoins style (t :: ts))
        else .ok (splitLongBrackets (completeJoins style (t :: ts)))) = result) :
        splitLong (completeJoins style (t :: ts)) = result := by
      rw [← hresult, hus]
      simp only [splitLong, hwhen]
    apply hlong
    simp only [splitLong] at h
    split at h
    · next hw =>
      rw [if_pos hw]
      have hblind := blind_isKeyword (w := "THEN") (by decide)
      unfold splitLongWhen at h ⊢
      rw [completeJoins, cutTop_completeFrom hblind]
      cases hcut : cutTop (fun t => t.isKeyword "THEN") 0 (t :: ts) with
      | none =>
        rw [hcut] at h
        cases h
      | some cut =>
        obtain ⟨before, rest⟩ := cut
        obtain ⟨mark, after, hrest, hmark⟩ := cutTop_found _ _ _ _ hcut
        have hdivides := (cutTop_divides _ _ _ _ hcut).1
        simp only at hrest hdivides
        subst hrest
        rw [hcut] at h
        cases h
        have hfree := hblind.not hmark
        have hbehind : JoinsFollow (mark :: after) := hfollow.piece ⟨before, [], by simpa using hdivides⟩
        have hkind : mark.kind = .keyword := by
          simp only [Token.isKeyword, Bool.and_eq_true, beq_iff_eq] at hmark
          exact hmark.2
        have hterms := terms_completeJoins style hbehind.tail
          (hbehind.next hfree (by simp [hkind]) (by simp [hkind]))
        simp [completeCut, Split.through, completeJoins_cons style hfree, completeJoins_append style _ hfree,
          completeJoins_nil, ← completeJoins.eq_def, hterms]
    · next hw =>
      rw [if_neg hw]
      cases h
      exact congrArg Except.ok (splitLongBrackets_completeJoins style _)

end SqlStyle.Layout
