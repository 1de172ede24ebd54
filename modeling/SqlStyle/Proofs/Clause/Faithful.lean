import SqlStyle.Clause.Rules

/-! What splitting looks at. A split reads the kinds of the tokens, the words by which they are compared, and
whether a word is a semicolon; so a map of tokens that keeps these can be made before a split or after
it (`Faithful.split`, `Faithful.splitLong`). A name behind `WITH` that is a reserved word is left aside: its
kind changes while the run is split. -/
namespace SqlStyle.Clause
set_option autoImplicit false

/-- The map keeps all that splitting and measuring a line look at. -/
structure Faithful (g : Token → Token) : Prop where
  kind : ∀ t, (g t).kind = t.kind
  key : ∀ t, (g t).key = t.key
  length : ∀ t, (g t).length = t.length
  semicolon : ∀ t, ((g t).word == ";") = (t.word == ";")

def mapCut (g : Token → Token) (cut : Cut) : Cut :=
  (cut.1.map g, cut.2.map g)

namespace Faithful
variable {g : Token → Token} (hg : Faithful g)
include hg

/-! ## Words -/

theorem isKeyword (w : String) (t : Token) : (g t).isKeyword w = t.isKeyword w := by
  rw [Token.isKeyword, Token.isKeyword, hg.key, hg.kind]

theorem isKeywordOf (ws : List String) (t : Token) : (g t).isKeywordOf ws = t.isKeywordOf ws := by
  rw [Token.isKeywordOf, Token.isKeywordOf]
  congr 1
  funext w
  exact hg.isKeyword w t

theorem level (t : Token) : (g t).level = t.level := by
  rw [Token.level, Token.level, hg.kind]

theorem caseLevel (t : Token) : Clause.caseLevel (g t) = Clause.caseLevel t := by
  rw [Clause.caseLevel, Clause.caseLevel, hg.isKeyword, hg.isKeyword]

theorem isJoinCondition (t : Token) : Clause.isJoinCondition (g t) = Clause.isJoinCondition t := by
  rw [Clause.isJoinCondition, Clause.isJoinCondition, hg.isKeyword, hg.key, hg.kind]

/-! ## Cuts -/

omit hg in
theorem map_cons_mapCut (t : Token) (cut? : Option Cut) :
    (cut?.map (mapCut g)).map (Cut.cons (g t)) = (cut?.map (Cut.cons t)).map (mapCut g) := by
  cases cut? <;> rfl

omit hg in
theorem cutFirst (p : Token → Bool) (hp : ∀ t, p (g t) = p t) (ts : List Token) :
    Clause.cutFirst p (ts.map g) = (Clause.cutFirst p ts).map (mapCut g) := by
  induction ts with
  | nil => rfl
  | cons t ts ih =>
    rw [List.map_cons, Clause.cutFirst, Clause.cutFirst, hp, ih, map_cons_mapCut]
    split <;> rfl

theorem cutTop (p : Token → Bool) (hp : ∀ t, p (g t) = p t) (depth : Int) (ts : List Token) :
    Clause.cutTop p depth (ts.map g) = (Clause.cutTop p depth ts).map (mapCut g) := by
  induction ts generalizing depth with
  | nil => rfl
  | cons t ts ih =>
    rw [List.map_cons, Clause.cutTop, Clause.cutTop, hp, hg.level, ih, map_cons_mapCut]
    split <;> rfl

theorem cutLast (p : Token → Bool) (hp : ∀ t, p (g t) = p t) (depth : Int) (ts : List Token) :
    Clause.cutLast p depth (ts.map g) = (Clause.cutLast p depth ts).map (mapCut g) := by
  induction ts generalizing depth with
  | nil => rfl
  | cons t ts ih =>
    rw [List.map_cons, Clause.cutLast, Clause.cutLast, hp, hg.level, ih]
    cases Clause.cutLast p (depth + t.level) ts with
    | some cut => rfl
    | none =>
      simp only [Option.map_none]
      split <;> rfl

theorem cutClose (ts : List Token) :
    Clause.cutClose (ts.map g) = (Clause.cutClose ts).map (mapCut g) :=
  hg.cutTop _ (fun _ => rfl) 1 ts

omit hg in
theorem head?_map_any (p : Token → Bool) (hp : ∀ t, p (g t) = p t) (ts : List Token) :
    (ts.map g).head?.any p = ts.head?.any p := by
  cases ts with
  | nil => rfl
  | cons t ts => exact hp t

theorem cutClause (own : String) (stops : List String) (ts : List Token) :
    Clause.cutClause own stops (ts.map g) = (Clause.cutClause own stops ts).map (mapCut g) := by
  have hp : ∀ t, ((g t).isKeyword own || (g t).isKeywordOf stops) =
      (t.isKeyword own || t.isKeywordOf stops) := by
    intro t
    rw [hg.isKeyword, hg.isKeywordOf]
  rw [Clause.cutClause, Clause.cutClause, hg.cutTop _ hp, Option.filter_map]
  congr 2
  funext cut
  rw [Function.comp_apply, mapCut, head?_map_any _ (hg.isKeyword own)]

theorem cutWhen (depth cases : Int) (ts : List Token) :
    Clause.cutWhen depth cases (ts.map g) = (Clause.cutWhen depth cases ts).map (mapCut g) := by
  induction ts generalizing depth cases with
  | nil => rfl
  | cons t ts ih =>
    have htop : ∀ d : Int, topCaseLevel d (g t) = topCaseLevel d t := by
      intro d
      rw [topCaseLevel, topCaseLevel, hg.caseLevel]
    simp only [List.map_cons, Clause.cutWhen, hg.level, htop, hg.isKeyword, ih, map_cons_mapCut]
    split <;> rfl

theorem cutBefore (stops : List String) (ts : List Token) :
    Clause.cutBefore stops (ts.map g) = (Clause.cutBefore stops ts).map (mapCut g) := by
  induction stops with
  | nil => rfl
  | cons w stops ih =>
    rw [Clause.cutBefore] at ih ⊢
    rw [Clause.cutBefore] at ih ⊢
    rw [List.findSome?_cons, List.findSome?_cons, ih, cutFirst _ (hg.isKeyword w), Option.filter_map]
    have hlength : ((fun cut : Cut => decide (1 < cut.2.length)) ∘ mapCut g) =
        fun cut : Cut => decide (1 < cut.2.length) := by
      funext cut
      simp [mapCut]
    rw [hlength]
    cases (Clause.cutFirst (fun t => t.isKeyword w) ts).filter fun cut => decide (1 < cut.2.length) <;> rfl

/-! ## Parts -/

theorem itemsFrom (depth : Int) (cur ts : List Token) :
    Clause.itemsFrom depth (cur.map g) (ts.map g) = (Clause.itemsFrom depth cur ts).map (List.map g) := by
  induction ts generalizing depth cur with
  | nil =>
    rw [List.map_nil, Clause.itemsFrom, Clause.itemsFrom, List.isEmpty_map]
    split <;> rfl
  | cons t ts ih =>
    have hgrown := ih (depth + t.level) (cur ++ [t])
    have hnext := ih (depth + t.level) [t]
    rw [List.map_append, List.map_singleton] at hgrown
    rw [List.map_singleton] at hnext
    rw [List.map_cons, Clause.itemsFrom, Clause.itemsFrom, hg.kind, hg.level, hgrown, hnext]
    split <;> rfl

theorem items (ts : List Token) : Clause.items (ts.map g) = (Clause.items ts).map (List.map g) :=
  hg.itemsFrom 0 [] ts

theorem termsFrom (depth cases : Int) (pending : Bool) (cur ts : List Token) :
    Clause.termsFrom depth cases pending (cur.map g) (ts.map g) =
      (Clause.termsFrom depth cases pending cur ts).map (List.map g) := by
  induction ts generalizing depth cases pending cur with
  | nil =>
    rw [List.map_nil, Clause.termsFrom, Clause.termsFrom, List.length_map]
    split <;> rfl
  | cons t ts ih =>
    have hgrown := fun d c b => ih d c b (cur ++ [t])
    have hnext := fun d c b => ih d c b [t]
    have hstart := fun d c b => ih d c b []
    simp only [List.map_append, List.map_cons, List.map_nil] at hgrown hnext hstart
    simp only [List.map_cons, Clause.termsFrom, hg.kind, hg.level, hg.caseLevel, hg.isKeyword,
      hg.isKeywordOf, hgrown, hnext, hstart]
    split
    · rfl
    · split
      · rfl
      · split
        · rfl
        · split <;> rfl

theorem terms (ts : List Token) : Clause.terms (ts.map g) = (Clause.terms ts).map (List.map g) :=
  hg.termsFrom 0 0 false [] ts

end Faithful

/-! ## Splits -/

def Split.map (g : Token → Token) (s : Split) : Split :=
  ⟨s.own.map g, s.children.map (List.map g), s.sibling.map g⟩

def Split.through (f : List Token → List Token) (s : Split) : Split :=
  ⟨f s.own, s.children.map f, f s.sibling⟩

theorem Split.through_whole {f : List Token → List Token} {ts : List Token} (h : f ts = ts) (hnil : f [] = []) :
    Split.through f (.whole ts) = .whole ts := by
  rw [Split.through, Split.whole, h, hnil]
  rfl

theorem Split.map_after (g : Token → Token) (n : Nat) (ts : List Token) :
    (Split.after n ts).map g = .after n (ts.map g) := by
  simp [Split.map, Split.after, List.map_take, List.map_drop]

def Place.map (g : Token → Token) (place : Place) : Place :=
  ⟨place.depth, place.parent?.map fun parent => ⟨parent.depth, parent.head?.map g⟩⟩

namespace Faithful
variable {g : Token → Token} (hg : Faithful g)
include hg

theorem splitOther (ts : List Token) : Clause.splitOther (ts.map g) = (Clause.splitOther ts).map g := by
  have hp : ∀ t, ((g t).kind == .comma || (g t).kind == .comment) =
      (t.kind == .comma || t.kind == .comment) := by
    intro t
    rw [hg.kind]
  rw [Clause.splitOther, Clause.splitOther, hg.cutTop _ hp]
  cases Clause.cutTop (fun t => t.kind == .comma || t.kind == .comment) 0 ts with
  | none => rfl
  | some cut => simp [mapCut, Split.map, List.map_take]

theorem splitTables (ts : List Token) : Clause.splitTables (ts.map g) = (Clause.splitTables ts).map g := by
  rw [Clause.splitTables, Clause.splitTables, hg.cutTop _ (hg.isKeywordOf joinWords)]
  cases Clause.cutTop (fun t => t.isKeywordOf joinWords) 0 ts with
  | none => exact hg.splitOther ts
  | some cut => rfl

theorem splitRightBracket (depth : Int) (ts : List Token) :
    Clause.splitRightBracket depth (ts.map g) = (Clause.splitRightBracket depth ts).map g := by
  rw [Clause.splitRightBracket, Clause.splitRightBracket, ← List.map_drop,
    head?_map_any _ hg.semicolon]
  split
  · rw [Split.map_after]
  · split
    · rw [Split.map_after]
    · rfl

theorem splitItem (ts : List Token) : Clause.splitItem (ts.map g) = (Clause.splitItem ts).map g := by
  have hp : ∀ t, ((g t).kind == .comma) = (t.kind == .comma) := fun t => by rw [hg.kind]
  rw [Clause.splitItem, Clause.splitItem, ← List.map_drop, hg.cutTop _ hp]
  cases Clause.cutTop (fun t => t.kind == .comma) 0 (ts.drop 1) with
  | none => rfl
  | some cut => simp [mapCut, Split.map, List.map_take]

theorem splitBody (head body : List Token) (missing : Split) :
    Clause.splitBody (head.map g) (body.map g) (missing.map g) =
      (Clause.splitBody head body missing).map g := by
  rw [Clause.splitBody, Clause.splitBody, hg.cutClose]
  cases Clause.cutClose body <;> rfl

theorem splitTableExpression (ts : List Token) (s : Split)
    (h : Clause.splitTableExpression ts = .ok s) :
    Clause.splitTableExpression (ts.map g) = .ok (s.map g) := by
  match ts with
  | [] | [_] | [_, _] =>
    cases h
    rfl
  | head :: name :: as :: rest =>
    simp only [Clause.splitTableExpression] at h
    simp only [List.map_cons, Clause.splitTableExpression, hg.kind, hg.isKeyword]
    split at h
    · cases h
    · next hhead =>
      rw [if_neg hhead]
      split at h
      · cases h
      · next hname =>
        rw [if_neg hname]
        split at h
        · next has =>
          rw [if_pos has]
          cases h
          exact congrArg Except.ok (Split.map_after g 2 (head :: name :: as :: rest)).symm
        · next has =>
          rw [if_neg has]
          match rest with
          | [] => cases h
          | bracket :: body =>
            simp only [List.map_cons, hg.kind] at h ⊢
            split at h
            · cases h
            · next hbracket =>
              rw [if_neg hbracket]
              cases h
              have hb := hg.splitBody [head, name, as, bracket] body
                (.after 1 (head :: name :: as :: bracket :: body))
              rw [Split.map_after] at hb
              exact congrArg Except.ok hb

theorem splitWith (ts : List Token) (s : Split) (h : Clause.splitWith ts = .ok s) :
    Clause.splitWith (ts.map g) = .ok (s.map g) := by
  match ts with
  | [] | [_] | [_, _] =>
    cases h
    rfl
  | head :: name :: as :: rest =>
    simp only [Clause.splitWith] at h
    simp only [List.map_cons, Clause.splitWith, hg.kind, hg.isKeyword]
    split at h
    · cases h
    · next hname =>
      rw [if_neg hname]
      split at h
      · next has =>
        rw [if_pos has]
        cases h
        exact congrArg Except.ok (Split.map_after g 2 (head :: name :: as :: rest)).symm
      · next has =>
        rw [if_neg has]
        match rest with
        | [] => cases h
        | bracket :: body =>
          simp only [List.map_cons, hg.kind] at h ⊢
          split at h
          · cases h
          · next hbracket =>
            rw [if_neg hbracket, hg.cutClose]
            cases h
            cases Clause.cutClose body with
            | none => rfl
            | some cut => simp [mapCut, Split.map, List.map_take]

theorem splitAs (ts : List Token) : Clause.splitAs (ts.map g) = (Clause.splitAs ts).map g := by
  match ts with
  | [] | [_] | [_, _] => rfl
  | head :: next :: third :: rest =>
    have hb := hg.splitBody [head, next] (third :: rest) (.after 2 (head :: next :: third :: rest))
    rw [Split.map_after] at hb
    simp only [List.map_cons, Clause.splitAs, hg.kind]
    split
    · exact hb
    · exact (Split.map_after g 2 (head :: next :: third :: rest)).symm

theorem splitDefinition (stops : List String) (ts : List Token) :
    Clause.splitDefinition stops (ts.map g) = (Clause.splitDefinition stops ts).map g := by
  rw [Clause.splitDefinition, Clause.splitDefinition, ← List.map_drop, hg.cutBefore]
  cases Clause.cutBefore stops (ts.drop 1) with
  | none => exact (Split.map_after g 1 ts).symm
  | some cut => simp [mapCut, Split.map, List.map_take]

theorem splitSelect (ts : List Token) : Clause.splitSelect (ts.map g) = (Clause.splitSelect ts).map g := by
  rw [Clause.splitSelect, Clause.splitSelect, ← List.map_drop, hg.cutClause]
  cases Clause.cutClause "SELECT" (stopsOf "SELECT" []) (ts.drop 1) with
  | none => simp [Split.map, List.map_take]
  | some cut => simp [mapCut, Split.map, List.map_take, hg.items]

theorem splitCondition (own : String) (others : List String) (ts : List Token) :
    Clause.splitCondition own others (ts.map g) = (Clause.splitCondition own others ts).map g := by
  rw [Clause.splitCondition, Clause.splitCondition, ← List.map_drop, hg.cutClause]
  cases Clause.cutClause own (stopsOf own others) (ts.drop 1) with
  | none => simp only [hg.terms, Split.map, List.map_take, Option.map_none, List.map_nil]
  | some cut => simp [mapCut, Split.map, List.map_take, hg.terms]

theorem isBracket (t : Token) : ((g t).kind == .leftBracket) = (t.kind == .leftBracket) := by
  rw [hg.kind]

theorem splitFrom (ts : List Token) : Clause.splitFrom (ts.map g) = (Clause.splitFrom ts).map g := by
  rw [Clause.splitFrom, Clause.splitFrom, ← List.map_drop, hg.cutClause,
    head?_map_any _ hg.isBracket]
  cases Clause.cutClause "FROM" (stopsOf "FROM" []) (ts.drop 1) with
  | none => simp [Split.map, List.map_take]
  | some cut => simp [mapCut, Split.map, List.map_take, List.map_drop]

theorem splitKeys (own : String) (ts : List Token) :
    Clause.splitKeys own (ts.map g) = (Clause.splitKeys own ts).map g := by
  rw [Clause.splitKeys, Clause.splitKeys, ← List.map_drop, ← List.map_drop, hg.cutClause,
    head?_map_any _ hg.isBracket]
  cases Clause.cutClause own (stopsOf own ["FROM"]) (ts.drop 1) with
  | none => simp [Split.map, List.map_take]
  | some cut => simp [mapCut, Split.map, List.map_take, List.map_drop]

omit hg in
theorem splitLimit (ts : List Token) : Clause.splitLimit (ts.map g) = (Clause.splitLimit ts).map g := by
  simp [Clause.splitLimit, Split.map, List.map_take]

theorem splitCase (ts : List Token) (s : Split) (h : Clause.splitCase ts = .ok s) :
    Clause.splitCase (ts.map g) = .ok (s.map g) := by
  rw [Clause.splitCase, cutFirst _ (hg.isKeyword "WHEN")]
  rw [Clause.splitCase] at h
  cases hc : Clause.cutFirst (fun t => t.isKeyword "WHEN") ts with
  | none =>
    rw [hc] at h
    cases h
  | some cut =>
    rw [hc] at h
    cases h
    simp only [Option.map_some, mapCut, hg.cutClause]
    cases Clause.cutClause "CASE" ["END"] cut.2 <;> rfl

theorem splitWhen (ts : List Token) : Clause.splitWhen (ts.map g) = (Clause.splitWhen ts).map g := by
  rw [Clause.splitWhen, Clause.splitWhen, ← List.map_drop, hg.cutWhen]
  cases Clause.cutWhen 0 1 (ts.drop 1) with
  | none => rfl
  | some cut => simp [mapCut, Split.map, List.map_take]

theorem joinTerms (ts : List Token) (parts : List (List Token)) (h : Clause.joinTerms ts = .ok parts) :
    Clause.joinTerms (ts.map g) = .ok (parts.map (List.map g)) := by
  match ts with
  | [] => cases h
  | t :: ts =>
    rw [Clause.joinTerms] at h
    cases h
    have ht := hg.terms (t :: ts)
    rw [List.map_cons] at ht ⊢
    rw [Clause.joinTerms, hg.key, ht]
    split <;> rfl

theorem splitJoined (head joined next : List Token) (s : Split)
    (h : Clause.splitJoined head joined next = .ok s) :
    Clause.splitJoined (head.map g) (joined.map g) (next.map g) = .ok (s.map g) := by
  unfold Clause.splitJoined at h ⊢
  rw [hg.cutLast _ hg.isJoinCondition]
  cases hc : Clause.cutLast Clause.isJoinCondition 0 joined with
  | none =>
    rw [hc] at h
    cases h
    simp only [Option.map_none, Split.map, List.map_append, List.map_nil]
  | some cut =>
    rw [hc] at h
    cases hj : Clause.joinTerms cut.2 with
    | error fault =>
      simp only [hj] at h
      cases h
    | ok parts =>
      simp only [hj] at h
      cases h
      simp only [Option.map_some, mapCut, hg.joinTerms cut.2 parts hj, Split.map, List.map_append]
      rfl

theorem splitJoin (ts : List Token) (s : Split) (h : Clause.splitJoin ts = .ok s) :
    Clause.splitJoin (ts.map g) = .ok (s.map g) := by
  unfold Clause.splitJoin at h ⊢
  rw [cutFirst _ (hg.isKeyword "JOIN")]
  cases hc : Clause.cutFirst (fun t => t.isKeyword "JOIN") ts with
  | none =>
    rw [hc] at h
    cases ts <;> cases h
  | some cut =>
    obtain ⟨before, rest⟩ := cut
    rw [hc] at h
    simp only at h
    simp only [Option.map_some, mapCut, ← List.map_drop, ← List.map_take, ← List.map_append,
      hg.cutTop _ (hg.isKeywordOf joinWords)]
    cases hj : Clause.cutTop (fun t => t.isKeywordOf joinWords) 0 (rest.drop 1) with
    | none =>
      rw [hj] at h
      exact hg.splitJoined _ _ [] s h
    | some inner =>
      rw [hj] at h
      exact hg.splitJoined _ _ _ s h

theorem splitClause (w : String) (ts : List Token) (s : Split) (h : Clause.splitClause w ts = .ok s) :
    Clause.splitClause w (ts.map g) = .ok (s.map g) := by
  have hclause := splitClause_cases w
  generalize Clause.splitClause w = f at h hclause ⊢
  cases hclause with
  | firstTable => exact hg.splitWith ts s h
  | branches => exact hg.splitCase ts s h
  | join => exact hg.splitJoin ts s h
  | definition => cases h; exact congrArg Except.ok (hg.splitDefinition _ ts)
  | named => cases h; exact congrArg Except.ok (hg.splitAs ts)
  | select => cases h; exact congrArg Except.ok (hg.splitSelect ts)
  | tables => cases h; exact congrArg Except.ok (hg.splitFrom ts)
  | condition => cases h; exact congrArg Except.ok (hg.splitCondition _ _ ts)
  | keys => cases h; exact congrArg Except.ok (hg.splitKeys _ ts)
  | limit => cases h; exact congrArg Except.ok (splitLimit ts)
  | branch => cases h; exact congrArg Except.ok (hg.splitWhen ts)
  | word => cases h; rfl

/-! ## Runs in their place -/

theorem nameAfterWith (ts : List Token) (hname : Clause.nameAfterWith ts = ts) :
    Clause.nameAfterWith (ts.map g) = ts.map g := by
  match ts with
  | [] | [_] | [_, _] => rfl
  | head :: name :: next :: rest =>
    simp only [List.map_cons, Clause.nameAfterWith, hg.kind, hg.key] at hname ⊢
    split
    · next hreserved =>
      rw [if_pos hreserved] at hname
      have hkind := congrArg Token.kind (List.cons.inj (List.cons.inj hname).2).1
      rw [← hkind] at hreserved
      simp [Kind.isReserved] at hreserved
    · rfl

theorem splitReserved (ts : List Token) (s : Split) (hname : Clause.nameAfterWith ts = ts)
    (h : Clause.splitReserved ts = .ok s) : Clause.splitReserved (ts.map g) = .ok (s.map g) := by
  unfold Clause.splitReserved at h ⊢
  rw [hname] at h
  rw [hg.nameAfterWith ts hname]
  match ts with
  | [] => cases h
  | head :: rest =>
    simp only [List.map_cons, hg.kind, hg.key] at h ⊢
    split at h
    · next hk =>
      rw [if_pos hk]
      exact hg.splitClause head.key (head :: rest) s h
    · cases h

theorem splitComma (place : Place) (ts : List Token) (s : Split)
    (h : Clause.splitComma place ts = .ok s) :
    Clause.splitComma (place.map g) (ts.map g) = .ok (s.map g) := by
  obtain ⟨depth, parent?⟩ := place
  cases parent? with
  | none => cases h
  | some parent =>
    simp only [Clause.splitComma, Place.map, Option.map_some] at h ⊢
    split at h
    · next hd =>
      rw [if_pos hd]
      exact hg.splitTableExpression ts s h
    · next hd =>
      rw [if_neg hd]
      cases h
      exact congrArg Except.ok (hg.splitItem ts)

theorem splitName (place : Place) (ts : List Token) (s : Split)
    (h : Clause.splitName place ts = .ok s) :
    Clause.splitName (place.map g) (ts.map g) = .ok (s.map g) := by
  obtain ⟨depth, parent?⟩ := place
  cases parent? with
  | none =>
    cases h
    exact congrArg Except.ok (Split.map_after g 1 ts).symm
  | some parent =>
    obtain ⟨above, head?⟩ := parent
    simp only [Clause.splitName, Place.map, Option.map_some] at h ⊢
    split at h
    · next hd =>
      rw [if_pos hd]
      cases h
      exact congrArg Except.ok (Split.map_after g 1 ts).symm
    · next hd =>
      rw [if_neg hd]
      cases head? with
      | none => cases h
      | some head =>
        simp only [Option.map_some, hg.isKeyword] at h ⊢
        cases h
        split
        · exact congrArg Except.ok (hg.splitTables ts)
        · exact congrArg Except.ok (hg.splitOther ts)

/-- A faithful map can be made before a split or after it, unless the split changes the kind of a name. -/
theorem split (place : Place) (ts : List Token) (s : Split) (hname : Clause.nameAfterWith ts = ts)
    (h : Clause.split place ts = .ok s) : Clause.split (place.map g) (ts.map g) = .ok (s.map g) := by
  match ts with
  | [] =>
    cases h
    rfl
  | head :: rest =>
    have hkind := hg.kind head
    cases hk : head.kind with
    | keyword | function =>
      have hreserved : head.kind.isReserved = true := by rw [hk]; rfl
      rw [split_of_reserved place head rest hreserved] at h
      rw [List.map_cons, split_of_reserved _ _ _ (by rw [hkind, hreserved])]
      exact hg.splitReserved _ s hname h
    | comma =>
      simp only [List.map_cons, Clause.split, hkind, hk] at h ⊢
      exact hg.splitComma place _ s h
    | identifier =>
      simp only [List.map_cons, Clause.split, hkind, hk] at h ⊢
      exact hg.splitName place _ s h
    | leftBracket | operator =>
      simp only [List.map_cons, Clause.split, hkind, hk] at h ⊢
      cases h
      exact congrArg Except.ok (hg.splitOther (head :: rest))
    | rightBracket =>
      simp only [List.map_cons, Clause.split, hkind, hk] at h ⊢
      cases h
      exact congrArg Except.ok (hg.splitRightBracket place.depth (head :: rest))
    | dot | comment | whitespace | unknown | other =>
      simp only [List.map_cons, Clause.split, hkind, hk] at h ⊢
      cases h
      exact congrArg Except.ok (Split.map_after g 1 (head :: rest)).symm

/-! ## Lines that are too long -/

theorem splitLongBrackets (ts : List Token) :
    Clause.splitLongBrackets (ts.map g) = (Clause.splitLongBrackets ts).map g := by
  have hp : ∀ t, ((g t).key == "(" && (g t).kind == .leftBracket) =
      (t.key == "(" && t.kind == .leftBracket) := by
    intro t
    rw [hg.key, hg.kind]
  unfold Clause.splitLongBrackets
  rw [cutFirst _ hp]
  cases Clause.cutFirst (fun t => t.key == "(" && t.kind == .leftBracket) ts with
  | none => rfl
  | some cut =>
    simp only [Option.map_some, mapCut, ← List.map_drop, hg.cutClose]
    cases Clause.cutClose (cut.2.drop 1) with
    | none => rfl
    | some inner => simp [mapCut, Split.map, List.map_take, hg.items]

theorem splitLong (ts : List Token) (s : Split) (h : Clause.splitLong ts = .ok s) :
    Clause.splitLong (ts.map g) = .ok (s.map g) := by
  match ts with
  | [] => cases h
  | head :: rest =>
    simp only [List.map_cons, Clause.splitLong, hg.key] at h ⊢
    rw [← List.map_cons]
    split at h
    · next hw =>
      rw [if_pos hw]
      unfold Clause.splitLongWhen at h ⊢
      rw [hg.cutTop _ (hg.isKeyword "THEN")]
      cases hc : Clause.cutTop (fun t => t.isKeyword "THEN") 0 (head :: rest) with
      | none =>
        rw [hc] at h
        cases h
      | some cut =>
        rw [hc] at h
        cases h
        simp only [Option.map_some, mapCut, ← List.map_drop, hg.terms, Split.map, List.map_append,
          List.map_take, List.map_nil]
    · next hw =>
      rw [if_neg hw]
      cases h
      exact congrArg Except.ok (hg.splitLongBrackets _)

end Faithful
end SqlStyle.Clause
