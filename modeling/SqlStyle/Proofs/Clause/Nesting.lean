import Mathlib.Algebra.Ring.Int.Defs
import Mathlib.Data.List.Infix
import SqlStyle.Proofs.Clause.Terms

/-! Where the bracket that closes a query and the end of a case are found. A cut falls at the first token
outside all brackets that has the property looked for (`head_cutTop`), so what stands in balanced brackets
is passed over (`cutTop_eq_some_iff`). A table expression is cut at its own right bracket, whatever its query
holds; behind `WITH` the bracket goes below with the query, and behind a comma it follows the query
(`splitWith_splitComma`). A case is cut at its own `END` only if no other case begins or ends outside the
brackets of its branches (`splitCase_iff`). -/
namespace SqlStyle.Clause
set_option autoImplicit false

/-! ## Balanced tokens -/

/-- The tokens balance what `level` counts: as much is closed as is opened, and nothing before it is
open. -/
structure Balanced (level : Token → Int) (ts : List Token) : Prop where
  closed : (ts.map level).sum = 0
  nested : ∀ before, before <+: ts → 0 ≤ (before.map level).sum

instance (level : Token → Int) (ts : List Token) : Decidable (Balanced level ts) :=
  decidable_of_iff ((ts.map level).sum = 0 ∧ ∀ before ∈ ts.inits, 0 ≤ (before.map level).sum)
    ⟨fun h => ⟨h.1, fun before hb => h.2 before (List.mem_inits before ts |>.2 hb)⟩,
      fun h => ⟨h.closed, fun before hb => h.nested before (List.mem_inits before ts |>.1 hb)⟩⟩

theorem Balanced.append {level : Token → Int} {ts us : List Token} (hts : Balanced level ts)
    (hus : Balanced level us) : Balanced level (ts ++ us) := by
  refine ⟨?_, fun before hbefore => ?_⟩
  · rw [List.map_append, List.sum_append, hts.closed, hus.closed]
    rfl
  · rw [List.prefix_iff_eq_take.1 hbefore, List.take_append, List.map_append, List.sum_append]
    have hfirst := hts.nested _ (List.take_prefix before.length ts)
    have hsecond := hus.nested _ (List.take_prefix (before.length - ts.length) us)
    omega

theorem Balanced.singleton {level : Token → Int} {t : Token} (ht : level t = 0) : Balanced level [t] := by
  refine ⟨by simp [ht], fun before hbefore => ?_⟩
  rcases List.prefix_cons_iff.1 hbefore with rfl | ⟨rest, rfl, hrest⟩
  · simp
  · simp [List.prefix_nil.1 hrest, ht]

/-- Where `d` or more are open, the one that was opened as number `d` and not closed since is found. -/
theorem exists_opening {level : Token → Int} (hlevel : ∀ t, level t ≤ 1) (ts : List Token) (d : Int) (hd : 0 < d)
    (hle : d ≤ (ts.map level).sum) :
    ∃ outer opening inner, ts = outer ++ opening :: inner ∧ level opening = 1 ∧
      (outer.map level).sum + 1 = d ∧ ∀ before, before <+: inner → 0 ≤ (before.map level).sum := by
  induction ts using List.reverseRecOn with
  | nil =>
    simp only [List.map_nil, List.sum_nil] at hle
    omega
  | append_singleton ts t ih =>
    simp only [List.map_append, List.map_cons, List.map_nil, List.sum_append, List.sum_singleton] at hle
    by_cases hin : d ≤ (ts.map level).sum
    · obtain ⟨outer, opening, inner, rfl, hopening, houter, hinner⟩ := ih hin
      refine ⟨outer, opening, inner ++ [t], by simp, hopening, houter, fun before hbefore => ?_⟩
      rcases List.prefix_concat_iff.1 hbefore with rfl | hbefore
      · simp only [List.map_append, List.map_cons, List.map_nil, List.sum_append, List.sum_cons, List.sum_nil] at hle ⊢
        omega
      · exact hinner before hbefore
    · have hlast := hlevel t
      exact ⟨ts, t, [], rfl, by omega, by omega, by simp⟩

/-- The tokens at which no bracket is open, if `depth` brackets are open at the start. -/
def outside (depth : Int) : List Token → List Token
  | [] => []
  | t :: ts =>
    if depth + t.level = 0 then t :: outside (depth + t.level) ts else outside (depth + t.level) ts

theorem outside_append (depth : Int) (ts us : List Token) :
    outside depth (ts ++ us) = outside depth ts ++ outside (depth + (ts.map Token.level).sum) us := by
  induction ts generalizing depth with
  | nil => simp [outside]
  | cons t ts ih =>
    rw [List.cons_append, outside, outside, ih, List.map_cons, List.sum_cons, Int.add_assoc]
    split <;> rfl

theorem outside_eq_nil (depth : Int) (ts : List Token)
    (h : ∀ before, before <+: ts → 0 < depth + (before.map Token.level).sum) : outside depth ts = [] := by
  induction ts generalizing depth with
  | nil => rfl
  | cons t ts ih =>
    have hfirst := h [t] (by simp)
    rw [List.map_singleton, List.sum_singleton] at hfirst
    rw [outside, if_neg (by omega)]
    apply ih
    intro before hbefore
    have hmore := h (t :: before) ((List.prefix_cons_inj t).2 hbefore)
    rwa [List.map_cons, List.sum_cons, ← Int.add_assoc] at hmore

/-! ## Where cuts fall -/

theorem cutFirst_passed (p : Token → Bool) (ts : List Token) (cut : Cut) (h : cutFirst p ts = some cut) :
    ∀ t ∈ cut.1, p t = false := by
  induction ts generalizing cut with
  | nil => simp [cutFirst] at h
  | cons t ts ih =>
    simp only [cutFirst] at h
    split at h
    · cases h
      exact List.forall_mem_nil _
    · next hp =>
      obtain ⟨inner, hinner, rfl⟩ := Option.map_eq_some_iff.1 h
      exact List.forall_mem_cons.2 ⟨by simpa using hp, ih inner hinner⟩

theorem cutFirst_append (p : Token → Bool) (before rest : List Token) (t : Token)
    (hbefore : ∀ u ∈ before, p u = false) (ht : p t = true) :
    cutFirst p (before ++ t :: rest) = some (before, t :: rest) := by
  induction before with
  | nil => rw [List.nil_append, cutFirst, if_pos ht]
  | cons u before ih =>
    obtain ⟨hu, hbefore⟩ := List.forall_mem_cons.1 hbefore
    rw [List.cons_append, cutFirst, if_neg (by simp [hu]), ih hbefore]
    rfl

theorem head_cutTop (p : Token → Bool) (depth : Int) (ts : List Token) :
    (cutTop p depth ts).bind (fun cut => cut.2.head?) = (outside depth ts).find? p := by
  induction ts generalizing depth with
  | nil => rfl
  | cons t ts ih =>
    have hrest : ((cutTop p (depth + t.level) ts).map (Cut.cons t)).bind (fun cut => cut.2.head?) =
        (outside (depth + t.level) ts).find? p := by
      rw [← ih, Option.bind_map]
      rfl
    rw [cutTop, outside]
    by_cases hdepth : depth + t.level = 0
    · rw [if_pos hdepth, List.find?_cons]
      cases hp : p t with
      | true => simp [hdepth]
      | false => simpa using hrest
    · rw [if_neg hdepth, if_neg (fun h => hdepth h.1)]
      exact hrest

/-- The cut falls at a given token if it is looked for and outside all brackets, and none before it is. -/
theorem cutTop_eq_some_iff (p : Token → Bool) (depth : Int) (ts us : List Token) (t : Token) :
    cutTop p depth (ts ++ t :: us) = some (ts, t :: us) ↔
      (∀ u ∈ outside depth ts, p u = false) ∧ depth + (ts.map Token.level).sum + t.level = 0 ∧
        p t = true := by
  induction ts generalizing depth with
  | nil =>
    rw [List.nil_append, cutTop]
    by_cases ht : depth + t.level = 0 ∧ p t = true
    · simp [ht, outside]
    · rw [if_neg ht]
      refine iff_of_false ?_ fun h => ht (by simpa using h.2)
      intro hcut
      obtain ⟨inner, -, hinner⟩ := Option.map_eq_some_iff.1 hcut
      exact List.cons_ne_nil t inner.1 (congrArg Prod.fst hinner)
  | cons v ts ih =>
    rw [List.cons_append, cutTop, outside, List.map_cons, List.sum_cons, ← Int.add_assoc]
    by_cases hv : depth + v.level = 0 ∧ p v = true
    · rw [if_pos hv, if_pos hv.1]
      refine iff_of_false (by simp) fun h => ?_
      have hfalse := h.1 v List.mem_cons_self
      rw [hv.2] at hfalse
      cases hfalse
    · have hcons : (cutTop p (depth + v.level) (ts ++ t :: us)).map (Cut.cons v) =
            some (v :: ts, t :: us) ↔
          cutTop p (depth + v.level) (ts ++ t :: us) = some (ts, t :: us) := by
        simp [Cut.cons]
      have hout : (∀ u ∈ (if depth + v.level = 0 then v :: outside (depth + v.level) ts
            else outside (depth + v.level) ts), p u = false) ↔
          ∀ u ∈ outside (depth + v.level) ts, p u = false := by
        split
        · next hdepth =>
          have hp : p v = false := by simpa [hdepth] using hv
          rw [List.forall_mem_cons, and_iff_right hp]
        · exact Iff.rfl
      rw [if_neg hv, hcons, ih, hout]

theorem isKeywordOf_cons (w : String) (ws : List String) (t : Token) :
    t.isKeywordOf (w :: ws) = (t.isKeyword w || t.isKeywordOf ws) :=
  List.any_cons

/-- A clause ends at a given word outside all brackets if no such word stands there before it, and the
clause does not begin once more. -/
theorem cutClause_eq_some_iff (own : String) (stops : List String) (ts us : List Token) (t : Token) :
    cutClause own stops (ts ++ t :: us) = some (ts, t :: us) ↔
      (∀ u ∈ outside 0 ts, u.isKeywordOf (own :: stops) = false) ∧
        (ts.map Token.level).sum + t.level = 0 ∧ t.isKeywordOf stops = true ∧ t.isKeyword own = false := by
  rw [cutClause, Option.filter_eq_some_iff, cutTop_eq_some_iff, Int.zero_add]
  simp only [isKeywordOf_cons, List.head?_cons, Option.any_some, Bool.not_eq_true', Bool.or_eq_true]
  constructor
  · rintro ⟨⟨hbefore, hdepth, hstop⟩, hown⟩
    exact ⟨hbefore, hdepth, hstop.resolve_left (by simp [hown]), hown⟩
  · rintro ⟨hbefore, hdepth, hstop, hown⟩
    exact ⟨⟨hbefore, hdepth, .inr hstop⟩, hown⟩

theorem cutClause_eq_none {own : String} {stops : List String} {ts : List Token} {t : Token}
    (hfirst : (outside 0 ts).find? (fun u => u.isKeywordOf (own :: stops)) = some t)
    (hown : t.isKeyword own = true) : cutClause own stops ts = none := by
  simp only [isKeywordOf_cons] at hfirst
  rw [← head_cutTop, Option.bind_eq_some_iff] at hfirst
  obtain ⟨cut, hcut, hhead⟩ := hfirst
  rw [cutClause, hcut, Option.filter_some, hhead, Option.any_some, hown]
  rfl

/-! ## Table expressions -/

/-- The bracket that closes a query is the one behind it, whatever brackets the query holds. -/
theorem cutClose_append (query rest : List Token) (bracket : Token) (hquery : Balanced Token.level query)
    (hbracket : bracket.kind = .rightBracket) :
    cutClose (query ++ bracket :: rest) = some (query, bracket :: rest) := by
  have hinside : outside 1 query = [] := by
    apply outside_eq_nil
    intro before hbefore
    have := hquery.nested before hbefore
    omega
  apply (cutTop_eq_some_iff _ 1 query rest bracket).2
  rw [hinside, hquery.closed]
  refine ⟨by simp, ?_, rfl⟩
  simp [Token.level, hbracket]

/-- The first table expression and a further one are cut at the same two brackets. Behind `WITH` the bracket
that closes the query goes below with it; behind a comma it follows. -/
theorem splitWith_splitComma (place : Place) (parent : Parent) (first comma name as opening closing : Token)
    (query rest : List Token) (hplace : place.parent? = some parent) (hdepth : parent.depth = 0)
    (hcomma : comma.kind = .comma) (hname : name.kind = .identifier) (has : as.isKeyword "AS" = true)
    (hopening : opening.kind = .leftBracket) (hclosing : closing.kind = .rightBracket)
    (hquery : Balanced Token.level query) :
    splitWith (first :: name :: as :: opening :: (query ++ closing :: rest)) =
        .ok ⟨[first, name, as, opening], [query ++ [closing]], rest⟩ ∧
      splitComma place (comma :: name :: as :: opening :: (query ++ closing :: rest)) =
        .ok ⟨[comma, name, as, opening], [query], closing :: rest⟩ := by
  have hcut := cutClose_append query rest closing hquery hclosing
  constructor
  · simp [splitWith, hname, has, hopening, hcut]
  · simp [splitComma, hplace, hdepth, splitTableExpression, hcomma, hname, has, hopening, splitBody, hcut]

/-- The head of a table expression, from the token before its name to the bracket that opens its query. -/
def tableHead (first : Token) : List Token :=
  [first, ⟨.identifier, "x", none⟩, ⟨.keyword, "as", none⟩, ⟨.leftBracket, "(", none⟩]

def queryOfCall : List Token :=
  [⟨.keyword, "select", none⟩, ⟨.function, "count", none⟩, ⟨.leftBracket, "(", none⟩, ⟨.keyword, "*", none⟩,
    ⟨.rightBracket, ")", none⟩]

theorem splitWith_splitComma_of_call :
    Balanced Token.level queryOfCall ∧
      splitWith (tableHead ⟨.keyword, "with", none⟩ ++ queryOfCall ++
          [⟨.rightBracket, ")", none⟩, ⟨.identifier, "y", none⟩]) =
        .ok ⟨tableHead ⟨.keyword, "with", none⟩, [queryOfCall ++ [⟨.rightBracket, ")", none⟩]],
          [⟨.identifier, "y", none⟩]⟩ ∧
      splitComma ⟨1, some ⟨0, none⟩⟩ (tableHead ⟨.comma, ",", none⟩ ++ queryOfCall ++
          [⟨.rightBracket, ")", none⟩, ⟨.identifier, "y", none⟩]) =
        .ok ⟨tableHead ⟨.comma, ",", none⟩, [queryOfCall],
          [⟨.rightBracket, ")", none⟩, ⟨.identifier, "y", none⟩]⟩ := by
  have hquery : Balanced Token.level queryOfCall := by decide +kernel
  exact ⟨hquery, splitWith_splitComma ⟨1, some ⟨0, none⟩⟩ ⟨0, none⟩ ⟨.keyword, "with", none⟩
    ⟨.comma, ",", none⟩ _ _ _ _ _ _ rfl rfl rfl rfl (by decide +kernel) rfl rfl hquery⟩

/-- The first table expression has more below it than a further one, and less behind it. -/
theorem splitWith_splitComma_of_name :
    let query : List Token := [⟨.identifier, "a", none⟩, ⟨.rightBracket, ")", none⟩]
    let first := splitWith (tableHead ⟨.keyword, "with", none⟩ ++ query)
    let further := splitComma ⟨1, some ⟨0, none⟩⟩ (tableHead ⟨.comma, ",", none⟩ ++ query)
    first.map Split.children ≠ further.map Split.children ∧
      first.map Split.sibling ≠ further.map Split.sibling := by
  decide +kernel

/-! ## Cases -/

theorem level_of_isKeyword {w : String} {t : Token} (h : t.isKeyword w = true) : t.level = 0 := by
  rw [Token.isKeyword, Bool.and_eq_true, beq_iff_eq, beq_iff_eq] at h
  rw [Token.level, h.2]

section Case
variable {before branches : List Token} {branch : Token}
  (hbefore : ∀ t ∈ before, t.isKeyword "WHEN" = false) (hbranch : branch.isKeyword "WHEN" = true)
include hbefore hbranch

/-- A case is split before its first `WHEN`, and what follows where the case ends. -/
theorem splitCase_of_some {inside rest : List Token}
    (h : cutClause "CASE" ["END"] (branch :: branches) = some (inside, rest)) :
    splitCase (before ++ branch :: branches) = .ok ⟨before, [inside], rest⟩ := by
  rw [splitCase, cutFirst_append _ before branches branch hbefore hbranch]
  simp [h]

theorem splitCase_of_none (h : cutClause "CASE" ["END"] (branch :: branches) = none) :
    splitCase (before ++ branch :: branches) = .ok { own := before, children := [branch :: branches] } := by
  rw [splitCase, cutFirst_append _ before branches branch hbefore hbranch]
  simp [h]

theorem splitCase_eq_ok_iff (inside rest : List Token) (hrest : rest ≠ []) :
    splitCase (before ++ branch :: branches) = .ok ⟨before, [inside], rest⟩ ↔
      cutClause "CASE" ["END"] (branch :: branches) = some (inside, rest) := by
  constructor
  · intro h
    cases hcut : cutClause "CASE" ["END"] (branch :: branches) with
    | none =>
      rw [splitCase_of_none hbefore hbranch hcut] at h
      cases h
      exact absurd rfl hrest
    | some cut =>
      rw [splitCase_of_some hbefore hbranch hcut] at h
      cases h
      rfl
  · exact splitCase_of_some hbefore hbranch

end Case

/-- A case is cut at its own `END` exactly if no `CASE` and no `END` stands outside the brackets of its
branches. If some do and the first of them is `CASE`, then all that follows goes below with the
branches. -/
theorem splitCase_iff (head branch ending : Token) (subject body rest : List Token)
    (hhead : head.isKeyword "CASE" = true) (hbranch : branch.isKeyword "WHEN" = true)
    (hending : ending.isKeyword "END" = true) (hsubject : ∀ t ∈ subject, t.isKeyword "WHEN" = false)
    (hbody : Balanced Token.level body) :
    (splitCase (head :: subject ++ branch :: (body ++ ending :: rest)) =
        .ok ⟨head :: subject, [branch :: body], ending :: rest⟩ ↔
      ∀ t ∈ outside 0 body, t.isKeywordOf ["CASE", "END"] = false) ∧
    (∀ t ∈ (outside 0 body).find? (fun t => t.isKeywordOf ["CASE", "END"]), t.isKeyword "CASE" = true →
      splitCase (head :: subject ++ branch :: (body ++ ending :: rest)) =
        .ok { own := head :: subject, children := [branch :: (body ++ ending :: rest)] }) := by
  have hbefore : ∀ t ∈ head :: subject, t.isKeyword "WHEN" = false :=
    List.forall_mem_cons.2 ⟨isKeyword_of_ne hhead (by decide), hsubject⟩
  have hnot : branch.isKeywordOf ["CASE", "END"] = false := by
    simp [Token.isKeywordOf, isKeyword_of_ne hbranch]
  have hbranches : outside 0 (branch :: body) = branch :: outside 0 body := by
    simp [outside, level_of_isKeyword hbranch]
  constructor
  · have hdepth : ((branch :: body).map Token.level).sum + ending.level = 0 := by
      simp [level_of_isKeyword hbranch, level_of_isKeyword hending, hbody.closed]
    have hends : ending.isKeywordOf ["END"] = true ∧ ending.isKeyword "CASE" = false :=
      ⟨by simp [Token.isKeywordOf, hending], isKeyword_of_ne hending (by decide)⟩
    rw [splitCase_eq_ok_iff hbefore hbranch _ _ (List.cons_ne_nil ending rest), ← List.cons_append,
      cutClause_eq_some_iff, hbranches, List.forall_mem_cons, and_iff_right hnot,
      and_iff_left ⟨hdepth, hends⟩]
  · intro t ht hcase
    have hfirst : (outside 0 (branch :: (body ++ ending :: rest))).find?
        (fun u => u.isKeywordOf ["CASE", "END"]) = some t := by
      rw [← List.cons_append, outside_append, hbranches, List.find?_append, List.find?_cons, hnot]
      simp [Option.mem_def.1 ht]
    exact splitCase_of_none hbefore hbranch (cutClause_eq_none hfirst hcase)

/-- The branches of a case with another case in brackets. -/
def bracketedCase : List Token :=
  [⟨.identifier, "a", none⟩, ⟨.keyword, "then", none⟩, ⟨.leftBracket, "(", none⟩, ⟨.keyword, "case", none⟩,
    ⟨.keyword, "when", none⟩, ⟨.identifier, "b", none⟩, ⟨.keyword, "then", none⟩, ⟨.identifier, "c", none⟩,
    ⟨.keyword, "end", none⟩, ⟨.rightBracket, ")", none⟩]

/-- The branches of a case with another case in them. -/
def nestedCase : List Token :=
  [⟨.identifier, "a", none⟩, ⟨.keyword, "then", none⟩, ⟨.keyword, "case", none⟩, ⟨.keyword, "when", none⟩,
    ⟨.identifier, "b", none⟩, ⟨.keyword, "then", none⟩, ⟨.identifier, "c", none⟩, ⟨.keyword, "end", none⟩]

theorem splitCase_of_bracketed :
    Balanced Token.level bracketedCase ∧
      splitCase ([⟨.keyword, "case", none⟩, ⟨.identifier, "x", none⟩] ++ ⟨.keyword, "when", none⟩ ::
          (bracketedCase ++ ⟨.keyword, "end", none⟩ :: [⟨.identifier, "y", none⟩])) =
        .ok ⟨[⟨.keyword, "case", none⟩, ⟨.identifier, "x", none⟩],
          [⟨.keyword, "when", none⟩ :: bracketedCase],
          [⟨.keyword, "end", none⟩, ⟨.identifier, "y", none⟩]⟩ := by
  have hbody : Balanced Token.level bracketedCase := by decide +kernel
  exact ⟨hbody, (splitCase_iff _ _ _ [⟨.identifier, "x", none⟩] _ _ (by decide +kernel) (by decide +kernel)
    (by decide +kernel) (by decide +kernel) hbody).1.2 (by decide +kernel)⟩

/-- The end of a case that follows another case is not found. -/
theorem splitCase_of_nested :
    Balanced Token.level nestedCase ∧ Balanced caseLevel nestedCase ∧
      splitCase ([⟨.keyword, "case", none⟩] ++ ⟨.keyword, "when", none⟩ ::
          (nestedCase ++ ⟨.keyword, "end", none⟩ :: [⟨.identifier, "y", none⟩])) ≠
        .ok ⟨[⟨.keyword, "case", none⟩], [⟨.keyword, "when", none⟩ :: nestedCase],
          [⟨.keyword, "end", none⟩, ⟨.identifier, "y", none⟩]⟩ := by
  decide +kernel

end SqlStyle.Clause
