import SqlStyle.Lint.Window
import SqlStyle.Proofs.Clause.Nesting

/-! Where a condition is cut (`starts_terms`). The places are told by what surrounds a token: the brackets
around it, and among the tokens outside all brackets a case that has not ended and a `BETWEEN` that has no `AND`
yet. The counts that are kept while the condition is read say the same (`after_eq`), so the terms begin at
these places and at no others. -/
namespace SqlStyle.Clause
set_option autoImplicit false

/-! ## What surrounds a token -/

/-- A case begins among the tokens and does not end among them. -/
def InCase (top : List Token) : Prop :=
  ∃ outer head inner, top = outer ++ head :: inner ∧ head.isKeyword "CASE" = true ∧
    ∀ before, before <+: inner → 0 ≤ (before.map caseLevel).sum

/-- A `BETWEEN` among the tokens has no `AND` behind it. -/
def Waiting (top : List Token) : Prop :=
  ∃ outer head inner, top = outer ++ head :: inner ∧ head.isKeyword "BETWEEN" = true ∧
    ∀ t ∈ inner, t.isKeyword "AND" = false

theorem exists_mem_windows (ts : List Token) (P : Token → List Token → Prop) :
    (∃ w ∈ windows ts, P w.token w.after) ↔ ∃ outer t inner, ts = outer ++ t :: inner ∧ P t inner := by
  constructor
  · rintro ⟨w, hw, hp⟩
    exact ⟨_, _, _, (mem_windows ts w).1 hw, hp⟩
  · rintro ⟨outer, t, inner, hts, hp⟩
    exact ⟨⟨outer.reverse, t, inner⟩, (mem_windows ts _).2 (by simpa using hts), hp⟩

instance (top : List Token) : Decidable (InCase top) :=
  decidable_of_iff (∃ w ∈ windows top, w.token.isKeyword "CASE" = true ∧
      ∀ before ∈ w.after.inits, 0 ≤ (before.map caseLevel).sum) <| by
    simp only [List.mem_inits]
    exact exists_mem_windows top fun head inner => head.isKeyword "CASE" = true ∧
      ∀ before, before <+: inner → 0 ≤ (before.map caseLevel).sum

instance (top : List Token) : Decidable (Waiting top) :=
  decidable_of_iff (∃ w ∈ windows top, w.token.isKeyword "BETWEEN" = true ∧
      ∀ t ∈ w.after, t.isKeyword "AND" = false)
    (exists_mem_windows top fun head inner => head.isKeyword "BETWEEN" = true ∧
      ∀ t ∈ inner, t.isKeyword "AND" = false)

/-- Behind the tokens `before` the token stands outside all brackets and all cases. -/
def IsFree (before : List Token) (t : Token) : Prop :=
  (before.map Token.level).sum + t.level = 0 ∧ ¬ InCase (outside 0 before)

instance (before : List Token) (t : Token) : Decidable (IsFree before t) :=
  inferInstanceAs (Decidable (_ ∧ ¬ _))

/-- The places that a token behind the tokens `before` cuts a condition at: a comment is cut off on both sides,
and a connective that no `BETWEEN` waits for begins a term. -/
def cutsAt (before : List Token) (t : Token) : List Nat :=
  if ¬ IsFree before t then []
  else if t.kind = .comment then [before.length, before.length + 1]
  else if t.isKeywordOf ["AND", "OR"] = true ∧ ¬ Waiting (outside 0 before) then [before.length]
  else []

def cutPlaces (ts : List Token) : List Nat :=
  (windows ts).flatMap fun w => cutsAt w.before.reverse w.token

/-! ## Counting what surrounds a token -/

theorem caseLevel_le_one (t : Token) : caseLevel t ≤ 1 := by
  unfold caseLevel
  split <;> split <;> omega

theorem isKeyword_of_caseLevel {t : Token} (h : caseLevel t = 1) : t.isKeyword "CASE" = true := by
  by_contra hcase
  rw [caseLevel, if_neg hcase] at h
  split at h <;> omega

theorem caseLevel_of_isKeyword {t : Token} (h : t.isKeyword "CASE" = true) : caseLevel t = 1 := by
  rw [caseLevel, if_pos h, if_neg (by simp [isKeyword_of_ne h])]
  rfl

/-- Where no case ends that has not begun, one is open exactly if more have begun than ended. -/
theorem inCase_iff (top : List Token) (h : ∀ before, before <+: top → 0 ≤ (before.map caseLevel).sum) :
    InCase top ↔ (top.map caseLevel).sum ≠ 0 := by
  constructor
  · rintro ⟨outer, head, inner, rfl, hhead, hinner⟩
    have houter := h outer (List.prefix_append _ _)
    have hin := hinner inner List.prefix_rfl
    have hlevel := caseLevel_of_isKeyword hhead
    simp only [List.map_append, List.map_cons, List.sum_append, List.sum_cons]
    omega
  · intro hne
    have hnonneg := h top List.prefix_rfl
    obtain ⟨outer, head, inner, htop, hhead, -, hinner⟩ :=
      exists_opening caseLevel_le_one top _ (by omega) Int.le_rfl
    exact ⟨outer, head, inner, htop, isKeyword_of_caseLevel hhead, hinner⟩

theorem not_waiting_nil : ¬ Waiting [] := by
  rintro ⟨outer, head, inner, h, -⟩
  simp at h

theorem waiting_concat (top : List Token) (t : Token) :
    Waiting (top ++ [t]) ↔ (Waiting top ∨ t.isKeyword "BETWEEN" = true) ∧ t.isKeyword "AND" = false := by
  constructor
  · rintro ⟨outer, head, inner, htop, hhead, hinner⟩
    rcases List.eq_nil_or_concat inner with rfl | ⟨inner, last, rfl⟩
    · obtain ⟨-, hlast⟩ := List.append_inj' htop rfl
      obtain rfl := (List.cons.inj hlast).1
      exact ⟨.inr hhead, isKeyword_of_ne hhead (by decide)⟩
    · rw [List.concat_eq_append] at htop hinner
      rw [← List.cons_append, ← List.append_assoc] at htop
      obtain ⟨hfront, hlast⟩ := List.append_inj' htop rfl
      obtain rfl := (List.cons.inj hlast).1
      exact ⟨.inl ⟨outer, head, inner, hfront, hhead, fun u hu => hinner u (List.mem_append_left _ hu)⟩,
        hinner t (by simp)⟩
  · rintro ⟨⟨outer, head, inner, rfl, hhead, hinner⟩ | hbetween, hand⟩
    · refine ⟨outer, head, inner ++ [t], by simp, hhead, ?_⟩
      exact List.forall_mem_append.2 ⟨hinner, by simpa using hand⟩
    · exact ⟨top, t, [], rfl, hbetween, by simp⟩

theorem outside_concat (before : List Token) (t : Token) :
    outside 0 (before ++ [t]) =
      outside 0 before ++ (if (before.map Token.level).sum + t.level = 0 then [t] else []) := by
  rw [outside_append, Int.zero_add]
  rfl

/-- The progress behind tokens that close no bracket too many: the brackets that are open, the cases outside
the brackets, and whether a `BETWEEN` there waits for its `AND`. -/
theorem after_eq (before : List Token) (h : ∀ front, front <+: before → 0 ≤ (front.map Token.level).sum) :
    Progress.after {} before = ⟨(before.map Token.level).sum, ((outside 0 before).map caseLevel).sum,
      decide (Waiting (outside 0 before))⟩ := by
  induction before using List.reverseRecOn with
  | nil => simp [Progress.after, outside, not_waiting_nil]
  | append_singleton before t ih =>
    have hbefore := ih fun front hfront => h front (hfront.trans (List.prefix_append _ _))
    have hall := h (before ++ [t]) List.prefix_rfl
    have hsum : ((before ++ [t]).map Token.level).sum = (before.map Token.level).sum + t.level := by simp
    rw [hsum] at hall
    rw [Progress.after, List.foldl_append, List.foldl_cons, List.foldl_nil, ← Progress.after, hbefore, hsum,
      outside_concat, Progress.next]
    dsimp only
    by_cases hdepth : (before.map Token.level).sum + t.level = 0
    · have hpending : decide (Waiting (outside 0 before ++ [t])) =
          ((decide (Waiting (outside 0 before)) || t.isKeyword "BETWEEN") && !t.isKeyword "AND") := by
        rw [Bool.eq_iff_iff, decide_eq_true_iff, waiting_concat]
        simp
      rw [if_neg (by omega), if_pos hdepth, hpending]
      simp
    · rw [if_pos (by omega), if_neg hdepth, List.append_nil]

/-! ## Roles by what surrounds a token -/

/-- The places that a token with the given role and index cuts a condition at. -/
def Role.cuts (r : Role) (k : Nat) : List Nat :=
  match r with
  | .continues => []
  | .begins => [k]
  | .aside => [k, k + 1]

theorem cutsAt_eq (before : List Token) (t : Token)
    (hbrackets : ∀ front, front <+: before ++ [t] → 0 ≤ (front.map Token.level).sum)
    (hcases : ∀ front, front <+: outside 0 before → 0 ≤ (front.map caseLevel).sum) :
    cutsAt before t = (roleBehind before t).cuts before.length := by
  have hall := hbrackets (before ++ [t]) List.prefix_rfl
  have hsum : ((before ++ [t]).map Token.level).sum = (before.map Token.level).sum + t.level := by simp
  have hfree : IsFree before t ↔ ¬ (0 < (before.map Token.level).sum + t.level ∨
      ((outside 0 before).map caseLevel).sum ≠ 0) := by
    rw [IsFree, inCase_iff _ hcases]
    omega
  rw [roleBehind, after_eq before fun front hfront => hbrackets front (hfront.trans (List.prefix_append _ _)),
    Progress.role, cutsAt]
  simp only [Bool.not_eq_true', decide_eq_false_iff_not]
  by_cases hopen : 0 < (before.map Token.level).sum + t.level ∨ ((outside 0 before).map caseLevel).sum ≠ 0
  · rw [if_pos (mt hfree.1 (not_not_intro hopen)), if_pos hopen]
    rfl
  · rw [if_neg (not_not_intro (hfree.2 hopen)), if_neg hopen]
    split
    · rfl
    · split <;> rfl

/-! ## Where terms begin -/

/-- The places where the parts begin, if the first begins at the place `k`. -/
def starts (k : Nat) : List (List Token) → List Nat
  | [] => []
  | part :: parts => k :: starts (k + part.length) parts

theorem starts_append (k : Nat) (front back : List (List Token)) :
    starts k (front ++ back) = starts k front ++ starts (k + front.flatten.length) back := by
  induction front generalizing k with
  | nil => rfl
  | cons part front ih =>
    rw [List.cons_append, starts, ih, starts, List.flatten_cons, List.length_append, Nat.add_assoc,
      List.cons_append]

theorem Role.starts_closes (r : Role) (k : Nat) (cur : List Token) (t : Token) :
    starts k (r.closes cur t) ++ [k + (r.closes cur t).flatten.length] = k :: r.cuts (k + cur.length) := by
  cases r <;> simp [closes, cuts, starts, Nat.add_assoc]

section Terms
variable {ts : List Token} (hbrackets : ∀ front, front <+: ts → 0 ≤ (front.map Token.level).sum)
  (hcases : ∀ front, front <+: outside 0 ts → 0 ≤ (front.map caseLevel).sum)
include hbrackets hcases

/-- Of a condition the tokens `done` are read as terms and the tokens `cur` of the next one. The induction is on
the tokens `rest` that are still to be read. -/
theorem starts_terms_from (rest done cur : List Token) (hts : ts = done ++ cur ++ rest) :
    ∃ front last, (front ++ [last]).flatten = cur ++ rest ∧
      starts done.length (front ++ [last]) = done.length ::
        (Window.along (done ++ cur).reverse rest).flatMap (fun w => cutsAt w.before.reverse w.token) ∧
      (Progress.after {} (done ++ cur)).terms cur rest =
        front ++ (if 1 < last.length then [last] else []) := by
  induction rest generalizing done cur with
  | nil => exact ⟨[], cur, by simp, rfl, rfl⟩
  | cons t rest ih =>
    have hcuts : cutsAt (done ++ cur) t = (roleBehind (done ++ cur) t).cuts (done ++ cur).length := by
      apply cutsAt_eq
      · intro front hfront
        apply hbrackets front (hfront.trans ?_)
        exact ⟨rest, by simp [hts]⟩
      · intro front hfront
        apply hcases front (hfront.trans ?_)
        rw [hts, outside_append 0 (done ++ cur)]
        exact List.prefix_append _ _
    let r := roleBehind (done ++ cur) t
    have hread : done ++ (r.closes cur t).flatten ++ r.opens cur t = done ++ cur ++ [t] := by
      rw [List.append_assoc, Role.flatten_closes, List.append_assoc]
    obtain ⟨front, last, hflat, hstarts, hterms⟩ := ih (done ++ (r.closes cur t).flatten) (r.opens cur t)
      (by rw [hread, hts]; simp)
    rw [hread] at hstarts hterms
    refine ⟨r.closes cur t ++ front, last, ?_, ?_, ?_⟩
    · rw [List.append_assoc, List.flatten_append, hflat, ← List.append_assoc, Role.flatten_closes]
      simp
    · calc starts done.length (r.closes cur t ++ front ++ [last])
          = starts done.length (r.closes cur t) ++ [done.length + (r.closes cur t).flatten.length] ++
              (Window.along (done ++ cur ++ [t]).reverse rest).flatMap
                (fun w => cutsAt w.before.reverse w.token) := by
            rw [List.append_assoc _ front, starts_append, ← List.length_append, hstarts, List.append_cons]
        _ = _ := by
            rw [Role.starts_closes, ← List.length_append, Window.along, List.flatMap_cons, List.reverse_reverse,
              hcuts, List.reverse_append, List.cons_append]
            rfl
    · have hnext : (Progress.after {} (done ++ cur)).next t = Progress.after {} (done ++ cur ++ [t]) := by
        simp [Progress.after]
      rw [Progress.terms_cons, hnext, List.append_assoc _ front, ← hterms]
      rfl

end Terms

/-! ## What stands between the cuts -/

theorem mem_cutPlaces {ts : List Token} {k : Nat} (h : k ∈ cutPlaces ts) :
    ∃ before t after, ts = before ++ t :: after ∧ IsFree before t ∧
      ((t.kind = .comment ∧ k ∈ [before.length, before.length + 1]) ∨
        (t.isKeywordOf ["AND", "OR"] = true ∧ ¬ Waiting (outside 0 before) ∧ k = before.length)) := by
  obtain ⟨w, hw, hk⟩ := List.mem_flatMap.1 h
  refine ⟨w.before.reverse, w.token, w.after, (mem_windows ts w).1 hw, ?_⟩
  rw [cutsAt] at hk
  split at hk
  · cases hk
  · next hfree =>
    refine ⟨not_not.1 hfree, ?_⟩
    split at hk
    · next hcomment => exact .inl ⟨hcomment, hk⟩
    · split at hk
      · next hconnective => exact .inr ⟨hconnective.1, hconnective.2, List.mem_singleton.1 hk⟩
      · cases hk

theorem level_take_of_mem_cutPlaces {ts : List Token} {k : Nat} (h : k ∈ cutPlaces ts) :
    ((ts.take k).map Token.level).sum = 0 := by
  obtain ⟨before, t, after, rfl, ⟨hdepth, -⟩, hplace⟩ := mem_cutPlaces h
  have hlevel : t.level = 0 := by
    rcases hplace with ⟨hcomment, -⟩ | ⟨hconnective, -⟩
    · simp [Token.level, hcomment]
    · obtain ⟨w, -, hw⟩ := List.any_eq_true.1 hconnective
      exact level_of_isKeyword hw
  have htake : (before ++ t :: after).take k = before ∨ (before ++ t :: after).take k = before ++ [t] := by
    rcases hplace with ⟨-, hk⟩ | ⟨-, -, rfl⟩
    · rcases List.mem_pair.1 hk with rfl | rfl
      · exact .inl List.take_left
      · exact .inr (by simp [List.take_append])
    · exact .inl List.take_left
  rcases htake with htake | htake <;>
    simp only [htake, List.map_append, List.sum_append, List.map_singleton, List.sum_singleton] <;> omega

/-- A part begins at a place where a cut is, unless it is the first, and so does what follows it. -/
theorem mem_of_starts {front back : List (List Token)} {part : List Token} {places : List Nat}
    (h : starts 0 (front ++ part :: back) = 0 :: places) :
    front.flatten.length ∈ 0 :: places ∧ (back = [] ∨ (front.flatten ++ part).length ∈ places) := by
  rw [starts_append, starts, Nat.zero_add] at h
  refine ⟨by rw [← h]; simp, ?_⟩
  cases back with
  | nil => exact .inl rfl
  | cons next back =>
    have htail := congrArg List.tail h
    rw [List.tail_cons, starts] at htail
    rw [← htail, List.length_append]
    cases front with
    | nil => simp [starts]
    | cons first front => simp [starts]

theorem Balanced.of_between {level : Token → Int} {front part back : List Token}
    (h : Balanced level (front ++ part ++ back)) (hfront : (front.map level).sum = 0)
    (hpart : ((front ++ part).map level).sum = 0) : Balanced level part := by
  rw [List.map_append, List.sum_append] at hpart
  refine ⟨by omega, fun before hbefore => ?_⟩
  have hnested := h.nested (front ++ before)
    (((List.prefix_append_right_inj front).2 hbefore).trans (List.prefix_append _ _))
  rw [List.map_append, List.sum_append] at hnested
  omega

theorem balanced_of_starts {ts : List Token} {parts : List (List Token)} (h : Balanced Token.level ts)
    (hflat : parts.flatten = ts) (hstarts : starts 0 parts = 0 :: cutPlaces ts) :
    ∀ part ∈ parts, Balanced Token.level part := by
  intro part hpart
  obtain ⟨front, back, rfl⟩ := List.append_of_mem hpart
  obtain ⟨hstart, hend⟩ := mem_of_starts hstarts
  have hts : ts = front.flatten ++ part ++ back.flatten := by simp [← hflat]
  have hfront : (front.flatten.map Token.level).sum = 0 := by
    rcases List.mem_cons.1 hstart with hzero | hplace
    · rw [List.eq_nil_of_length_eq_zero hzero]
      rfl
    · have hlevel := level_take_of_mem_cutPlaces hplace
      rwa [hts, List.append_assoc, List.take_left] at hlevel
  have hbehind : ((front.flatten ++ part).map Token.level).sum = 0 := by
    rcases hend with rfl | hplace
    · rw [List.flatten_nil, List.append_nil] at hts
      rw [← hts]
      exact h.closed
    · have hlevel := level_take_of_mem_cutPlaces hplace
      rwa [hts, List.take_left] at hlevel
  rw [hts] at h
  exact h.of_between hfront hbehind

/-- A part that begins with the `AND` of a `BETWEEN` follows a comment. -/
theorem comment_of_starts {ts part : List Token} {front back : List (List Token)} {t : Token}
    (hflat : (front ++ (t :: part) :: back).flatten = ts)
    (hstarts : starts 0 (front ++ (t :: part) :: back) = 0 :: cutPlaces ts) (ht : t.isKeyword "AND" = true)
    (hwaiting : Waiting (outside 0 front.flatten)) : ∃ c ∈ front.flatten.getLast?, c.kind = .comment := by
  have hts : ts = front.flatten ++ t :: (part ++ back.flatten) := by simp [← hflat]
  rcases List.mem_cons.1 (mem_of_starts hstarts).1 with hzero | hplace
  · rw [List.eq_nil_of_length_eq_zero hzero] at hwaiting
    exact absurd hwaiting not_waiting_nil
  · obtain ⟨before, u, after, hcut, -, ⟨hcomment, hk⟩ | ⟨-, hnot, hk⟩⟩ := mem_cutPlaces hplace
    · rw [hts] at hcut
      rcases List.mem_pair.1 hk with hk | hk
      · obtain ⟨-, hrest⟩ := List.append_inj hcut hk
        obtain rfl := (List.cons.inj hrest).1
        simp [Token.isKeyword, hcomment] at ht
      · rw [List.append_cons before u after] at hcut
        obtain ⟨hfront, -⟩ := List.append_inj hcut (by simpa using hk)
        exact ⟨u, by rw [hfront, List.getLast?_concat]; rfl, hcomment⟩
    · rw [hts] at hcut
      obtain ⟨hfront, -⟩ := List.append_inj hcut hk
      rw [hfront] at hwaiting
      exact absurd hwaiting hnot

/-- A condition whose brackets are balanced, and outside of them the cases end after they begin, is parted exactly
before and behind the comments outside brackets and cases, and before the connectives there that no `BETWEEN`
waits for. A last part of at most one token is no term. So the brackets of every term are balanced, and a term begins
with the `AND` of a `BETWEEN` only behind a comment. -/
theorem starts_terms (ts : List Token) (hbrackets : Balanced Token.level ts)
    (hcases : ∀ front, front <+: outside 0 ts → 0 ≤ (front.map caseLevel).sum) :
    (∃ parts last, (parts ++ [last]).flatten = ts ∧ starts 0 (parts ++ [last]) = 0 :: cutPlaces ts ∧
      terms ts = parts ++ (if 1 < last.length then [last] else [])) ∧
    (∀ part ∈ terms ts, Balanced Token.level part) ∧
    ∀ front part back t, terms ts = front ++ (t :: part) :: back → t.isKeyword "AND" = true →
      Waiting (outside 0 front.flatten) → ∃ c ∈ front.flatten.getLast?, c.kind = .comment := by
  obtain ⟨parts, last, hflat, hstarts, hterms⟩ := starts_terms_from hbrackets.nested hcases ts [] [] rfl
  change terms ts = _ at hterms
  obtain ⟨lost, hlost⟩ : ∃ lost, parts ++ [last] = terms ts ++ lost := by
    rw [hterms]
    split
    · exact ⟨[], by simp⟩
    · exact ⟨[last], by simp⟩
  refine ⟨⟨parts, last, hflat, hstarts, hterms⟩, ?_, ?_⟩
  · intro part hpart
    apply balanced_of_starts hbrackets hflat hstarts part
    rw [hlost]
    exact List.mem_append_left _ hpart
  · intro front part back t heq ht hwaiting
    rw [hlost, heq, List.append_assoc, List.cons_append] at hflat hstarts
    exact comment_of_starts hflat hstarts ht hwaiting

/-- A range with a comment before its `AND`, and a case with connectives in it. -/
def rangeAndCase : List Token :=
  [⟨.identifier, "a", none⟩, ⟨.keyword, "between", none⟩, ⟨.identifier, "b", none⟩, ⟨.comment, "--low", none⟩,
    ⟨.keyword, "and", none⟩, ⟨.identifier, "c", none⟩, ⟨.keyword, "or", none⟩, ⟨.keyword, "case", none⟩,
    ⟨.keyword, "when", none⟩, ⟨.leftBracket, "(", none⟩, ⟨.identifier, "d", none⟩, ⟨.keyword, "or", none⟩,
    ⟨.identifier, "e", none⟩, ⟨.rightBracket, ")", none⟩, ⟨.keyword, "and", none⟩, ⟨.identifier, "f", none⟩,
    ⟨.keyword, "then", none⟩, ⟨.identifier, "g", none⟩, ⟨.keyword, "end", none⟩]

/-- The third of the four terms begins with the `AND` of the range, right behind the comment. -/
theorem starts_terms_of_range :
    Balanced Token.level rangeAndCase ∧
      (∀ front, front <+: outside 0 rangeAndCase → 0 ≤ (front.map caseLevel).sum) ∧
      cutPlaces rangeAndCase = [3, 4, 6] ∧ starts 0 (terms rangeAndCase) = [0, 3, 4, 6] ∧
      (∀ part ∈ terms rangeAndCase, Balanced Token.level part) ∧
      ∃ c ∈ (rangeAndCase.take 4).getLast?, c.kind = .comment := by
  have hbrackets : Balanced Token.level rangeAndCase := by decide +kernel
  have hcases : ∀ front, front <+: outside 0 rangeAndCase → 0 ≤ (front.map caseLevel).sum := by
    have hinits : ∀ front ∈ (outside 0 rangeAndCase).inits, 0 ≤ (front.map caseLevel).sum := by decide +kernel
    exact fun front hfront => hinits front (List.mem_inits front _ |>.2 hfront)
  obtain ⟨-, hbalanced, hcomment⟩ := starts_terms rangeAndCase hbrackets hcases
  have hthird : ∃ c ∈ (rangeAndCase.take 4).getLast?, c.kind = .comment :=
    hcomment [rangeAndCase.take 3, [⟨.comment, "--low", none⟩]] [⟨.identifier, "c", none⟩] [rangeAndCase.drop 6]
      ⟨.keyword, "and", none⟩ (by decide +kernel) (by decide +kernel) (by decide +kernel)
  exact ⟨hbrackets, hcases, by decide +kernel, by decide +kernel, hbalanced, hthird⟩

end SqlStyle.Clause
