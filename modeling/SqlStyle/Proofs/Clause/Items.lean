import SqlStyle.Proofs.Clause.Connectives

/-! The items of a list. Reading on, the brackets that are open since the beginning of the list are those that the item
being read has opened, since each cut falls outside all brackets. So an item is cut off exactly before each comma
outside all brackets (`exists_item_of_comma`, `itemsFrom_part`), and the brackets of every item are balanced if those of the
list are (`items_of_balanced`). -/
namespace SqlStyle.Clause
set_option autoImplicit false

/-! ## Commas outside all brackets -/

/-- Behind the tokens `before` the token is a comma outside all brackets. -/
def IsTopComma (before : List Token) (t : Token) : Prop :=
  t.kind = .comma ∧ (before.map Token.level).sum = 0

instance (before : List Token) (t : Token) : Decidable (IsTopComma before t) :=
  inferInstanceAs (Decidable (_ ∧ _))

/-- A comma outside all brackets can only be the first of the tokens. -/
def CommaFirst (part : List Token) : Prop :=
  ∀ before t after, part = before ++ t :: after → IsTopComma before t → before = []

theorem commaFirst_nil : CommaFirst [] := by
  intro before t after h
  simp at h

theorem commaFirst_singleton (t : Token) : CommaFirst [t] := by
  intro before u after h _
  have hlength := congrArg List.length h
  simp only [List.length_append, List.length_cons, List.length_nil] at hlength
  exact List.eq_nil_of_length_eq_zero (by omega)

theorem CommaFirst.concat {part : List Token} (h : CommaFirst part) {t : Token} (ht : ¬ IsTopComma part t) :
    CommaFirst (part ++ [t]) := by
  intro before u after hparts hu
  rcases List.eq_nil_or_concat after with rfl | ⟨after, last, rfl⟩
  · obtain ⟨rfl, hlast⟩ := List.append_inj' hparts rfl
    obtain rfl := (List.cons.inj hlast).1
    exact absurd hu ht
  · rw [List.concat_eq_append, ← List.cons_append, ← List.append_assoc] at hparts
    exact h before u after (List.append_inj' hparts rfl).1 hu

/-! ## One token -/

theorem level_of_kind_comma {t : Token} (h : t.kind = .comma) : t.level = 0 := by
  rw [Token.level, h]

theorem itemsFrom_cons (cur ts : List Token) (t : Token) :
    itemsFrom (cur.map Token.level).sum cur (t :: ts) =
      if IsTopComma cur t then cur :: itemsFrom ([t].map Token.level).sum [t] ts
      else itemsFrom ((cur ++ [t]).map Token.level).sum (cur ++ [t]) ts := by
  have hsum : ((cur ++ [t]).map Token.level).sum = (cur.map Token.level).sum + t.level := by simp
  have hiff : (t.kind = .comma ∧ (cur.map Token.level).sum + t.level = 0) ↔ IsTopComma cur t := by
    refine and_congr_right fun hcomma => ?_
    rw [level_of_kind_comma hcomma, Int.add_zero]
  rw [itemsFrom, hsum]
  by_cases htop : IsTopComma cur t
  · rw [if_pos htop, if_pos (hiff.2 htop), (hiff.2 htop).2, List.map_singleton, List.sum_singleton,
      level_of_kind_comma htop.1]
  · rw [if_neg htop, if_neg (mt hiff.1 htop)]

/-! ## The whole list -/

theorem head_itemsFrom (cur ts : List Token) (h : cur ≠ []) :
    ∃ rest back, itemsFrom (cur.map Token.level).sum cur ts = (cur ++ rest) :: back := by
  induction ts generalizing cur with
  | nil =>
    refine ⟨[], [], ?_⟩
    rw [itemsFrom, if_neg (by simpa using h), List.append_nil]
  | cons t ts ih =>
    rw [itemsFrom_cons]
    split
    · exact ⟨[], _, by rw [List.append_nil]⟩
    · obtain ⟨rest, back, hitems⟩ := ih (cur ++ [t]) (by simp)
      exact ⟨t :: rest, back, by rw [hitems, List.append_assoc, List.singleton_append]⟩

/-- Before an item no bracket is open, and none behind it unless it is the last. If it is not the first, it begins with a
comma. -/
theorem itemsFrom_part (cur ts : List Token) {part : List Token} {front back : List (List Token)}
    (h : itemsFrom (cur.map Token.level).sum cur ts = front ++ part :: back) (hcur : CommaFirst cur) :
    (front.flatten.map Token.level).sum = 0 ∧ (back ≠ [] → (part.map Token.level).sum = 0) ∧ CommaFirst part ∧
      (front ≠ [] → ∃ t rest, part = t :: rest ∧ t.kind = .comma) := by
  induction ts generalizing cur front with
  | nil =>
    rw [itemsFrom] at h
    split at h
    · simp at h
    · cases front with
      | nil =>
        obtain ⟨rfl, rfl⟩ := List.cons.inj h
        exact ⟨rfl, fun hne => absurd rfl hne, hcur, fun hne => absurd rfl hne⟩
      | cons first front => simp at h
  | cons t ts ih =>
    rw [itemsFrom_cons] at h
    split at h
    · next htop =>
      cases front with
      | nil =>
        obtain ⟨rfl, -⟩ := List.cons.inj h
        exact ⟨rfl, fun _ => htop.2, hcur, fun hne => absurd rfl hne⟩
      | cons first front =>
        obtain ⟨rfl, hrest⟩ := List.cons.inj h
        obtain ⟨hfront, hback, hpart, hcomma⟩ := ih [t] hrest (commaFirst_singleton t)
        refine ⟨?_, hback, hpart, fun _ => ?_⟩
        · rw [List.flatten_cons, List.map_append, List.sum_append, htop.2, hfront, Int.add_zero]
        · cases front with
          | nil =>
            obtain ⟨rest, others, hfirst⟩ := head_itemsFrom [t] ts (List.cons_ne_nil t [])
            rw [hfirst] at hrest
            exact ⟨t, rest, (List.cons.inj hrest).1.symm, htop.1⟩
          | cons next front => exact hcomma (List.cons_ne_nil next front)
    · next htop => exact ih (cur ++ [t]) h (hcur.concat htop)

theorem exists_item_of_comma (cur before after : List Token) {t : Token} (ht : IsTopComma (cur ++ before) t) :
    ∃ front rest back, itemsFrom (cur.map Token.level).sum cur (before ++ t :: after) =
      front ++ (t :: rest) :: back ∧ front ≠ [] ∧ front.flatten = cur ++ before := by
  induction before generalizing cur with
  | nil =>
    rw [List.append_nil] at ht
    obtain ⟨rest, back, hitems⟩ := head_itemsFrom [t] after (List.cons_ne_nil t [])
    refine ⟨[cur], rest, back, ?_, List.cons_ne_nil _ _, by simp⟩
    rw [List.nil_append, itemsFrom_cons, if_pos ht, hitems]
    rfl
  | cons u before ih =>
    rw [List.cons_append, itemsFrom_cons]
    split
    · next hu =>
      have htop : IsTopComma ([u] ++ before) t := by
        refine ⟨ht.1, ?_⟩
        have hsum := ht.2
        rw [List.map_append, List.sum_append, hu.2, Int.zero_add] at hsum
        exact hsum
      obtain ⟨front, rest, back, hitems, -, hfront⟩ := ih [u] htop
      refine ⟨cur :: front, rest, back, by rw [hitems]; rfl, List.cons_ne_nil _ _, ?_⟩
      rw [List.flatten_cons, hfront, List.singleton_append]
    · have htop : IsTopComma (cur ++ [u] ++ before) t := by
        rwa [List.append_assoc, List.singleton_append]
      obtain ⟨front, rest, back, hitems, hne, hfront⟩ := ih (cur ++ [u]) htop
      exact ⟨front, rest, back, hitems, hne, by rw [hfront, List.append_assoc, List.singleton_append]⟩

/-- A list whose brackets are balanced is cut exactly before its commas outside all brackets: nothing is lost, the
brackets of every item are balanced, every item but the first begins with such a comma, no item holds another one, and
each of them begins an item. -/
theorem items_of_balanced (ts : List Token) (h : Balanced Token.level ts) :
    (items ts).flatten = ts ∧
    (∀ part ∈ items ts, Balanced Token.level part) ∧
    (∀ front part back, items ts = front ++ part :: back → front ≠ [] →
      ∃ t rest, part = t :: rest ∧ IsTopComma front.flatten t) ∧
    (∀ part ∈ items ts, ∀ before t after, part = before ++ t :: after → IsTopComma before t → before = []) ∧
    ∀ before t after, ts = before ++ t :: after → IsTopComma before t →
      ∃ front rest back, items ts = front ++ (t :: rest) :: back ∧ front ≠ [] ∧ front.flatten = before := by
  have hflat := flatten_items ts
  have hpart {front : List (List Token)} {part : List Token} {back : List (List Token)}
      (hitems : items ts = front ++ part :: back) := itemsFrom_part [] ts hitems commaFirst_nil
  refine ⟨hflat, fun part hmem => ?_, fun front part back hitems hne => ?_, fun part hmem => ?_, ?_⟩
  · obtain ⟨front, back, hitems⟩ := List.append_of_mem hmem
    obtain ⟨hfront, hback, -, -⟩ := hpart hitems
    have hts : ts = front.flatten ++ part ++ back.flatten := by
      rw [hitems, List.flatten_append, List.flatten_cons, ← List.append_assoc] at hflat
      exact hflat.symm
    have hbehind : ((front.flatten ++ part).map Token.level).sum = 0 := by
      by_cases hlast : back = []
      · rw [hlast, List.flatten_nil, List.append_nil] at hts
        exact hts ▸ h.closed
      · rw [List.map_append, List.sum_append, hfront, hback hlast]
        rfl
    rw [hts] at h
    exact h.of_between hfront hbehind
  · obtain ⟨hfront, -, -, hcomma⟩ := hpart hitems
    obtain ⟨t, rest, hbegin, hkind⟩ := hcomma hne
    exact ⟨t, rest, hbegin, hkind, hfront⟩
  · obtain ⟨front, back, hitems⟩ := List.append_of_mem hmem
    exact (hpart hitems).2.2.1
  · rintro before t after rfl htop
    exact exists_item_of_comma [] before after htop

/-- A list that begins with a comma, with a call of two arguments and two commas side by side. -/
def listOfCall : List Token :=
  [⟨.comma, ",", none⟩, ⟨.identifier, "f", none⟩, ⟨.leftBracket, "(", none⟩, ⟨.identifier, "a", none⟩,
    ⟨.comma, ",", none⟩, ⟨.identifier, "b", none⟩, ⟨.rightBracket, ")", none⟩, ⟨.comma, ",", none⟩,
    ⟨.comma, ",", none⟩, ⟨.identifier, "c", none⟩]

/-- The first of the four items is empty, and the comma in brackets cuts nothing. -/
theorem items_of_balanced_of_call :
    Balanced Token.level listOfCall ∧
      items listOfCall = [[], listOfCall.take 7, [⟨.comma, ",", none⟩], listOfCall.drop 8] ∧
      Balanced Token.level (listOfCall.take 7) ∧
      (∃ t rest, listOfCall.drop 8 = t :: rest ∧ IsTopComma (listOfCall.take 8) t) ∧
      (∃ front rest back, items listOfCall = front ++ (⟨.comma, ",", none⟩ :: rest) :: back ∧ front ≠ [] ∧
        front.flatten = listOfCall.take 7) ∧
      ¬ IsTopComma (listOfCall.take 4) ⟨.comma, ",", none⟩ := by
  have hbrackets : Balanced Token.level listOfCall := by decide +kernel
  have hitems : items listOfCall = [[], listOfCall.take 7, [⟨.comma, ",", none⟩], listOfCall.drop 8] := by
    decide +kernel
  obtain ⟨-, hbalanced, hbegins, -, hcut⟩ := items_of_balanced listOfCall hbrackets
  refine ⟨hbrackets, hitems, hbalanced _ (by simp [hitems]), ?_, ?_, by decide +kernel⟩
  · exact hbegins [[], listOfCall.take 7, [⟨.comma, ",", none⟩]] (listOfCall.drop 8) [] hitems (List.cons_ne_nil _ _)
  · exact hcut (listOfCall.take 7) ⟨.comma, ",", none⟩ (listOfCall.drop 8) (by decide +kernel) (by decide +kernel)

end SqlStyle.Clause
