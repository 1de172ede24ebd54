import SqlStyle.Token.Scan

/-! Reserved words are looked up. The scanner tries the entries of a table one after the other, and many of
them begin with another one. An entry fits only if its run ends behind it, so whatever the order of the
table is, the entry that is found spells the whole run up to the next blank, left bracket or end of the text
(`findSome?_readings`); trying the entries comes to the same as looking up the run (`wordStep_eq`). -/
namespace SqlStyle
set_option autoImplicit false
open Text

/-! ## The entries that a text begins with -/

namespace Reserved

theorem forall_of_forall_ofNat {b : Nat} {p : Char → Prop} (h : ∀ n < b, p (Char.ofNat n)) :
    ∀ c : Char, c.toNat < b → p c := by
  intro c hc
  have hp := h c.toNat hc
  rwa [Char.ofNat_toNat] at hp

def variants : List Char :=
  ['ſ', '\u212a', 'İ', 'ı'] ++ (List.range 26).map fun n => Char.ofNat (97 + n)

theorem letter_cases (c : Char) : letter c = c ∨ c ∈ variants := by
  have hsmall : ∀ d : Char, d.toNat < 123 → 97 ≤ d.toNat → d ∈ variants :=
    forall_of_forall_ofNat (by decide)
  by_cases hodd : c ∈ ['ſ', '\u212a', 'İ', 'ı']
  · exact .inr (List.mem_append_left _ hodd)
  · have hupper : letter c = c.toUpper := by
      simp only [List.mem_cons, List.not_mem_nil, or_false, not_or] at hodd
      obtain ⟨hs, hk, hi⟩ := hodd
      rw [letter, if_neg hs, if_neg hk, if_neg (not_or.2 hi)]
    by_cases hc : 97 ≤ c.toNat ∧ c.toNat ≤ 122
    · exact .inr (hsmall c (by omega) hc.1)
    · refine .inl ?_
      rw [hupper]
      unfold Char.toUpper
      exact dif_neg hc

theorem ofList_letters : ∀ entry ∈ keywords ++ functions, String.ofList (letters entry) = entry := by
  decide +kernel

theorem spelling_eq_iff {entry : String} (h : entry ∈ keywords ++ functions) (run : List Char) :
    run.map letter = letters entry ↔ spelling run = entry := by
  rw [spelling, ← String.ofList_inj, ofList_letters entry h]

theorem mem_readings_iff (table : List String) (htable : table ⊆ keywords ++ functions)
    (text run rest : List Char) :
    (run, rest) ∈ readings table text ↔ run ++ rest = text ∧ spelling run ∈ table := by
  rw [mem_readings]
  refine and_congr_right fun _ => ⟨?_, fun h => ⟨spelling run, h, ?_⟩⟩
  · rintro ⟨entry, hentry, hspelled⟩
    rwa [(spelling_eq_iff (htable hentry) run).1 hspelled]
  · exact (spelling_eq_iff (htable h) run).2 rfl

/-! ## Runs that spell an entry -/

theorem letters_spelling {run : List Char} (h : spelling run ∈ keywords ++ functions) :
    letters (spelling run) = run.map letter :=
  ((spelling_eq_iff h run).2 rfl).symm

theorem ne_nil_of_spelled {run : List Char} (h : spelling run ∈ keywords ++ functions) : run ≠ [] := by
  rintro rfl
  exact letters_ne_nil _ h (letters_spelling h)

end Reserved

namespace Scan
open Reserved

/-! ## Runs -/

theorem takeWhile_of_head {p : Char → Bool} {cs : List Char} (h : ∀ c ∈ cs.head?, p c = false) :
    cs.takeWhile p = [] ∧ cs.dropWhile p = cs := by
  cases cs with
  | nil => exact ⟨rfl, rfl⟩
  | cons c cs => simp [h c rfl]

theorem takeWhile_word (p : Char → Bool) (w r : List Char) (hw : ∀ c ∈ w, p c = true)
    (hr : ∀ c ∈ r.head?, p c = false) : (w ++ r).takeWhile p = w ∧ (w ++ r).dropWhile p = r := by
  obtain ⟨htake, hdrop⟩ := takeWhile_of_head hr
  rw [List.takeWhile_append_of_pos hw, List.dropWhile_append_of_pos hw, htake, hdrop, List.append_nil]
  exact ⟨rfl, rfl⟩

theorem inRun_of_letter {c : Char} (h : inRun (letter c) = true) : inRun c = true := by
  have hvariants : variants.all inRun = true := by decide
  rcases letter_cases c with hself | hc
  · rwa [hself] at h
  · exact List.all_eq_true.1 hvariants c hc

theorem inRun_of_spelled {run : List Char} (h : spelling run ∈ keywords ++ functions) :
    ∀ c ∈ run, inRun c = true := by
  have htable : ∀ entry ∈ keywords ++ functions, (letters entry).all inRun = true := by
    decide +kernel
  have hrun := htable _ h
  rw [letters_spelling h, List.all_map, List.all_eq_true] at hrun
  intro c hc
  exact inRun_of_letter (hrun c hc)

/-! ## Trying one entry after the other -/

theorem findSome?_of_unique {α β : Type} [DecidableEq α] (f : α → Option β) (a : α) (as : List α)
    (h : ∀ b ∈ as, f b = none ∨ b = a) : as.findSome? f = if a ∈ as then f a else none := by
  induction as with
  | nil => rfl
  | cons b as ih =>
    obtain ⟨hb, has⟩ := List.forall_mem_cons.1 h
    rw [List.findSome?_cons, ih has]
    rcases hb with hb | rfl
    · rw [hb]
      by_cases hab : a = b
      · simp [hab, hb]
      · simp [hab]
    · cases f b <;> simp

/-- If what is asked of an entry fails wherever its run goes on, then only the whole run can be found. -/
theorem findSome?_readings {β : Type} (table : List String) (htable : table ⊆ keywords ++ functions)
    (text : List Char) (f : List Char → List Char → Option β)
    (hf : ∀ run rest, rest.head?.any inRun = true → f run rest = none) :
    ((readings table text).findSome? fun r => f r.1 r.2) =
      if table.contains (spelling (text.takeWhile inRun)) then
        f (text.takeWhile inRun) (text.dropWhile inRun)
      else none := by
  have hunique : ∀ r ∈ readings table text,
      f r.1 r.2 = none ∨ r = (text.takeWhile inRun, text.dropWhile inRun) := by
    rintro ⟨run, rest⟩ hr
    obtain ⟨rfl, hspelled⟩ := (mem_readings_iff table htable text run rest).1 hr
    -- an entry may end inside the run, and then it fails; behind any other one the run ends
    by_cases hstop : rest.head?.any inRun = true
    · exact .inl (hf run rest hstop)
    · have hend : ∀ c ∈ rest.head?, inRun c = false := by
        intro c hc
        rw [Option.mem_def.1 hc] at hstop
        simpa using hstop
      obtain ⟨htake, hdrop⟩ := takeWhile_word inRun run rest (inRun_of_spelled (htable hspelled)) hend
      exact .inr (by rw [htake, hdrop])
  have hwhole : (text.takeWhile inRun, text.dropWhile inRun) ∈ readings table text ↔
      table.contains (spelling (text.takeWhile inRun)) = true := by
    rw [mem_readings_iff table htable, List.takeWhile_append_dropWhile, List.contains_iff_mem]
    exact and_iff_right rfl
  rw [findSome?_of_unique _ _ _ hunique]
  simp only [hwhole]

/-! ## Words -/

theorem keywordStep?_goesOn (run rest : List Char) (h : rest.head?.any inRun = true) :
    keywordStep? run rest = none := by
  rw [keywordStep?, if_pos h]

theorem functionStep_goesOn (run rest : List Char) (h : rest.head?.any inRun = true) :
    functionStep run rest = none := by
  cases rest with
  | nil => cases h
  | cons c rest =>
    rw [List.head?_cons, Option.any_some, inRun, Bool.and_eq_true, Bool.not_eq_true'] at h
    rw [functionStep, List.dropWhile_cons_of_neg (by rw [h.1]; exact Bool.false_ne_true)]
    split
    · next after he =>
      obtain ⟨rfl, -⟩ := List.cons.inj he
      simp at h
    · rfl

theorem functionStep_of_bracket (run rest after : List Char)
    (h : rest.dropWhile isBlank = '(' :: after) :
    functionStep run rest = some ((opening after).after
      (piece .function run ++ piece .whitespace (rest.takeWhile isBlank))) := by
  rw [functionStep, h]
  rfl

/-- No run in a table begins with a character that would end it. -/
theorem findSome?_readings_cons {β : Type} (table : List String)
    (htable : table ⊆ keywords ++ functions) (c : Char) (cs : List Char)
    (f : List Char → List Char → Option β)
    (hf : ∀ run rest, rest.head?.any inRun = true → f run rest = none) :
    ((readings table (c :: cs)).findSome? fun r => f r.1 r.2) =
      if table.contains (spelling (c :: cs.takeWhile inRun)) then
        f (c :: cs.takeWhile inRun) (cs.dropWhile inRun)
      else none := by
  rw [findSome?_readings table htable (c :: cs) f hf]
  by_cases hc : inRun c = true
  · rw [List.takeWhile_cons_of_pos hc, List.dropWhile_cons_of_pos hc]
  · rw [List.takeWhile_cons_of_neg hc]
    have hnone : spelling [] ∉ table := fun h => ne_nil_of_spelled (htable h) rfl
    have hother : spelling (c :: cs.takeWhile inRun) ∉ table := fun h =>
      hc (inRun_of_spelled (htable h) c List.mem_cons_self)
    rw [if_neg (mt List.contains_iff_mem.1 hnone), if_neg (mt List.contains_iff_mem.1 hother)]

theorem head_dropWhile_inRun (cs : List Char) : (cs.dropWhile inRun).head?.any inRun = false := by
  have hhead := List.head?_dropWhile_not inRun cs
  cases h : (cs.dropWhile inRun).head? with
  | none => rfl
  | some c =>
    rw [h] at hhead
    simpa using hhead

/-- A word is looked up by its whole run: among the keywords, then among the functions. -/
theorem wordStep_eq (c : Char) (cs : List Char) :
    wordStep c cs =
      if isKeyword (c :: cs.takeWhile inRun) then
        keywordStep (c :: cs.takeWhile inRun) (cs.dropWhile inRun)
      else
        (if isFunction (c :: cs.takeWhile inRun) then
          functionStep (c :: cs.takeWhile inRun) (cs.dropWhile inRun) else none).getD
            (nameStep c cs) := by
  have hkeyword := findSome?_readings_cons keywords (List.subset_append_left _ _) c cs keywordStep?
    keywordStep?_goesOn
  have hfunction := findSome?_readings_cons functions (List.subset_append_right _ _) c cs functionStep
    functionStep_goesOn
  have hwhole : keywordStep? (c :: cs.takeWhile inRun) (cs.dropWhile inRun) =
      some (keywordStep (c :: cs.takeWhile inRun) (cs.dropWhile inRun)) := by
    rw [keywordStep?, head_dropWhile_inRun, if_neg Bool.false_ne_true]
  rw [wordStep, hkeyword, hfunction, hwhole, isKeyword, isFunction]
  split
  · next step h =>
    split at h
    · next hk => rw [if_pos hk, Option.some.inj h]
    · cases h
  · next h =>
    split at h
    · cases h
    · next hk =>
      rw [if_neg hk]
      split
      · next step hs => rw [hs, Option.getD_some]
      · next hs => rw [hs, Option.getD_none]

/-- Which way the scanner takes at a word: the run is a keyword, a function with its bracket, or neither. -/
theorem wordStep_cases (c : Char) (cs : List Char) :
    (isKeyword (c :: cs.takeWhile inRun) = true ∧
        wordStep c cs = keywordStep (c :: cs.takeWhile inRun) (cs.dropWhile inRun)) ∨
      (isKeyword (c :: cs.takeWhile inRun) = false ∧ isFunction (c :: cs.takeWhile inRun) = true ∧
        ∃ after, (cs.dropWhile inRun).dropWhile isBlank = '(' :: after ∧
          wordStep c cs = (opening after).after (piece .function (c :: cs.takeWhile inRun) ++
            piece .whitespace ((cs.dropWhile inRun).takeWhile isBlank))) ∨
      (isKeyword (c :: cs.takeWhile inRun) = false ∧
        (isFunction (c :: cs.takeWhile inRun) = true →
          ((cs.dropWhile inRun).dropWhile isBlank).head? ≠ some '(') ∧
        wordStep c cs = nameStep c cs) := by
  rw [wordStep_eq]
  cases hkeyword : isKeyword (c :: cs.takeWhile inRun) with
  | true => exact .inl ⟨rfl, if_pos rfl⟩
  | false =>
    rw [if_neg Bool.false_ne_true]
    cases hfunction : isFunction (c :: cs.takeWhile inRun) with
    | false => exact .inr (.inr ⟨rfl, fun h => Bool.noConfusion h, rfl⟩)
    | true =>
      rw [if_pos rfl, functionStep]
      split
      · next after hafter => exact .inr (.inl ⟨rfl, rfl, after, hafter, rfl⟩)
      · next hnone =>
        refine .inr (.inr ⟨rfl, fun _ hhead => ?_, rfl⟩)
        obtain ⟨after, hafter⟩ := List.head?_eq_some_iff.1 hhead
        exact hnone after hafter

end Scan
end SqlStyle
