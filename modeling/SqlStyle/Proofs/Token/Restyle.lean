import SqlStyle.Token.Style

/-! Writing a word in a style does not make a join of it: a word that spells `JOIN` in a style spells
`JOIN` (`upper_spell_join`). The letters of `JOIN` come from no other letters, whether a character is
written in upper or in lower case; on these letters upper case undoes both. -/
namespace SqlStyle.Text
set_option autoImplicit false

/-- The letters of `JOIN` in either case. The dotless i is one of them, since its capital is I. -/
def joinLetters : List Char :=
  ['J', 'O', 'I', 'N', 'j', 'o', 'i', 'n', 'ı']

/-! ## Single characters -/

theorem eq_toNat_of_ofNat_eq (n : Nat) (c : Char) (h : Char.ofNat n = c) (hc : 0 < c.toNat) :
    n = c.toNat := by
  by_cases hv : n.isValidChar
  · rw [← h, Char.ofNat, dif_pos hv]
    rfl
  · rw [← h, Char.ofNat, dif_neg hv] at hc
    exact absurd hc (Nat.lt_irrefl 0)

theorem toNat_pos_of_mem_joinLetters (c : Char) (h : c ∈ joinLetters) : 0 < c.toNat := by
  have hall : (joinLetters.all fun d => 0 < d.toNat) = true := by decide
  simpa using List.all_eq_true.1 hall c h

/-- The tables of the other case lead to letters of `JOIN` from such letters only. -/
def leadsFromLetters (runs : List CaseRun) (expansions : List (Nat × List Nat)) : Bool :=
  (expansions.all fun e => e.2.any fun n => !joinLetters.contains (Char.ofNat n)) &&
    runs.all fun run => joinLetters.all fun d =>
      let n := (d.toNat - run.shift).toNat
      !run.holds n || joinLetters.contains (Char.ofNat n)

/-- The other case within ASCII leads to letters of `JOIN` from such letters only. -/
def asciiLeadsFromLetters (ascii : Char → Char) : Bool :=
  (List.range 128).all fun n =>
    !joinLetters.contains (ascii (Char.ofNat n)) || joinLetters.contains (Char.ofNat n)

theorem mem_joinLetters_of_otherCase (runs : List CaseRun) (expansions : List (Nat × List Nat))
    (htables : leadsFromLetters runs expansions = true) (c : Char)
    (h : ∀ d ∈ otherCase runs expansions c, d ∈ joinLetters) : c ∈ joinLetters := by
  rw [leadsFromLetters, Bool.and_eq_true, List.all_eq_true, List.all_eq_true] at htables
  obtain ⟨hexpansions, hruns⟩ := htables
  unfold otherCase at h
  split at h
  · next points hp =>
    obtain ⟨before, after, he, -⟩ := List.lookup_eq_some_iff.1 hp
    obtain ⟨n, hn, hd⟩ := List.any_eq_true.1 (hexpansions (c.toNat, points) (by simp [he]))
    have hmem := h _ (List.mem_map_of_mem hn)
    rw [List.contains_iff_mem.2 hmem] at hd
    cases hd
  · split at h
    · next run hr =>
      have hd := h _ List.mem_cons_self
      have hpos := toNat_pos_of_mem_joinLetters _ hd
      have hn := eq_toNat_of_ofNat_eq _ _ rfl hpos
      generalize Char.ofNat (c.toNat + run.shift).toNat = d at hd hpos hn
      have hc : (d.toNat - run.shift).toNat = c.toNat := by omega
      have hrun := List.all_eq_true.1 (hruns run (List.mem_of_find?_eq_some hr)) d hd
      have hholds := (List.find?_eq_some_iff_append.1 hr).1
      simp only [hc, Char.ofNat_toNat, hholds, Bool.not_true, Bool.false_or] at hrun
      exact List.contains_iff_mem.1 hrun
    · exact h c List.mem_cons_self

theorem mem_joinLetters_of_cases (ascii : Char → Char) (runs : List CaseRun)
    (expansions : List (Nat × List Nat)) (hascii : asciiLeadsFromLetters ascii = true)
    (htables : leadsFromLetters runs expansions = true) (c : Char)
    (h : ∀ d ∈ if c.toNat < 128 then [ascii c] else otherCase runs expansions c, d ∈ joinLetters) :
    c ∈ joinLetters := by
  split at h
  · next hc =>
    have hn := List.all_eq_true.1 hascii c.toNat (List.mem_range.2 hc)
    rw [Char.ofNat_toNat, List.contains_iff_mem.2 (h _ List.mem_cons_self)] at hn
    exact List.contains_iff_mem.1 hn
  · exact mem_joinLetters_of_otherCase runs expansions htables c h

theorem mem_joinLetters_of_upperChar (c : Char) (h : ∀ d ∈ upperChar c, d ∈ joinLetters) :
    c ∈ joinLetters :=
  mem_joinLetters_of_cases Char.toUpper upperRuns upperExpansions (by decide +kernel)
    (by decide +kernel) c h

theorem mem_joinLetters_of_lowerChar (c : Char) (h : ∀ d ∈ lowerChar c, d ∈ joinLetters) :
    c ∈ joinLetters :=
  mem_joinLetters_of_cases Char.toLower lowerRuns lowerExpansions (by decide +kernel)
    (by decide +kernel) c h

theorem upperChar_joinLetters (c : Char) (h : c ∈ joinLetters) :
    (upperChar c).flatMap upperChar = upperChar c := by
  have hall : (joinLetters.all fun d => (upperChar d).flatMap upperChar == upperChar d) = true := by
    decide +kernel
  exact beq_iff_eq.1 (List.all_eq_true.1 hall c h)

theorem lowerChar_joinLetters (c : Char) (h : c ∈ joinLetters) :
    c ≠ 'Σ' ∧ (lowerChar c).flatMap upperChar = upperChar c := by
  have hall : (joinLetters.all fun d =>
      d != 'Σ' && (lowerChar d).flatMap upperChar == upperChar d) = true := by
    decide +kernel
  simpa using List.all_eq_true.1 hall c h

/-! ## Words -/

theorem mem_joinLetters_of_upper (cs : List Char)
    (h : ∀ d ∈ cs.flatMap upperChar, d ∈ joinLetters) : ∀ c ∈ cs, c ∈ joinLetters := by
  intro c hc
  apply mem_joinLetters_of_upperChar
  intro d hd
  exact h d (List.mem_flatMap.2 ⟨c, hc, hd⟩)

theorem mem_joinLetters_of_lower (before cs : List Char)
    (h : ∀ d ∈ lowerFrom before cs, d ∈ joinLetters) : ∀ c ∈ cs, c ∈ joinLetters := by
  induction cs generalizing before with
  | nil => simp
  | cons c cs ih =>
    rw [lowerFrom, List.forall_mem_append] at h
    refine List.forall_mem_cons.2 ⟨?_, ih (c :: before) h.2⟩
    obtain ⟨hc, -⟩ := h
    split at hc
    · have hsigma := hc _ List.mem_cons_self
      split at hsigma <;> simp [joinLetters] at hsigma
    · exact mem_joinLetters_of_lowerChar c hc

theorem upper_upper_of_joinLetters (cs : List Char) (h : ∀ c ∈ cs, c ∈ joinLetters) :
    (cs.flatMap upperChar).flatMap upperChar = cs.flatMap upperChar := by
  induction cs with
  | nil => rfl
  | cons c cs ih =>
    obtain ⟨hc, hcs⟩ := List.forall_mem_cons.1 h
    rw [List.flatMap_cons, List.flatMap_append, upperChar_joinLetters c hc, ih hcs]

theorem upper_lower_of_joinLetters (before cs : List Char) (h : ∀ c ∈ cs, c ∈ joinLetters) :
    (lowerFrom before cs).flatMap upperChar = cs.flatMap upperChar := by
  induction cs generalizing before with
  | nil => rfl
  | cons c cs ih =>
    obtain ⟨hc, hcs⟩ := List.forall_mem_cons.1 h
    obtain ⟨hsigma, hlower⟩ := lowerChar_joinLetters c hc
    rw [lowerFrom, if_neg hsigma, List.flatMap_append, hlower, ih (c :: before) hcs,
      List.flatMap_cons]

end SqlStyle.Text

namespace SqlStyle.KeywordStyle
open Text

theorem upper_spell_join (style : KeywordStyle) (w : String) (h : upper (style.spell w) = "JOIN") :
    upper w = "JOIN" := by
  have hjoin : ∀ d ∈ (upper (style.spell w)).toList, d ∈ joinLetters := by
    rw [h]
    simp [joinLetters]
  rw [upper, String.toList_ofList] at hjoin
  have hspelled := mem_joinLetters_of_upper _ hjoin
  rw [← h, upper, upper]
  cases style with
  | lower =>
    rw [spell, Text.lower, String.toList_ofList] at hspelled ⊢
    rw [upper_lower_of_joinLetters [] w.toList (mem_joinLetters_of_lower [] w.toList hspelled)]
  | upperAll =>
    rw [spell, upper, String.toList_ofList] at hspelled ⊢
    rw [upper_upper_of_joinLetters w.toList (mem_joinLetters_of_upper w.toList hspelled)]
  | upperHead =>
    rw [spell, headUpper] at hspelled ⊢
    split at hspelled
    · next hw => rw [hw]; rfl
    · next c cs hw =>
      rw [String.toList_ofList, List.forall_mem_append] at hspelled
      have hc := mem_joinLetters_of_upperChar c hspelled.1
      have hcs := mem_joinLetters_of_lower [] cs hspelled.2
      rw [hw, String.toList_ofList, List.flatMap_append, upperChar_joinLetters c hc,
        upper_lower_of_joinLetters [] cs hcs, List.flatMap_cons]

end SqlStyle.KeywordStyle
