import Mathlib.Data.Bool.AllAny
import Mathlib.Data.List.Basic
import SqlStyle.Proofs.Clause.Faithful
import SqlStyle.Proofs.Layout.Passes
import SqlStyle.Proofs.Token.Lexical

/-! Writing a reserved word in a style changes no more than its case, if its letters change case one by one.
All letters that can stand in a reserved word do, but for the Kelvin sign, whose small form is the small
k, and the dotted capital I, whose small form is two characters long (`mem_letters_of_reserved`). Such
a word in a style spells the same reserved word and has the same length. Any reserved word in a style stays
as it is when it is written in the style once more (`spell_spell`). -/
namespace SqlStyle.Text
set_option autoImplicit false

/-! ## Letters -/

/-- The letters whose case changes letter by letter, among those that can stand in a reserved word. -/
def stableLetters : List Char :=
  ("ABCDEFGHIJKLMNOPQRSTUVWXYZabcdefghijklmnopqrstuvwxyz" ++ "0123456789_,*ſı").toList

def capital (c : Char) : Char :=
  (upperChar c).headD c

def small (c : Char) : Char :=
  (lowerChar c).headD c

/-- What the case of a letter does to it: one letter stays one letter, and the letter it stands for in a
reserved word stays the same. -/
structure IsStable (c : Char) : Prop where
  ne_sigma : c ≠ 'Σ'
  upperChar : upperChar c = [capital c]
  lowerChar : lowerChar c = [small c]
  capital_mem : capital c ∈ stableLetters
  small_mem : small c ∈ stableLetters
  capital_capital : capital (capital c) = capital c
  capital_small : capital (small c) = capital c
  small_small : small (small c) = small c
  letter_capital : Reserved.letter (capital c) = Reserved.letter c
  letter_small : Reserved.letter (small c) = Reserved.letter c

theorem isStable {c : Char} (h : c ∈ stableLetters) : IsStable c := by
  have hall : ∀ d ∈ stableLetters, d ≠ 'Σ' ∧ upperChar d = [capital d] ∧ lowerChar d = [small d] ∧
      capital d ∈ stableLetters ∧ small d ∈ stableLetters ∧ capital (capital d) = capital d ∧
      capital (small d) = capital d ∧ small (small d) = small d ∧
      Reserved.letter (capital d) = Reserved.letter d ∧ Reserved.letter (small d) = Reserved.letter d :=
    List.all_iff_forall_prop.1 (by decide +kernel)
  obtain ⟨h1, h2, h3, h4, h5, h6, h7, h8, h9, h10⟩ := hall c h
  exact ⟨h1, h2, h3, h4, h5, h6, h7, h8, h9, h10⟩

/-! ## Words -/

theorem upper_eq_map (cs : List Char) (h : ∀ c ∈ cs, upperChar c = [capital c]) :
    cs.flatMap upperChar = cs.map capital := by
  rw [List.map_eq_flatMap]
  exact List.flatMap_congr h

theorem upper_of_stable (cs : List Char) (h : ∀ c ∈ cs, c ∈ stableLetters) :
    cs.flatMap upperChar = cs.map capital :=
  upper_eq_map cs fun c hc => (isStable (h c hc)).upperChar

theorem lower_of_stable (before cs : List Char) (h : ∀ c ∈ cs, c ∈ stableLetters) :
    lowerFrom before cs = cs.map small := by
  induction cs generalizing before with
  | nil => rfl
  | cons c cs ih =>
    obtain ⟨hc, hcs⟩ := List.forall_mem_cons.1 h
    rw [lowerFrom, if_neg (isStable hc).ne_sigma, (isStable hc).lowerChar, ih (c :: before) hcs]
    rfl

end SqlStyle.Text

namespace SqlStyle.KeywordStyle
open Text

def spelled (style : KeywordStyle) (cs : List Char) : List Char :=
  match style with
  | lower => cs.map small
  | upperAll => cs.map capital
  | upperHead => (cs.take 1).map capital ++ (cs.drop 1).map small

theorem toList_spell (style : KeywordStyle) (w : String) (h : ∀ c ∈ w.toList, c ∈ stableLetters) :
    (style.spell w).toList = style.spelled w.toList := by
  cases style with
  | lower => rw [spell, Text.lower, String.toList_ofList, lower_of_stable [] w.toList h]; rfl
  | upperAll => rw [spell, Text.upper, String.toList_ofList, upper_of_stable w.toList h]; rfl
  | upperHead =>
    rw [spell, headUpper]
    split
    · next hw =>
      rw [hw]
      rfl
    · next c cs hw =>
      rw [hw] at h ⊢
      obtain ⟨hc, hcs⟩ := List.forall_mem_cons.1 h
      rw [String.toList_ofList, lower_of_stable [] cs hcs, (isStable hc).upperChar]
      rfl

theorem map_spelled {α : Type} (f : Char → α) (style : KeywordStyle) (cs : List Char)
    (hcapital : ∀ c ∈ cs, f (capital c) = f c) (hsmall : ∀ c ∈ cs, f (small c) = f c) :
    (style.spelled cs).map f = cs.map f := by
  cases style with
  | lower => rw [spelled, List.map_map]; exact List.map_congr_left hsmall
  | upperAll => rw [spelled, List.map_map]; exact List.map_congr_left hcapital
  | upperHead =>
    have hhead : ((cs.take 1).map capital).map f = (cs.take 1).map f := by
      rw [List.map_map]
      exact List.map_congr_left fun c hc => hcapital c (List.mem_of_mem_take hc)
    have htail : ((cs.drop 1).map small).map f = (cs.drop 1).map f := by
      rw [List.map_map]
      exact List.map_congr_left fun c hc => hsmall c (List.mem_of_mem_drop hc)
    rw [spelled, List.map_append, hhead, htail, ← List.map_append, List.take_append_drop]

theorem length_spelled (style : KeywordStyle) (cs : List Char) :
    (style.spelled cs).length = cs.length := by
  have h := congrArg List.length (map_spelled (fun _ => ()) style cs (fun _ _ => rfl) (fun _ _ => rfl))
  rwa [List.length_map, List.length_map] at h

theorem mem_stableLetters_spelled (style : KeywordStyle) (cs : List Char)
    (h : ∀ c ∈ cs, c ∈ stableLetters) : ∀ c ∈ style.spelled cs, c ∈ stableLetters := by
  have hcapital : ∀ ds : List Char, ds ⊆ cs → ∀ c ∈ ds.map capital, c ∈ stableLetters := by
    intro ds hds c hc
    obtain ⟨d, hd, rfl⟩ := List.mem_map.1 hc
    exact (isStable (h d (hds hd))).capital_mem
  have hsmall : ∀ ds : List Char, ds ⊆ cs → ∀ c ∈ ds.map small, c ∈ stableLetters := by
    intro ds hds c hc
    obtain ⟨d, hd, rfl⟩ := List.mem_map.1 hc
    exact (isStable (h d (hds hd))).small_mem
  cases style with
  | lower => exact hsmall cs (List.Subset.refl cs)
  | upperAll => exact hcapital cs (List.Subset.refl cs)
  | upperHead =>
    exact List.forall_mem_append.2 ⟨hcapital _ (List.take_subset 1 cs), hsmall _ (List.drop_subset 1 cs)⟩

end SqlStyle.KeywordStyle

/-! ## Reserved words -/

namespace SqlStyle.Reserved
open Text

/-- The letters of reserved words that do not change case letter by letter: the Kelvin sign and the dotted
capital I. -/
def unstableLetters : List Char :=
  ['\u212a', 'İ']

def isEntryLetter (c : Char) : Bool :=
  c.toNat < 128 && (c.isUpper || c.isDigit || c == '_' || c == ',')

theorem isEntryLetter_of_mem : ∀ entry ∈ keywords ++ functions, (letters entry).all isEntryLetter = true := by
  decide +kernel

theorem toNat_of_isEntryLetter {c : Char} (h : isEntryLetter c = true) : c.toNat < 128 := by
  rw [isEntryLetter, Bool.and_eq_true, decide_eq_true_eq] at h
  exact h.1

theorem mem_letters_of_letter (c : Char) (h : isEntryLetter (letter c) = true) :
    c ∈ stableLetters ++ unstableLetters := by
  have hascii : ∀ d : Char, d.toNat < 128 → isEntryLetter d = true → d ∈ stableLetters :=
    forall_of_forall_ofNat (by decide +kernel)
  have hvariants : variants ⊆ stableLetters ++ unstableLetters := by decide
  rcases letter_cases c with hself | hc
  · rw [hself] at h
    exact List.mem_append_left _ (hascii c (toNat_of_isEntryLetter h) h)
  · exact hvariants hc

/-- The letters of reserved words change case letter by letter, but for two of them. -/
theorem mem_letters_of_reserved (cs : List Char) (h : spelling cs ∈ keywords ++ functions) :
    ∀ c ∈ cs, c ∈ stableLetters ++ unstableLetters := by
  have hentry := isEntryLetter_of_mem _ h
  rw [letters_spelling h, List.all_map, List.all_eq_true] at hentry
  intro c hc
  exact mem_letters_of_letter c (hentry c hc)

/-- What the case of a letter of a reserved word does to it: the forms that it gets have their case already. -/
structure IsSettled (c : Char) : Prop where
  ne_sigma : c ≠ 'Σ'
  upperChar : upperChar c = [capital c]
  capital : Text.upperChar (capital c) = [capital c]
  small : ∀ d ∈ lowerChar c, d ≠ 'Σ' ∧ lowerChar d = [d]

theorem isSettled_of_stable {c : Char} (h : c ∈ stableLetters) : IsSettled c := by
  have hc := isStable h
  have hcapital := (isStable hc.capital_mem).upperChar
  have hsmall := (isStable hc.small_mem).lowerChar
  rw [hc.capital_capital] at hcapital
  rw [hc.small_small] at hsmall
  refine ⟨hc.ne_sigma, hc.upperChar, hcapital, ?_⟩
  rw [hc.lowerChar, List.forall_mem_singleton]
  exact ⟨(isStable hc.small_mem).ne_sigma, hsmall⟩

theorem isSettled {c : Char} (h : c ∈ stableLetters ++ unstableLetters) : IsSettled c := by
  have hall : ∀ d ∈ unstableLetters, d ≠ 'Σ' ∧ upperChar d = [capital d] ∧
      upperChar (capital d) = [capital d] ∧ ((lowerChar d).all fun e => e ≠ 'Σ' ∧ lowerChar e = [e]) = true :=
    List.all_iff_forall_prop.1 (by decide +kernel)
  rcases List.mem_append.1 h with hc | hc
  · exact isSettled_of_stable hc
  · obtain ⟨hsigma, hupper, hcapital, hsmall⟩ := hall c hc
    exact ⟨hsigma, hupper, hcapital, List.all_iff_forall_prop.1 hsmall⟩

theorem spelling_spelled (style : KeywordStyle) (cs : List Char) (h : ∀ c ∈ cs, c ∈ stableLetters) :
    spelling (style.spelled cs) = spelling cs := by
  rw [spelling, spelling, style.map_spelled letter cs (fun c hc => (isStable (h c hc)).letter_capital)
    fun c hc => (isStable (h c hc)).letter_small]

end SqlStyle.Reserved

namespace SqlStyle.KeywordStyle
open Text Reserved

theorem lowerFrom_of_small (before cs : List Char) (h : ∀ c ∈ cs, c ≠ 'Σ' ∧ lowerChar c = [c]) :
    lowerFrom before cs = cs := by
  induction cs generalizing before with
  | nil => rfl
  | cons c cs ih =>
    obtain ⟨⟨hsigma, hc⟩, hcs⟩ := List.forall_mem_cons.1 h
    rw [lowerFrom, if_neg hsigma, hc, ih (c :: before) hcs]
    rfl

theorem small_of_mem_lowerFrom (before cs : List Char) (h : ∀ c ∈ cs, IsSettled c) :
    ∀ d ∈ lowerFrom before cs, d ≠ 'Σ' ∧ lowerChar d = [d] := by
  induction cs generalizing before with
  | nil => simp [lowerFrom]
  | cons c cs ih =>
    obtain ⟨hc, hcs⟩ := List.forall_mem_cons.1 h
    rw [lowerFrom, if_neg hc.ne_sigma, List.forall_mem_append]
    exact ⟨hc.small, ih (c :: before) hcs⟩

/-- A reserved word in a style stays as it is when it is written in the style once more. -/
theorem spell_spell (style : KeywordStyle) (w : String)
    (h : ∀ c ∈ w.toList, c ∈ stableLetters ++ unstableLetters) :
    style.spell (style.spell w) = style.spell w := by
  have hsettled : ∀ c ∈ w.toList, IsSettled c := fun c hc => isSettled (h c hc)
  cases style with
  | lower =>
    have hsmall := small_of_mem_lowerFrom [] w.toList hsettled
    simp only [spell, Text.lower, String.toList_ofList, lowerFrom_of_small [] _ hsmall]
  | upperAll =>
    have hcapital : ∀ c ∈ w.toList, upperChar (capital c) = [capital c] :=
      fun c hc => (hsettled c hc).capital
    simp only [spell, Text.upper, String.toList_ofList]
    rw [upper_eq_map w.toList fun c hc => (hsettled c hc).upperChar, List.flatMap_map, List.map_eq_flatMap,
      List.flatMap_congr hcapital]
  | upperHead =>
    cases hw : w.toList with
    | nil => simp only [spell, headUpper, hw, String.toList_empty]
    | cons c cs =>
      obtain ⟨hc, hcs⟩ := List.forall_mem_cons.1 (hw ▸ hsettled)
      have hsmall := small_of_mem_lowerFrom [] cs hcs
      simp only [spell, headUpper, hw, hc.upperChar, String.toList_ofList, List.singleton_append, hc.capital,
        lowerFrom_of_small [] _ hsmall]

/-- A reserved word in a style can be written in the style, and is so already. -/
theorem write_spell (style : KeywordStyle) (w : String) (hne : w ≠ "")
    (h : ∀ c ∈ w.toList, c ∈ stableLetters ++ unstableLetters) :
    style.write (style.spell w) = .ok (style.spell w) := by
  rw [write, spell_spell style w h, if_neg]
  rintro ⟨rfl, hempty⟩
  cases hw : w.toList with
  | nil => exact hne (String.toList_eq_nil_iff.1 hw)
  | cons c cs =>
    have hc := isSettled (h c (hw ▸ List.mem_cons_self))
    simp [spell, headUpper, hw, hc.upperChar] at hempty

end SqlStyle.KeywordStyle

/-! ## Tokens -/

namespace SqlStyle.Layout
open Clause Text

/-- The word of the token changes case letter by letter. -/
def IsStableWord (t : Token) : Prop :=
  ∀ c ∈ t.word.toList, c ∈ stableLetters

instance (t : Token) : Decidable (IsStableWord t) :=
  List.decidableBAll _ _

/-- A token written in the style, if it is a reserved word that changes case letter by letter. -/
def recased (style : KeywordStyle) (t : Token) : Token :=
  if IsStableWord t then restyled style t else t

theorem word_restyled {style : KeywordStyle} {t : Token} (hk : t.kind.isReserved = true)
    (h : IsStableWord t) : (restyled style t).word.toList = style.spelled t.word.toList := by
  rw [restyled, if_pos hk]
  exact style.toList_spell t.word h

theorem restyled_of_not_reserved (style : KeywordStyle) {t : Token} (hk : t.kind.isReserved = false) :
    restyled style t = t := by
  rw [restyled, hk]
  rfl

theorem isStableWord_restyled (style : KeywordStyle) {t : Token} (h : IsStableWord t) :
    IsStableWord (restyled style t) := by
  cases hk : t.kind.isReserved with
  | false => rwa [restyled_of_not_reserved style hk]
  | true =>
    rw [IsStableWord, word_restyled hk h]
    exact style.mem_stableLetters_spelled _ h

theorem key_restyled (style : KeywordStyle) {t : Token} (h : IsStableWord t) :
    (restyled style t).key = t.key := by
  cases hk : t.kind.isReserved with
  | false => rw [restyled_of_not_reserved style hk]
  | true =>
    rw [Token.key, Token.key, upper, upper, upper_of_stable _ (isStableWord_restyled style h),
      upper_of_stable _ h, word_restyled hk h, style.map_spelled capital _
        (fun c hc => (isStable (h c hc)).capital_capital) fun c hc => (isStable (h c hc)).capital_small]

theorem length_restyled (style : KeywordStyle) {t : Token} (h : IsStableWord t) :
    (restyled style t).length = t.length := by
  cases hk : t.kind.isReserved with
  | false => rw [restyled_of_not_reserved style hk]
  | true =>
    rw [Token.length, Token.length, ← String.length_toList, ← String.length_toList, word_restyled hk h,
      style.length_spelled]

theorem restyled_restyled (style : KeywordStyle) {t : Token} (h : IsStableWord t) :
    restyled style (restyled style t) = restyled style t := by
  cases hk : t.kind.isReserved with
  | false => rw [restyled_of_not_reserved style hk, restyled_of_not_reserved style hk]
  | true =>
    have hword := style.spell_spell t.word fun c hc => List.mem_append_left _ (h c hc)
    simp only [restyled, hk, if_true, hword]

theorem not_semicolon_of_stable {t : Token} (h : IsStableWord t) : (t.word == ";") = false := by
  rw [beq_eq_false_iff_ne]
  intro hw
  have hmem : ';' ∈ t.word.toList := by rw [hw]; decide
  exact absurd (h ';' hmem) (by decide)

/-- Splitting a run does not see whether its reserved words are written in the style. -/
theorem faithful_recased (style : KeywordStyle) : Faithful (recased style) where
  kind t := by
    unfold recased
    split
    · exact kind_restyled style t
    · rfl
  key t := by
    unfold recased
    split
    · next h => exact key_restyled style h
    · rfl
  length t := by
    unfold recased
    split
    · next h => exact length_restyled style h
    · rfl
  semicolon t := by
    unfold recased
    split
    · next h =>
      rw [not_semicolon_of_stable h, not_semicolon_of_stable (isStableWord_restyled style h)]
    · rfl

theorem restyled_recased (style : KeywordStyle) (t : Token) :
    restyled style (recased style t) = restyled style t := by
  unfold recased
  split
  · next h => exact restyled_restyled style h
  · rfl

/-- The reserved word is written without the Kelvin sign and without the dotted capital I. -/
def CaseSafe (t : Token) : Prop :=
  t.kind.isReserved = true → ∀ c ∈ t.word.toList, c ∉ Reserved.unstableLetters

instance (t : Token) : Decidable (CaseSafe t) :=
  @instDecidableForall _ _ _ (List.decidableBAll _ _)

theorem mem_letters_of_lexical {t : Token} (h : Scan.Lexical t) (hk : t.kind.isReserved = true) :
    ∀ c ∈ t.word.toList, c ∈ stableLetters ++ Reserved.unstableLetters := by
  have hletters : t.word.toList = ['*'] ∨
      Reserved.spelling t.word.toList ∈ Reserved.keywords ++ Reserved.functions := by
    obtain ⟨-, hfits⟩ := h
    rcases (by simpa [Kind.isReserved] using hk : t.kind = .keyword ∨ t.kind = .function) with hk | hk
    · rw [hk] at hfits
      exact hfits.imp_right fun hw => List.mem_append_left _ (List.contains_iff_mem.1 hw)
    · rw [hk] at hfits
      exact .inr (List.mem_append_right _ (List.contains_iff_mem.1 hfits.1))
  rcases hletters with hstar | hspelling
  · rw [hstar, List.forall_mem_singleton]
    decide
  · exact Reserved.mem_letters_of_reserved _ hspelling

theorem isStableWord_of_lexical {t : Token} (h : Scan.Lexical t) (hsafe : CaseSafe t)
    (hk : t.kind.isReserved = true) : IsStableWord t := by
  intro c hc
  rcases List.mem_append.1 (mem_letters_of_lexical h hk c hc) with hmem | hmem
  · exact hmem
  · exact absurd hmem (hsafe hk c hc)

theorem recased_of_lexical (style : KeywordStyle) {t : Token} (h : Scan.Lexical t)
    (hsafe : CaseSafe t) : recased style t = restyled style t := by
  unfold recased
  cases hk : t.kind.isReserved with
  | false =>
    rw [restyled_of_not_reserved style hk]
    split <;> rfl
  | true => rw [if_pos (isStableWord_of_lexical h hsafe hk)]

theorem lexical_restyled (style : KeywordStyle) {t : Token} (h : Scan.Lexical t) (hsafe : CaseSafe t) :
    Scan.Lexical (restyled style t) := by
  cases hk : t.kind.isReserved with
  | false => rwa [restyled_of_not_reserved style hk]
  | true =>
    have hstable := isStableWord_of_lexical h hsafe hk
    have hspelling := Reserved.spelling_spelled style t.word.toList hstable
    obtain ⟨hmark, hfits⟩ := h
    refine ⟨by rw [restyled, if_pos hk]; exact hmark, ?_⟩
    rw [kind_restyled, word_restyled hk hstable]
    rcases (by simpa [Kind.isReserved] using hk : t.kind = .keyword ∨ t.kind = .function) with hk | hk
    · rw [hk] at hfits ⊢
      rcases hfits with hstar | hword
      · refine .inl ?_
        rw [hstar]
        cases style <;> decide
      · refine .inr ?_
        rwa [Reserved.isKeyword, hspelling]
    · rw [hk] at hfits ⊢
      rwa [Scan.Fits, Reserved.isFunction, Reserved.isKeyword, hspelling]

end SqlStyle.Layout
