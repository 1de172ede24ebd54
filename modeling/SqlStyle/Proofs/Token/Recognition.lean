import Mathlib.Data.List.Forall2
import SqlStyle.Proofs.Token.Legible

/-! Recognition of reserved words and of literals. What the first word of a text is can be told from its run,
the characters up to the next blank, left bracket or end of the text: it is a keyword if the run is an
entry of the keywords letter by letter, and a function if it is an entry of the functions and a left bracket
follows (`exists_first_token`). Neither the order of a table nor the entries that begin with another one
matter. A literal in quotes ends at the last of its quotes in the run of nonblank characters, and not at the
next one (`exists_quoted_token`). -/
namespace SqlStyle
set_option autoImplicit false
open Text

/-! ## Entries letter by letter -/

namespace Reserved

/-- A letter of an entry is spelled by itself or by its small letter. Four more characters differ from these
in their case only: the long s, the Kelvin sign, the dotted capital I and the dotless small i. -/
def Spells (e c : Char) : Prop :=
  c = e ∨ c = e.toLower ∨ (e, c) ∈ [('S', 'ſ'), ('K', '\u212a'), ('I', 'İ'), ('I', 'ı')]

/-- The run is an entry of the table, letter by letter. -/
def IsEntry (table : List String) (run : List Char) : Prop :=
  ∃ entry ∈ table, List.Forall₂ Spells entry.toList run

instance (e c : Char) : Decidable (Spells e c) :=
  inferInstanceAs (Decidable (c = e ∨ c = e.toLower ∨ (e, c) ∈ _))

theorem letter_of_spells {e c : Char} (he : isEntryLetter e = true) (h : Spells e c) : letter c = e := by
  have hascii : ∀ d : Char, d.toNat < 128 → isEntryLetter d = true → letter d = d ∧ letter d.toLower = d :=
    forall_of_forall_ofNat (by decide +kernel)
  have hpairs : ∀ p ∈ [('S', 'ſ'), ('K', '\u212a'), ('I', 'İ'), ('I', 'ı')], letter p.2 = p.1 :=
    List.all_iff_forall_prop.1 (by decide)
  obtain ⟨hself, hsmall⟩ := hascii e (toNat_of_isEntryLetter he) he
  rcases h with rfl | rfl | h
  · exact hself
  · exact hsmall
  · exact hpairs _ h

theorem spells_letter (c : Char) : Spells (letter c) c := by
  have hvariants : ∀ d ∈ variants, Spells (letter d) d := List.all_iff_forall_prop.1 (by decide)
  rcases letter_cases c with hself | hc
  · exact .inl hself.symm
  · exact hvariants c hc

theorem forall₂_spells_iff (es run : List Char) (hes : ∀ e ∈ es, isEntryLetter e = true) :
    List.Forall₂ Spells es run ↔ run.map letter = es := by
  induction es generalizing run with
  | nil => rw [List.forall₂_nil_left_iff, List.map_eq_nil_iff]
  | cons e es ih =>
    obtain ⟨he, hes⟩ := List.forall_mem_cons.1 hes
    cases run with
    | nil => exact iff_of_false (by simp) (by simp)
    | cons c run =>
      have hhead : Spells e c ↔ letter c = e :=
        ⟨letter_of_spells he, fun h => h ▸ spells_letter c⟩
      rw [List.forall₂_cons, ih run hes, hhead, List.map_cons, List.cons.injEq]

theorem isEntry_iff (table : List String) (htable : table ⊆ keywords ++ functions) (run : List Char) :
    IsEntry table run ↔ spelling run ∈ table := by
  have hspells : ∀ entry ∈ table, (List.Forall₂ Spells entry.toList run ↔ spelling run = entry) := by
    intro entry hentry
    have hmem := htable hentry
    have hletters : entry.toList = letters entry := by
      conv_lhs => rw [← ofList_letters entry hmem]
      exact String.toList_ofList
    rw [hletters, forall₂_spells_iff _ _ (List.all_eq_true.1 (isEntryLetter_of_mem entry hmem)),
      spelling_eq_iff hmem]
  constructor
  · rintro ⟨entry, hentry, hrun⟩
    rwa [(hspells entry hentry).1 hrun]
  · intro hrun
    exact ⟨spelling run, hrun, (hspells _ hrun).2 rfl⟩

theorem isEntry_keywords_iff (run : List Char) : IsEntry keywords run ↔ isKeyword run = true := by
  rw [isEntry_iff keywords (List.subset_append_left _ _), isKeyword, List.contains_iff_mem]

theorem isEntry_functions_iff (run : List Char) : IsEntry functions run ↔ isFunction run = true := by
  rw [isEntry_iff functions (List.subset_append_right _ _), isFunction, List.contains_iff_mem]

end Reserved

/-! ## The first token -/

namespace Scan
open Reserved Token

theorem head_code_scanLine (text : List Char) (t : Token)
    (h : (code (lexeme (text.dropWhile isBlank)).tokens).head? = some t) :
    (code (scanLine false text).1).head? = some t := by
  cases text with
  | nil => cases h
  | cons c cs =>
    rw [scanLine_cons, step, if_neg Bool.false_ne_true]
    simp only [Step.after, code_append, code_blanks, List.nil_append]
    rw [List.head?_append, h]
    rfl

theorem head_code_keywordStep (c : Char) (cs rest : List Char) :
    (code (keywordStep (c :: cs) rest).tokens).head? =
      some ⟨.keyword, String.ofList (c :: cs), none⟩ := by
  unfold keywordStep
  split <;> rfl

theorem head_code_nameStep (c : Char) (cs : List Char) :
    ∃ t, (code (nameStep c cs).tokens).head? = some t ∧ (t.kind = .operator ∨ t.kind = .identifier) := by
  unfold nameStep
  split
  · exact ⟨_, rfl, .inl rfl⟩
  · split
    · exact ⟨_, rfl, .inr rfl⟩
    · exact ⟨_, rfl, .inr rfl⟩

theorem head_code_wordStep (c : Char) (cs run rest : List Char) (hrun : c :: cs.takeWhile inRun = run)
    (hrest : cs.dropWhile inRun = rest) :
    ∃ t, (code (wordStep c cs).tokens).head? = some t ∧
      (t.kind = .keyword ↔ isKeyword run = true) ∧
      (t.kind = .keyword → t.word = String.ofList run) ∧
      (¬ isKeyword run = true →
        (t.kind = .function ↔ isFunction run = true ∧ (rest.dropWhile isBlank).head? = some '(') ∧
        (t.kind = .function → t.word = String.ofList run)) := by
  have hcases := wordStep_cases c cs
  rw [hrun, hrest] at hcases
  rcases hcases with ⟨hkeyword, hstep⟩ | ⟨hkeyword, hfunction, after, hafter, hstep⟩ |
      ⟨hkeyword, hfunction, hstep⟩
  · refine ⟨⟨.keyword, String.ofList run, none⟩, ?_, iff_of_true rfl hkeyword, fun _ => rfl, ?_⟩
    · rw [hstep, ← hrun, head_code_keywordStep]
    · intro hnot
      exact absurd hkeyword hnot
  · have hbracket : (rest.dropWhile isBlank).head? = some '(' := by rw [hafter, List.head?_cons]
    rw [hkeyword]
    refine ⟨⟨.function, String.ofList run, none⟩, ?_, iff_of_false Kind.noConfusion Bool.false_ne_true,
      Kind.noConfusion, ?_⟩
    · rw [hstep, ← hrun]
      rfl
    · intro _
      exact ⟨iff_of_true rfl ⟨hfunction, hbracket⟩, fun _ => rfl⟩
  · obtain ⟨t, hname, hkind⟩ := head_code_nameStep c cs
    have hneither : t.kind ≠ .keyword ∧ t.kind ≠ .function := by
      rcases hkind with hkind | hkind <;> rw [hkind] <;> exact ⟨Kind.noConfusion, Kind.noConfusion⟩
    obtain ⟨hnotKeyword, hnotFunction⟩ := hneither
    have hlookup : ¬ (isFunction run = true ∧ (rest.dropWhile isBlank).head? = some '(') :=
      fun h => hfunction h.1 h.2
    rw [hkeyword, hstep]
    refine ⟨t, hname, iff_of_false hnotKeyword Bool.false_ne_true, fun h => absurd h hnotKeyword, ?_⟩
    intro _
    exact ⟨iff_of_false hnotFunction hlookup, fun h => absurd h hnotFunction⟩

/-- The first word of a text is looked up by its run. -/
theorem exists_first_token (text run rest : List Char) (c : Char)
    (hfirst : (text.dropWhile isBlank).head? = some c) (hc : c ∉ [',', '(', ')', '#', '.'])
    (hline : ¬ ['-', '-'] <+: text.dropWhile isBlank) (hblock : ¬ ['/', '*'] <+: text.dropWhile isBlank)
    (hrun : (text.dropWhile isBlank).takeWhile inRun = run)
    (hrest : (text.dropWhile isBlank).dropWhile inRun = rest) :
    ∃ t, (code (scanLine false text).1).head? = some t ∧
      (t.kind = .keyword ↔ IsEntry keywords run) ∧
      (t.kind = .keyword → t.word = String.ofList run) ∧
      (¬ IsEntry keywords run →
        (t.kind = .function ↔ IsEntry functions run ∧ (rest.dropWhile isBlank).head? = some '(') ∧
        (t.kind = .function → t.word = String.ofList run)) := by
  obtain ⟨cs, hcs⟩ := List.head?_eq_some_iff.1 hfirst
  have hword : BeginsWord c := by
    have hblank := List.head?_dropWhile_not isBlank text
    rw [hfirst] at hblank
    exact ⟨by simpa using hblank, hc⟩
  have hin : inRun c = true := by
    rw [inRun, hword.1]
    simp only [List.mem_cons, not_or] at hc
    simp [hc.2.1]
  have hhead := head_code_scanLine text
  rw [hcs] at hline hblock hrun hrest hhead
  rw [lexeme_word c cs hword hblock hline] at hhead
  rw [List.takeWhile_cons_of_pos hin] at hrun
  rw [List.dropWhile_cons_of_pos hin] at hrest
  obtain ⟨t, ht, hlookup⟩ := head_code_wordStep c cs run rest hrun hrest
  rw [isEntry_keywords_iff, isEntry_functions_iff]
  exact ⟨t, hhead t ht, hlookup⟩

/-- The run of `Current_Date` begins with a keyword and is a function. -/
theorem exists_first_token_of_date :
    ∃ t, (code (scanLine false " Current_Date ()".toList).1).head? = some t ∧
      t.kind = .function ∧ t.word = "Current_Date" := by
  obtain ⟨t, ht, -, -, hother⟩ := exists_first_token " Current_Date ()".toList "Current_Date".toList
    " ()".toList 'C' (by decide +kernel) (by decide) (by decide +kernel) (by decide +kernel)
    (by decide +kernel) (by decide +kernel)
  rw [isEntry_keywords_iff, isEntry_functions_iff] at hother
  obtain ⟨hfunction, hword⟩ := hother (by decide +kernel)
  have hkind := hfunction.2 (by decide +kernel)
  exact ⟨t, ht, hkind, by rw [hword hkind, String.ofList_toList]⟩

/-! ## Literals in quotes -/

theorem scanLine_lexeme (c : Char) (cs : List Char) (hc : isBlank c = false) :
    (scanLine false (c :: cs)).1 =
      (lexeme (c :: cs)).tokens ++ (scanLine (lexeme (c :: cs)).inComment (lexeme (c :: cs)).rest).1 := by
  have hblank : ¬ isBlank c = true := by simp [hc]
  rw [scanLine_cons, step, if_neg Bool.false_ne_true, List.dropWhile_cons_of_neg hblank,
    List.takeWhile_cons_of_neg hblank]
  rfl

/-- What is read of a text in which a blank stands ends before that blank. -/
theorem takeWhile_append_of_blank (p : Char → Bool) (s r : List Char)
    (hp : ∀ c, p c = true → isBlank c = false) (hs : ∃ c ∈ s, isBlank c = true) :
    (s ++ r).takeWhile p = s.takeWhile p := by
  obtain ⟨c, hc, hblank⟩ := hs
  rw [List.takeWhile_append, if_neg]
  intro hlength
  have hall := List.takeWhile_eq_self_iff.1 ((List.takeWhile_prefix p).eq_of_length hlength)
  rw [hp c (hall c hc)] at hblank
  cases hblank

section Quote
variable {q : Char} (hq : isQuote q = true)
include hq

theorem nameStep_of_quote (cs : List Char) : (nameStep q cs).tokens <+: (scanLine false (q :: cs)).1 := by
  obtain ⟨hbegin, ho⟩ := beginsWord_of_quote hq
  have hlexeme : lexeme (q :: cs) = nameStep q cs :=
    lexeme_eq_nameStep (lexeme_of_not_operator q cs hbegin ho) fun _ => not_isReserved_of_quote hq
  rw [scanLine_lexeme q cs hbegin.1, hlexeme]
  exact List.prefix_append _ _

theorem head_of_closed {cs body rest : List Char} (h : untilLast q cs = some (body, rest)) :
    (scanLine false (q :: cs)).1.head? = some ⟨.identifier, String.ofList (q :: body ++ [q]), none⟩ := by
  obtain ⟨ts, hts⟩ := nameStep_of_quote hq cs
  rw [← hts, nameStep, (beginsWord_of_quote hq).2, hq, if_neg Bool.false_ne_true, if_pos rfl, h]
  rfl

theorem head_of_open {cs : List Char} (h : untilLast q cs = none) :
    (scanLine false (q :: cs)).1.head? =
      some ⟨.identifier, String.ofList (q :: cs.takeWhile isIdentifier), none⟩ := by
  obtain ⟨ts, hts⟩ := nameStep_of_quote hq cs
  rw [← hts, nameStep, (beginsWord_of_quote hq).2, hq, if_neg Bool.false_ne_true, if_pos rfl, h]
  rfl

end Quote

/-- A literal in quotes is one token exactly if no blank stands in it, and its quote does not stand once more
before the next blank. With a blank in it the literal is cut, and without one the token begins with
it. -/
theorem exists_quoted_token (q : Char) (s r : List Char) (hq : isQuote q = true) (hs : q ∉ s) :
    ∃ w, (scanLine false (q :: s ++ q :: r)).1.head? = some ⟨.identifier, String.ofList w, none⟩ ∧
      ((∃ c ∈ s, isBlank c = true) → w <+: q :: s) ∧
      ((∀ c ∈ s, isBlank c = false) → q :: s ++ [q] <+: w) ∧
      (w = q :: s ++ [q] ↔ (∀ c ∈ s, isBlank c = false) ∧ q ∉ r.takeWhile fun c => !isBlank c) := by
  by_cases hblank : ∃ c ∈ s, isBlank c = true
  · have hsome : ¬ ∀ c ∈ s, isBlank c = false := by
      obtain ⟨c, hc, hb⟩ := hblank
      intro hall
      rw [hall c hc] at hb
      cases hb
    have hopen : untilLast q (s ++ q :: r) = none := by
      apply untilLast_eq_none
      rw [takeWhile_append_of_blank _ _ _ (by simp) hblank]
      exact fun hmem => hs ((List.takeWhile_prefix _).subset hmem)
    have hcut : q :: (s ++ q :: r).takeWhile isIdentifier <+: q :: s := by
      rw [takeWhile_append_of_blank _ _ _ (fun c hc => by simpa using notBlank_of_isIdentifier c hc) hblank]
      exact (List.prefix_cons_inj q).2 (List.takeWhile_prefix isIdentifier)
    refine ⟨_, head_of_open hq hopen, fun _ => hcut, fun hall => absurd hall hsome,
      iff_of_false ?_ fun h => hsome h.1⟩
    intro hwhole
    have hlength := (hwhole ▸ hcut).length_le
    rw [List.length_append, List.length_singleton] at hlength
    omega
  · have hall : ∀ c ∈ s, isBlank c = false := by simpa using hblank
    have hlast := untilLast_append q s r (beginsWord_of_quote hq).1.1 hall
    cases hr : untilLast q r with
    | none =>
      rw [hr] at hlast
      exact ⟨_, head_of_closed hq hlast, fun h => absurd h hblank, fun _ => List.prefix_rfl,
        iff_of_true rfl ⟨hall, notMem_of_untilLast q r hr⟩⟩
    | some cut =>
      rw [hr] at hlast
      refine ⟨_, head_of_closed hq hlast, fun h => absurd h hblank, fun _ => ⟨cut.1 ++ [q], by simp⟩,
        iff_of_false (by simp) fun h => ?_⟩
      rw [untilLast_eq_none q r h.2] at hr
      cases hr

/-- A literal with a comma, a dash and another quote in it. -/
theorem exists_quoted_token_of_comma :
    isQuote '\x27' = true ∧
      (scanLine false "'a,`--', 'b'".toList).1.head? = some ⟨.identifier, "'a,`--'", none⟩ := by
  have hq : isQuote '\x27' = true := by decide
  obtain ⟨w, hw, -, -, hwhole⟩ :=
    exists_quoted_token '\x27' "a,`--".toList ", 'b'".toList hq (by decide +kernel)
  rw [hwhole.2 ⟨List.all_iff_forall_prop.1 (by decide +kernel), by decide +kernel⟩] at hw
  exact ⟨hq, hw⟩

/-- Of two literals with a comma between them one token is made. -/
theorem exists_quoted_token_of_two :
    (scanLine false "'a','b'".toList).1.head? ≠ some ⟨.identifier, "'a'", none⟩ := by
  decide +kernel

end Scan
end SqlStyle
