import Mathlib.Data.List.Infix
import SqlStyle.Proofs.Token.Reread
import SqlStyle.Proofs.Token.Recognition

/-! Line comments behind code. What is read first in a text is mostly the same if a dash follows the text
(`lexeme_followed`). The exceptions are a keyword right before the dash, which becomes a name, and an operator
right before it, which takes the dash in. So the two dashes of a comment are found behind all code, one step
after another, unless an operator ends the code (`endsInComment_iff`). -/
namespace SqlStyle.Scan
set_option autoImplicit false
open Text Reserved

/-! ## Bare code -/

/-- The code holds no quote, and nothing that begins a comment. -/
structure IsBare (cs : List Char) : Prop where
  quote : ∀ c ∈ cs, isQuote c = false
  hash : '#' ∉ cs
  line : ¬ ['-', '-'] <:+: cs
  block : ¬ ['/', '*'] <:+: cs

instance (cs : List Char) : Decidable (IsBare cs) :=
  decidable_of_iff
    (cs.any isQuote = false ∧ '#' ∉ cs ∧ ¬ ['-', '-'] <:+: cs ∧ ¬ ['/', '*'] <:+: cs)
    ⟨fun h => ⟨by simpa using h.1, h.2.1, h.2.2.1, h.2.2.2⟩,
      fun h => ⟨by simpa using h.quote, h.hash, h.line, h.block⟩⟩

theorem IsBare.of_suffix {cs ds : List Char} (h : IsBare ds) (hcs : cs <:+ ds) : IsBare cs where
  quote := fun c hc => h.quote c (hcs.subset hc)
  hash := fun hmem => h.hash (hcs.subset hmem)
  line := fun hdash => h.line (hdash.trans hcs.isInfix)
  block := fun hslash => h.block (hslash.trans hcs.isInfix)

/-! ## Text behind a step -/

theorem takeWhile_append_stop (p : Char → Bool) (cs tail : List Char)
    (h : cs.dropWhile p = [] → ∀ d ∈ tail.head?, p d = false) :
    (cs ++ tail).takeWhile p = cs.takeWhile p ∧ (cs ++ tail).dropWhile p = cs.dropWhile p ++ tail := by
  induction cs with
  | nil => exact takeWhile_of_head (h rfl)
  | cons c cs ih =>
    by_cases hc : p c = true
    · rw [List.dropWhile_cons_of_pos hc] at h
      obtain ⟨htake, hdrop⟩ := ih h
      rw [List.cons_append, List.takeWhile_cons_of_pos hc, List.takeWhile_cons_of_pos hc,
        List.dropWhile_cons_of_pos hc, List.dropWhile_cons_of_pos hc, htake, hdrop]
      exact ⟨rfl, rfl⟩
    · rw [List.cons_append, List.takeWhile_cons_of_neg hc, List.takeWhile_cons_of_neg hc,
        List.dropWhile_cons_of_neg hc, List.dropWhile_cons_of_neg hc]
      exact ⟨rfl, rfl⟩

theorem takeWhile_append_dash (p : Char → Bool) (hp : p '-' = false) (cs tail : List Char) :
    (cs ++ '-' :: tail).takeWhile p = cs.takeWhile p ∧
      (cs ++ '-' :: tail).dropWhile p = cs.dropWhile p ++ '-' :: tail := by
  apply takeWhile_append_stop
  intro _ d hd
  obtain rfl := Option.some.inj hd
  exact hp

theorem pair_prefix_dash {a b c : Char} {cs tail : List Char} (h : [a, b] <+: c :: (cs ++ '-' :: tail)) :
    [a, b] <+: c :: cs ∨ (cs = [] ∧ a = c ∧ b = '-') := by
  obtain ⟨rfl, hrest⟩ := List.cons_prefix_cons.1 h
  cases cs with
  | nil => exact .inr ⟨rfl, rfl, (List.cons_prefix_cons.1 hrest).1⟩
  | cons d cs =>
    obtain ⟨rfl, -⟩ := List.cons_prefix_cons.1 hrest
    exact .inl (by simp)

def Step.followed (s : Step) (tail : List Char) : Step :=
  ⟨s.tokens, s.rest ++ tail, s.inComment⟩

theorem not_operator_of_reserved {run : List Char} (h : IsReserved run) :
    ∀ c ∈ run, isOperator c = false := by
  have hascii : ∀ d : Char, d.toNat < 128 → isEntryLetter d = true → isOperator d = false :=
    forall_of_forall_ofNat (by decide +kernel)
  have hvariants : ∀ d ∈ variants, isOperator d = false := List.all_iff_forall_prop.1 (by decide)
  have hentry := isEntryLetter_of_mem _ h
  rw [letters_spelling h, List.all_map, List.all_eq_true] at hentry
  intro c hc
  rcases letter_cases c with hself | hvariant
  · have hletter : isEntryLetter c = true := by
      have := hentry c hc
      rwa [Function.comp_apply, hself] at this
    exact hascii c (toNat_of_isEntryLetter hletter) hletter
  · exact hvariants c hvariant

section Dash
variable (tail : List Char)

theorem spaced_followed (ts : List Token) (cs : List Char) :
    spaced ts (cs ++ '-' :: tail) = (spaced ts cs).followed ('-' :: tail) := by
  obtain ⟨htake, hdrop⟩ := takeWhile_append_dash isBlank (by decide) cs tail
  rw [spaced, htake, hdrop]
  rfl

theorem opening_followed (cs : List Char) :
    opening (cs ++ '-' :: tail) = (opening cs).followed ('-' :: tail) := by
  obtain ⟨htake, hdrop⟩ := takeWhile_append_dash isBlank (by decide) cs tail
  unfold opening
  simp only [htake, hdrop]
  split
  · next after hafter =>
    cases hinner : cs.dropWhile isBlank with
    | nil => simp [hinner] at hafter
    | cons d ds =>
      rw [hinner, List.cons_append] at hafter
      obtain ⟨rfl, rfl⟩ := List.cons.inj hafter
      rfl
  · next hstar =>
    split
    · next after hafter => exact absurd (by rw [hafter]; rfl) (hstar (after ++ '-' :: tail))
    · rfl

theorem keywordStep_followed (run rest : List Char) :
    keywordStep run (rest ++ '-' :: tail) = (keywordStep run rest).followed ('-' :: tail) := by
  cases rest with
  | nil => exact congrArg (Step.after (piece .keyword run)) (spaced_followed tail [] [])
  | cons d rest =>
    by_cases hd : d = '('
    · subst hd
      exact congrArg (Step.after (piece .keyword run)) (opening_followed tail rest)
    · have hspaced (after : List Char) :
          keywordStep run (d :: after) = (spaced [] (d :: after)).after (piece .keyword run) := by
        rw [keywordStep]
        exact fun _ h => hd (List.cons.inj h).1
      rw [hspaced, List.cons_append, hspaced, ← List.cons_append, spaced_followed]
      rfl

theorem functionStep_followed (run rest : List Char) :
    functionStep run (rest ++ '-' :: tail) =
      (functionStep run rest).map fun s => s.followed ('-' :: tail) := by
  obtain ⟨htake, hdrop⟩ := takeWhile_append_dash isBlank (by decide) rest tail
  unfold functionStep
  rw [htake, hdrop]
  cases hinner : rest.dropWhile isBlank with
  | nil => rfl
  | cons d ds =>
    rw [List.cons_append]
    split
    · next after hafter =>
      obtain ⟨rfl, rfl⟩ := List.cons.inj hafter
      rw [opening_followed]
      rfl
    · next hbracket =>
      split
      · next after hafter =>
        obtain ⟨rfl, rfl⟩ := List.cons.inj hafter
        exact absurd rfl (hbracket (ds ++ '-' :: tail))
      · rfl

/-- A name that is no quote ends before a dash; an operator does if something else stands before the dash. -/
theorem nameStep_followed (c : Char) (cs : List Char) (hq : isQuote c = false)
    (ho : isOperator c = true → cs.dropWhile isOperator ≠ []) :
    nameStep c (cs ++ '-' :: tail) = (nameStep c cs).followed ('-' :: tail) := by
  unfold nameStep
  split
  · next hc =>
    obtain ⟨htake, hdrop⟩ := takeWhile_append_stop isOperator cs ('-' :: tail) fun h => absurd h (ho hc)
    rw [htake, hdrop, spaced_followed]
  · obtain ⟨htake, hdrop⟩ := takeWhile_append_dash isIdentifier (by decide) cs tail
    rw [hq, if_neg Bool.false_ne_true, if_neg Bool.false_ne_true]
    simp only
    rw [htake, hdrop, spaced_followed]

/-- A dash is in the run of what stands before it, and no entry holds a dash. -/
theorem wordStep_dash (c : Char) (cs : List Char) (hrun : ∀ d ∈ cs, inRun d = true) :
    wordStep c (cs ++ '-' :: tail) = nameStep c (cs ++ '-' :: tail) := by
  have hnot : ¬ IsReserved (c :: (cs ++ '-' :: tail).takeWhile inRun) := by
    intro hres
    have hdash : isOperator '-' = false := by
      apply not_operator_of_reserved hres
      rw [List.takeWhile_append_of_pos hrun, List.takeWhile_cons_of_pos (by decide)]
      simp
    exact absurd hdash (by decide)
  apply wordStep_eq_nameStep
  · rw [← Bool.not_eq_true]
    exact fun h => hnot (isReserved_of_isKeyword h)
  · exact fun h => absurd (isReserved_of_isFunction h) hnot

theorem wordStep_followed (c : Char) (cs : List Char) (hq : isQuote c = false)
    (ho : isOperator c = true → cs.dropWhile isOperator ≠ [])
    (hkeyword : cs.dropWhile inRun = [] → isKeyword (c :: cs) = false) :
    wordStep c (cs ++ '-' :: tail) = (wordStep c cs).followed ('-' :: tail) := by
  by_cases hrun : cs.dropWhile inRun = []
  · have hall : ∀ d ∈ cs, inRun d = true := List.dropWhile_eq_nil_iff.1 hrun
    have hname : wordStep c cs = nameStep c cs := by
      apply wordStep_eq_nameStep
      · rw [List.takeWhile_eq_self_iff.2 hall]
        exact hkeyword hrun
      · rw [hrun]
        exact fun _ h => by cases h
    rw [wordStep_dash tail c cs hall, hname, nameStep_followed tail c cs hq ho]
  · obtain ⟨htake, hdrop⟩ := takeWhile_append_stop inRun cs ('-' :: tail) fun h => absurd h hrun
    rw [wordStep_eq, wordStep_eq, htake, hdrop, keywordStep_followed, functionStep_followed,
      nameStep_followed tail c cs hq ho]
    split
    · rfl
    · split
      · cases functionStep (c :: cs.takeWhile inRun) (cs.dropWhile inRun) <;> rfl
      · rfl

/-- What is read first in bare code is the same if a dash follows the code, unless it is a keyword or an
operator right before the dash. -/
theorem lexeme_followed (c : Char) (cs : List Char) (hbare : IsBare (c :: cs)) (hblank : isBlank c = false)
    (ho : isOperator c = true → cs.dropWhile isOperator ≠ [])
    (hkeyword : cs.dropWhile inRun = [] → isKeyword (c :: cs) = false) :
    lexeme (c :: (cs ++ '-' :: tail)) = (lexeme (c :: cs)).followed ('-' :: tail) := by
  by_cases hmark : c ∈ [',', '(', ')', '#', '.']
  · simp only [List.mem_cons, List.not_mem_nil, or_false] at hmark
    rcases hmark with rfl | rfl | rfl | rfl | rfl
    · exact spaced_followed tail _ cs
    · exact spaced_followed tail _ cs
    · exact spaced_followed tail _ cs
    · exact absurd List.mem_cons_self hbare.hash
    · cases cs with
      | nil => exact spaced_followed tail _ []
      | cons d cs =>
        by_cases hd : d = '*'
        · subst hd
          exact spaced_followed tail _ cs
        · have hdot (after : List Char) :
              lexeme ('.' :: d :: after) = spaced [⟨.dot, ".", none⟩] (d :: after) := by
            rw [lexeme]
            exact fun _ h => hd (List.cons.inj h).1
          rw [hdot, List.cons_append, hdot, ← List.cons_append, spaced_followed]
  · have hbegin : BeginsWord c := ⟨hblank, hmark⟩
    have hpair (a b : Char) (ha : isOperator a = true) (h : ¬ [a, b] <+: c :: cs) :
        ¬ [a, b] <+: c :: (cs ++ '-' :: tail) := by
      intro hcons
      rcases pair_prefix_dash hcons with hmem | ⟨hnil, rfl, -⟩
      · exact h hmem
      · exact ho ha (by rw [hnil]; rfl)
    have hblock : ¬ ['/', '*'] <+: c :: cs := fun h => hbare.block h.isInfix
    have hline : ¬ ['-', '-'] <+: c :: cs := fun h => hbare.line h.isInfix
    rw [lexeme_word c _ hbegin (hpair _ _ (by decide) hblock) (hpair _ _ (by decide) hline),
      lexeme_word c cs hbegin hblock hline,
      wordStep_followed tail c cs (hbare.quote c List.mem_cons_self) ho hkeyword]

end Dash

/-! ## Kinds -/

theorem kind_of_opening (cs : List Char) :
    ∀ t ∈ (opening cs).tokens, t.kind ∈ [Kind.leftBracket, .whitespace, .keyword] := by
  have hbracket : ∀ t ∈ (⟨.leftBracket, "(", none⟩ : Token) :: piece .whitespace (cs.takeWhile isBlank),
      t.kind ∈ [Kind.leftBracket, .whitespace, .keyword] := by
    refine List.forall_mem_cons.2 ⟨by simp, fun t ht => ?_⟩
    simp [kind_of_piece t ht]
  unfold opening
  simp only
  split
  · exact List.forall_mem_append.2 ⟨hbracket, by simp⟩
  · exact hbracket

/-- The token is no comment, and no operator unless the text begins with one. -/
def IsPlainKind (c : Char) (t : Token) : Prop :=
  t.kind ≠ .comment ∧ (t.kind = .operator → isOperator c = true)

theorem isPlainKind_of_mem {c : Char} {t : Token}
    (h : t.kind ∈ [Kind.leftBracket, .whitespace, .keyword, .function, .identifier]) : IsPlainKind c t := by
  simp only [List.mem_cons, List.not_mem_nil, or_false] at h
  rcases h with h | h | h | h | h <;> simp [IsPlainKind, h]

theorem isPlainKind_piece (c : Char) {kind : Kind} {ds : List Char}
    (h : kind ∈ [Kind.leftBracket, .whitespace, .keyword, .function, .identifier]) :
    ∀ t ∈ piece kind ds, IsPlainKind c t :=
  fun t ht => isPlainKind_of_mem (by rwa [kind_of_piece t ht])

theorem isPlainKind_opening (c : Char) (ds : List Char) : ∀ t ∈ (opening ds).tokens, IsPlainKind c t :=
  fun t ht => isPlainKind_of_mem (List.mem_append_left [Kind.function, .identifier] (kind_of_opening ds t ht))

theorem isPlainKind_nameStep (c : Char) (cs : List Char) : ∀ t ∈ (nameStep c cs).tokens, IsPlainKind c t := by
  have hblanks (ds : List Char) : ∀ t ∈ piece .whitespace ds, IsPlainKind c t := isPlainKind_piece c (by simp)
  unfold nameStep
  split
  · next ho =>
    refine List.forall_mem_append.2 ⟨fun t ht => ?_, hblanks _⟩
    simp [IsPlainKind, kind_of_piece t ht, ho]
  · split
    · exact List.forall_mem_append.2 ⟨isPlainKind_piece c (by simp), hblanks _⟩
    · exact List.forall_mem_append.2 ⟨isPlainKind_piece c (by simp), hblanks _⟩

theorem isPlainKind_wordStep (c : Char) (cs : List Char) : ∀ t ∈ (wordStep c cs).tokens, IsPlainKind c t := by
  rcases wordStep_cases c cs with ⟨-, hword⟩ | ⟨-, -, after, -, hword⟩ | ⟨-, -, hword⟩ <;> rw [hword]
  · unfold keywordStep
    split
    · exact List.forall_mem_append.2 ⟨isPlainKind_piece c (by simp), isPlainKind_opening c _⟩
    · exact List.forall_mem_append.2 ⟨isPlainKind_piece c (by simp), isPlainKind_piece c (by simp)⟩
  · exact List.forall_mem_append.2 ⟨List.forall_mem_append.2
      ⟨isPlainKind_piece c (by simp), isPlainKind_piece c (by simp)⟩, isPlainKind_opening c after⟩
  · exact isPlainKind_nameStep c cs

theorem Lexeme.isPlainKind {c : Char} {cs : List Char} {s : Step} (h : Lexeme (c :: cs) s)
    (hbare : IsBare (c :: cs)) : s.inComment = false ∧ ∀ t ∈ s.tokens, IsPlainKind c t := by
  have hspaced (us : List Token) (rest : List Char)
      (hus : ∀ t ∈ us, t.kind ≠ .comment ∧ t.kind ≠ .operator) :
      (spaced us rest).inComment = false ∧ ∀ t ∈ (spaced us rest).tokens, IsPlainKind c t := by
    refine ⟨rfl, List.forall_mem_append.2 ⟨fun t ht => ?_, isPlainKind_piece c (by simp)⟩⟩
    exact ⟨(hus t ht).1, fun h => absurd h (hus t ht).2⟩
  cases h with
  | blockComment rest => exact absurd ⟨[], rest, rfl⟩ hbare.block
  | lineComment _ _ hc =>
    rcases hc with rfl | ⟨rfl, rest, rfl⟩
    · exact absurd List.mem_cons_self hbare.hash
    · exact absurd ⟨[], rest, rfl⟩ hbare.line
  | mark kind _ _ hmark =>
    apply hspaced
    intro t ht
    rw [kind_of_piece t ht]
    constructor <;> rintro rfl <;> simp at hmark
  | star rest => exact hspaced _ rest (by simp)
  | word => exact ⟨wordStep_closed c cs, isPlainKind_wordStep c cs⟩

/-! ## The comment behind bare code -/

/-- The tokens end with the comment `w`, and none of the others is a comment. -/
def EndsInComment (w : List Char) (ts : List Token) : Prop :=
  ∃ us, ts = us ++ [⟨.comment, String.ofList w, none⟩] ∧ ∀ t ∈ us, t.kind ≠ .comment

def EndsInWord (ts : List Token) : Prop :=
  ∀ t ∈ ts.getLast?, t.kind ≠ .operator

instance (ts : List Token) : Decidable (EndsInWord ts) :=
  inferInstanceAs (Decidable (∀ t ∈ ts.getLast?, t.kind ≠ .operator))

theorem endsInComment_append (w : List Char) (us ts : List Token) (hus : ∀ t ∈ us, t.kind ≠ .comment) :
    EndsInComment w (us ++ ts) ↔ EndsInComment w ts := by
  constructor
  · rintro ⟨before, he, hbefore⟩
    rcases List.eq_nil_or_concat ts with rfl | ⟨init, last, rfl⟩
    · rw [List.append_nil] at he
      exact absurd rfl (hus ⟨.comment, String.ofList w, none⟩ (by rw [he]; simp))
    · rw [List.concat_eq_append, ← List.append_assoc] at he
      obtain ⟨rfl, hlast⟩ := List.append_inj' he rfl
      refine ⟨init, by rw [List.concat_eq_append, hlast], fun t ht => hbefore t (List.mem_append_right us ht)⟩
  · rintro ⟨before, rfl, hbefore⟩
    exact ⟨us ++ before, (List.append_assoc us before _).symm, List.forall_mem_append.2 ⟨hus, hbefore⟩⟩

theorem endsInWord_append (us ts : List Token) (hus : ts = [] → EndsInWord us) :
    EndsInWord (us ++ ts) ↔ EndsInWord ts := by
  rcases List.eq_nil_or_concat ts with rfl | ⟨init, last, rfl⟩
  · rw [List.append_nil]
    exact iff_of_true (hus rfl) (by simp [EndsInWord])
  · rw [EndsInWord, EndsInWord, List.concat_eq_append, ← List.append_assoc, List.getLast?_concat,
      List.getLast?_concat]

theorem endsInWord_of_chars (cs : List Char) (hbreak : '\n' ∉ cs)
    (hlast : ∀ c ∈ cs.getLast?, isOperator c = false) : EndsInWord (scanLine false cs).1 := by
  intro t ht hk
  obtain ⟨init, hinit⟩ := List.getLast?_eq_some_iff.1 (Option.mem_def.1 ht)
  have hlex : Lexical t := lexical_scanLine false cs t (List.mem_of_getLast? (Option.mem_def.1 ht))
  have hfits := hlex.2
  rw [hk] at hfits
  obtain ⟨hne, hall, -, -⟩ := hfits
  have hchars := scanLine_chars false cs hbreak
  rw [hinit, charsOf_append, charsOf_cons, charsOf_nil, List.append_nil] at hchars
  have hend : t.word.toList.getLast hne ∈ cs.getLast? := by
    rw [← hchars, List.getLast?_append_of_ne_nil _ hne, List.getLast?_eq_some_getLast hne]
    rfl
  have hword := hlast _ hend
  rw [hall _ (List.getLast_mem hne)] at hword
  cases hword

theorem scanLine_blanks (cs : List Char) :
    (scanLine false cs).1 =
      piece .whitespace (cs.takeWhile isBlank) ++ (scanLine false (cs.dropWhile isBlank)).1 := by
  cases cs with
  | nil => rw [List.takeWhile_nil, List.dropWhile_nil]; rfl
  | cons c cs =>
    rw [scanLine_cons, step, if_neg Bool.false_ne_true]
    have hstop := List.head?_dropWhile_not isBlank (c :: cs)
    cases hrest : (c :: cs).dropWhile isBlank with
    | nil => simp [Step.after, lexeme, scanLine_nil]
    | cons d ds =>
      rw [hrest] at hstop
      rw [scanLine_lexeme d ds (by simpa using hstop)]
      simp [Step.after, List.append_assoc]

theorem scanLine_comment (c : List Char) (hc : '\n' ∉ c) :
    (scanLine false ('-' :: '-' :: c)).1 = [⟨.comment, String.ofList ('-' :: '-' :: c), none⟩] := by
  have hall : ∀ d ∈ '-' :: '-' :: c, (d != '\n') = true := by
    simpa using fun d hd (he : d = '\n') => hc (he ▸ hd)
  rw [scanLine_lexeme _ _ (by decide), lexeme, lineComment, List.takeWhile_eq_self_iff.2 hall,
    List.dropWhile_eq_nil_iff.2 hall, scanLine_nil]
  rfl

section Code
variable {c : Char} {cs : List Char} (hbare : IsBare (c :: cs))
include hbare

theorem lexeme_of_operator (ho : isOperator c = true) : lexeme (c :: cs) = nameStep c cs :=
  lexeme_eq_nameStep
    (lexeme_word c cs (beginsWord_of_operator ho) (fun h => hbare.block h.isInfix) fun h => hbare.line h.isInfix)
    fun _ => not_isReserved_of_operator ho

/-- A lexeme that ends bare code is no operator, unless the code is one. -/
theorem endsInWord_lexeme (hrest : (lexeme (c :: cs)).rest = [])
    (hends : isOperator c = true → cs.dropWhile isOperator ≠ []) : EndsInWord (lexeme (c :: cs)).tokens := by
  intro t ht hk
  have ho := (((lexeme_cases _).isPlainKind hbare).2 t (List.mem_of_getLast? (Option.mem_def.1 ht))).2 hk
  obtain ⟨d, ds, hd⟩ := List.exists_cons_of_ne_nil (hends ho)
  rw [lexeme_of_operator hbare ho, nameStep, if_pos ho, hd, spaced] at hrest ht
  have hblanks : (d :: ds).takeWhile isBlank = d :: ds :=
    List.takeWhile_eq_self_iff.2 (List.dropWhile_eq_nil_iff.1 hrest)
  rw [hblanks] at ht
  obtain rfl := Option.some.inj ht
  cases hk

theorem not_endsInWord_of_operator (ho : isOperator c = true) (hall : cs.dropWhile isOperator = []) :
    ¬ EndsInWord (scanLine false (c :: cs)).1 := by
  rw [scanLine_lexeme c cs (beginsWord_of_operator ho).1, lexeme_of_operator hbare ho, nameStep, if_pos ho,
    hall, spaced]
  simp only [List.takeWhile_nil, List.dropWhile_nil, scanLine_nil]
  exact fun h => h _ rfl rfl

/-- Bare code that is one operator takes a comment behind it into the operator, or is taken into the
comment. -/
theorem long_of_operator (w : List Char) (ho : isOperator c = true) (hall : cs.dropWhile isOperator = []) :
    ∃ t ts, (scanLine false (c :: (cs ++ '-' :: '-' :: w))).1 = t :: ts ∧
      (c :: cs).length < t.word.toList.length := by
  have hcs := List.dropWhile_eq_nil_iff.1 hall
  have hblank := (beginsWord_of_operator ho).1
  by_cases hdash : c = '-' ∧ cs = []
  · obtain ⟨rfl, rfl⟩ := hdash
    rw [List.nil_append, scanLine_lexeme _ _ hblank, lexeme, lineComment,
      List.takeWhile_cons_of_pos (by decide), piece]
    refine ⟨_, _, rfl, ?_⟩
    rw [String.toList_ofList, List.takeWhile_cons_of_pos (by decide)]
    simp
  · have hblock : ¬ ['/', '*'] <+: c :: (cs ++ '-' :: '-' :: w) := by
      intro h
      rcases pair_prefix_dash h with hmem | ⟨-, -, hstar⟩
      · exact hbare.block hmem.isInfix
      · cases hstar
    have hline : ¬ ['-', '-'] <+: c :: (cs ++ '-' :: '-' :: w) := by
      intro h
      rcases pair_prefix_dash h with hmem | ⟨hnil, rfl, -⟩
      · exact hbare.line hmem.isInfix
      · exact hdash ⟨rfl, hnil⟩
    have hlexeme := lexeme_eq_nameStep (lexeme_word c _ (beginsWord_of_operator ho) hblock hline)
      fun _ => not_isReserved_of_operator ho
    rw [scanLine_lexeme c _ hblank, hlexeme, nameStep, if_pos ho, List.takeWhile_append_of_pos hcs, spaced,
      piece]
    refine ⟨_, _, rfl, ?_⟩
    rw [String.toList_ofList, List.takeWhile_cons_of_pos (by decide)]
    simp

end Code

theorem not_endsInComment_of_long (a w : List Char) (hne : a ≠ []) (hbreak : '\n' ∉ a ++ w) (t : Token)
    (ts : List Token) (hts : (scanLine false (a ++ w)).1 = t :: ts) (hlong : a.length < t.word.toList.length) :
    ¬ EndsInComment w (scanLine false (a ++ w)).1 := by
  rintro ⟨us, hus, -⟩
  have hchars := scanLine_chars false (a ++ w) hbreak
  rw [hus, charsOf_append, charsOf_cons, charsOf_nil, List.append_nil, String.toList_ofList,
    List.append_left_inj] at hchars
  cases us with
  | nil => exact hne hchars.symm
  | cons u us =>
    obtain ⟨rfl, -⟩ := List.cons.inj (hts.symm.trans hus)
    have hlength := congrArg List.length hchars
    rw [charsOf_cons, List.length_append] at hlength
    omega

theorem endsInComment_step {c : Char} {cs w : List Char} {s : Step} (hblank : isBlank c = false)
    (hlexeme : lexeme (c :: (cs ++ '-' :: w)) = s.followed ('-' :: w)) (hclosed : s.inComment = false)
    (hkinds : ∀ t ∈ s.tokens, t.kind ≠ .comment) (v : List Char) :
    EndsInComment v (scanLine false (c :: (cs ++ '-' :: w))).1 ↔
      EndsInComment v (scanLine false (s.rest ++ '-' :: w)).1 := by
  rw [scanLine_lexeme c _ hblank, hlexeme]
  simp only [Step.followed, hclosed]
  exact endsInComment_append v s.tokens _ hkinds

section Step
variable {w : List Char} {c : Char} {cs : List Char} (hbare : IsBare (c :: cs)) (hblank : isBlank c = false)
  (hbreak : '\n' ∉ c :: cs)
  (ih : ∀ rest, rest <:+ c :: cs → rest.length < (c :: cs).length →
    (EndsInComment ('-' :: '-' :: w) (scanLine false (rest ++ '-' :: '-' :: w)).1 ↔
      EndsInWord (scanLine false rest).1))

include hbreak ih

/-- A keyword right before a comment is read as a name, or as a name with a comma behind it. -/
theorem endsInComment_keyword (hrun : cs.dropWhile inRun = []) (hkeyword : isKeyword (c :: cs) = true) :
    EndsInComment ('-' :: '-' :: w) (scanLine false (c :: (cs ++ '-' :: '-' :: w))).1 ↔
      EndsInWord (scanLine false (c :: cs)).1 := by
  have hres := isReserved_of_isKeyword hkeyword
  obtain ⟨-, hbegin, ho, hq⟩ := hres.chars
  have hnot := not_operator_of_reserved hres
  have hsuffix : (nameStep c cs).rest <:+ c :: cs := ⟨_, nameStep_covers c cs⟩
  have hlexeme : lexeme (c :: (cs ++ '-' :: '-' :: w)) = (nameStep c cs).followed ('-' :: '-' :: w) := by
    rw [lexeme_of_not_operator c _ hbegin ho,
      wordStep_dash ('-' :: w) c cs (List.dropWhile_eq_nil_iff.1 hrun),
      nameStep_followed ('-' :: w) c cs hq fun h => by rw [ho] at h; cases h]
  have hword (ds : List Char) (hds : ds <:+ c :: cs) : EndsInWord (scanLine false ds).1 := by
    apply endsInWord_of_chars
    · exact fun h => hbreak (hds.subset h)
    · exact fun d hd => hnot d (hds.subset (List.mem_of_getLast? hd))
  rw [endsInComment_step hbegin.1 hlexeme (nameStep_closed c cs) fun t ht => (isPlainKind_nameStep c cs t ht).1,
    ih _ hsuffix (Nat.lt_succ_of_le (nameStep_length c cs))]
  exact iff_of_true (hword _ hsuffix) (hword _ List.suffix_rfl)

include hbare hblank in
theorem endsInComment_cons (hw : '\n' ∉ w) :
    EndsInComment ('-' :: '-' :: w) (scanLine false (c :: (cs ++ '-' :: '-' :: w))).1 ↔
      EndsInWord (scanLine false (c :: cs)).1 := by
  by_cases hop : isOperator c = true ∧ cs.dropWhile isOperator = []
  · obtain ⟨ho, hall⟩ := hop
    obtain ⟨t, ts, hts, hlong⟩ := long_of_operator hbare w ho hall
    refine iff_of_false ?_ (not_endsInWord_of_operator hbare ho hall)
    apply not_endsInComment_of_long (c :: cs) _ (List.cons_ne_nil c cs) _ t ts hts hlong
    rw [List.mem_append, not_or]
    exact ⟨hbreak, by simpa using hw⟩
  · have ho : isOperator c = true → cs.dropWhile isOperator ≠ [] := fun hc hall => hop ⟨hc, hall⟩
    by_cases hkeyword : cs.dropWhile inRun = [] ∧ isKeyword (c :: cs) = true
    · exact endsInComment_keyword hbreak ih hkeyword.1 hkeyword.2
    · have hlexeme := lexeme_followed ('-' :: w) c cs hbare hblank ho fun hrun => by
        rw [← Bool.not_eq_true]
        exact fun h => hkeyword ⟨hrun, h⟩
      obtain ⟨hclosed, hkinds⟩ := (lexeme_cases (c :: cs)).isPlainKind hbare
      have hsuffix : (lexeme (c :: cs)).rest <:+ c :: cs := ⟨_, (lexeme_cases (c :: cs)).covers⟩
      rw [endsInComment_step hblank hlexeme hclosed fun t ht => (hkinds t ht).1,
        ih _ hsuffix (Nat.lt_succ_of_le ((lexeme_cases (c :: cs)).length_le)), scanLine_lexeme c cs hblank, hclosed,
        endsInWord_append]
      intro hnil
      apply endsInWord_lexeme hbare _ ho
      have hchars := scanLine_chars false (lexeme (c :: cs)).rest fun h => hbreak (hsuffix.subset h)
      rwa [hnil, charsOf_nil, eq_comm] at hchars

end Step

theorem endsInComment_scanLine (w : List Char) (hw : '\n' ∉ w) (a : List Char) (hbare : IsBare a)
    (hbreak : '\n' ∉ a) :
    EndsInComment ('-' :: '-' :: w) (scanLine false (a ++ '-' :: '-' :: w)).1 ↔
      EndsInWord (scanLine false a).1 := by
  -- by induction on the length of the code; each step leaves a shorter part of it
  induction hn : a.length using Nat.strongRecOn generalizing a with
  | _ n ih =>
    obtain ⟨htake, hdrop⟩ := takeWhile_append_dash isBlank (by decide) a ('-' :: w)
    have hsuffix : a.dropWhile isBlank <:+ a := List.dropWhile_suffix isBlank
    have hblanks : ∀ t ∈ piece .whitespace (a.takeWhile isBlank), t.kind = .whitespace := kind_of_piece
    rw [scanLine_blanks a, scanLine_blanks, htake, hdrop, endsInComment_append, endsInWord_append]
    · cases hcode : a.dropWhile isBlank with
      | nil =>
        rw [List.nil_append, scanLine_comment w hw, scanLine_nil]
        exact iff_of_true ⟨[], rfl, by simp⟩ (by simp [EndsInWord])
      | cons c cs =>
        rw [hcode] at hsuffix
        have hblank : isBlank c = false := by
          have hstop := List.head?_dropWhile_not isBlank a
          rw [hcode] at hstop
          simpa using hstop
        apply endsInComment_cons (hbare.of_suffix hsuffix) hblank (fun h => hbreak (hsuffix.subset h)) _ hw
        intro rest hrest hlt
        have hmore := hrest.trans hsuffix
        exact ih _ (by have := hsuffix.length_le; omega) rest (hbare.of_suffix hmore)
          (fun h => hbreak (hmore.subset h)) rfl
    · intro _ t ht hk
      rw [hblanks t (List.mem_of_getLast? ht)] at hk
      cases hk
    · intro t ht hk
      rw [hblanks t ht] at hk
      cases hk

/-- Behind bare code the rest of the line from two dashes on is one comment, and the only one, exactly if
the code alone does not end in an operator. It does not if its last character is none of an operator's. -/
theorem endsInComment_iff (a w : List Char) (hbare : IsBare a) (hbreak : '\n' ∉ a) (hw : '\n' ∉ w) :
    (EndsInComment ('-' :: '-' :: w) (scanLine false (a ++ '-' :: '-' :: w)).1 ↔
      EndsInWord (scanLine false a).1) ∧
    ((∀ c ∈ a.getLast?, isOperator c = false) →
      EndsInComment ('-' :: '-' :: w) (scanLine false (a ++ '-' :: '-' :: w)).1) := by
  have hiff := endsInComment_scanLine w hw a hbare hbreak
  exact ⟨hiff, fun hlast => hiff.2 (endsInWord_of_chars a hbreak hlast)⟩

/-- The star behind a dot is no operator. -/
theorem endsInComment_of_star :
    IsBare "select t.*".toList ∧ EndsInWord (scanLine false "select t.*".toList).1 ∧
      EndsInComment ('-' :: '-' :: " 'all'".toList)
        (scanLine false ("select t.*".toList ++ '-' :: '-' :: " 'all'".toList)).1 := by
  have hbare : IsBare "select t.*".toList := by decide +kernel
  have hword : EndsInWord (scanLine false "select t.*".toList).1 := by decide +kernel
  exact ⟨hbare, hword, (endsInComment_iff _ " 'all'".toList hbare (by decide) (by decide)).1.2 hword⟩

/-- An operator takes the two dashes in, and nothing on the line is a comment. -/
theorem not_endsInComment_of_equals :
    IsBare "x =".toList ∧ ¬ EndsInComment "-- c".toList (scanLine false "x =-- c".toList).1 ∧
      ∀ t ∈ (scanLine false "x =-- c".toList).1, t.kind ≠ .comment := by
  have hnone : ∀ t ∈ (scanLine false "x =-- c".toList).1, t.kind ≠ .comment := by decide +kernel
  refine ⟨by decide +kernel, ?_, hnone⟩
  rintro ⟨us, hus, -⟩
  exact hnone ⟨.comment, String.ofList "-- c".toList, none⟩ (by rw [hus]; simp) rfl

end SqlStyle.Scan
