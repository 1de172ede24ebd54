import SqlStyle.Layout.Spaces
import SqlStyle.Proofs.Token.Recase
import SqlStyle.Proofs.Tree.Tokens

/-! Reading what was written. The tokens of a line are written with whitespace between them, and scanned
again. They come back as they were if each of them is legible where it stands (`legible`): behind a keyword
there is no comma, dot or right bracket, and behind a function its bracket; a star stands behind a dot or
the bracket of a function; what follows a name turns it into no reserved word and does not close its
quote; and a comment is a line comment at the end of the line (`reads_spaceOut`). -/
namespace SqlStyle.Scan
set_option autoImplicit false
open Text Layout Token

/-! ## What a text reads as -/

/-- The text reads as the given code, and leaves no block comment open. -/
def Reads (cs : List Char) (ts : List Token) : Prop :=
  code (scanLine false cs).1 = ts ∧ (scanLine false cs).2 = false

def Step.Reads (s : Step) (ts : List Token) : Prop :=
  code s.tokens ++ code (scanLine s.inComment s.rest).1 = ts ∧ (scanLine s.inComment s.rest).2 = false

theorem reads_nil : Reads [] [] := by
  simp [Reads, scanLine_nil, code]

theorem code_blanks (cs : List Char) : code (piece .whitespace cs) = [] := by
  cases cs <;> rfl

theorem reads_iff_lexeme (cs : List Char) (ts : List Token) :
    Reads cs ts ↔ (lexeme (cs.dropWhile isBlank)).Reads ts := by
  cases cs with
  | nil => simp [Reads, Step.Reads, lexeme, scanLine_nil, code]
  | cons c cs =>
    rw [Reads, scanLine_cons, step, if_neg Bool.false_ne_true]
    simp only [Step.Reads, Step.after, code_append, code_blanks, List.nil_append]

theorem dropWhile_blanks (bs cs : List Char) (h : ∀ b ∈ bs, isBlank b = true) :
    (bs ++ cs).dropWhile isBlank = cs.dropWhile isBlank := by
  induction bs with
  | nil => rfl
  | cons b bs ih =>
    obtain ⟨hb, hbs⟩ := List.forall_mem_cons.1 h
    rw [List.cons_append, List.dropWhile_cons_of_pos hb, ih hbs]

theorem reads_blanks (bs cs : List Char) (ts : List Token) (h : ∀ b ∈ bs, isBlank b = true) :
    Reads (bs ++ cs) ts ↔ Reads cs ts := by
  rw [reads_iff_lexeme, dropWhile_blanks bs cs h, ← reads_iff_lexeme]

theorem reads_dropWhile (cs : List Char) (ts : List Token) :
    Reads (cs.dropWhile isBlank) ts ↔ Reads cs ts := by
  rw [← reads_blanks (cs.takeWhile isBlank) _ ts fun b hb => List.mem_takeWhile_imp hb,
    List.takeWhile_append_dropWhile]

theorem reads_cons_iff {c : Char} {cs : List Char} {ts : List Token} (hc : isBlank c = false) :
    Reads (c :: cs) ts ↔ (lexeme (c :: cs)).Reads ts := by
  rw [reads_iff_lexeme, List.dropWhile_cons_of_neg (by rw [hc]; exact Bool.false_ne_true)]

theorem Step.Reads.after {s : Step} {ts : List Token} (h : s.Reads ts) (us : List Token) :
    (s.after us).Reads (code us ++ ts) := by
  refine ⟨?_, h.2⟩
  rw [← h.1, Step.after, code_append, List.append_assoc]

theorem Reads.spaced {rest : List Char} {ts : List Token} (h : Reads rest ts) (us : List Token) :
    (spaced us rest).Reads (code us ++ ts) := by
  rw [← reads_dropWhile] at h
  refine ⟨?_, h.2⟩
  rw [Scan.spaced, code_append, code_blanks, List.append_nil, h.1]

/-! ## Where a token stands -/

/-- What stands right before a token: a function, whose bracket must follow; a dot or the bracket of a
function, behind which a star is a word of its own; or anything else. -/
inductive Context where
  | plain
  | bracket
  | star
deriving DecidableEq

def starToken : Token :=
  ⟨.keyword, "*", none⟩

/-- The text reads as the given code where a star is a word of its own, and begins with no blank. -/
def ReadsStar (cs : List Char) (ts : List Token) : Prop :=
  (∀ c ∈ cs.head?, isBlank c = false) ∧
    match cs with
    | '*' :: rest => ∃ us, ts = starToken :: us ∧ Reads rest us
    | _ => Reads cs ts

def Context.Reads : Context → List Char → List Token → Prop
  | plain, cs, ts => Scan.Reads cs ts
  | star, cs, ts => ReadsStar cs ts
  | bracket, cs, ts => ∃ rest us, cs = '(' :: rest ∧ ts = ⟨.leftBracket, "(", none⟩ :: us ∧ ReadsStar rest us

def Context.next (context : Context) (t : Token) : Context :=
  match t.kind with
  | .dot => star
  | .function => bracket
  | .leftBracket => if context = bracket then star else plain
  | _ => plain

theorem Reads.star {cs : List Char} {ts : List Token} (h : Reads cs ts)
    (hfirst : ∀ c ∈ cs.head?, isBlank c = false ∧ c ≠ '*') : ReadsStar cs ts := by
  refine ⟨fun c hc => (hfirst c hc).1, ?_⟩
  split
  · exact absurd rfl (hfirst '*' rfl).2
  · exact h

theorem ReadsStar.cases {cs : List Char} {ts : List Token} (h : ReadsStar cs ts) :
    (∃ rest us, cs = '*' :: rest ∧ ts = starToken :: us ∧ Reads rest us) ∨
      ((∀ rest, cs ≠ '*' :: rest) ∧ Reads cs ts) := by
  obtain ⟨-, h⟩ := h
  split at h
  · obtain ⟨us, hts, hus⟩ := h
    exact .inl ⟨_, us, rfl, hts, hus⟩
  · next hstar => exact .inr ⟨hstar, h⟩

theorem reads_dot {cs : List Char} {ts : List Token} (h : ReadsStar cs ts) :
    Reads ('.' :: cs) (⟨.dot, ".", none⟩ :: ts) := by
  apply (reads_cons_iff (by decide)).2
  rcases h.cases with ⟨rest, us, rfl, rfl, hus⟩ | ⟨hstar, h⟩
  · exact hus.spaced [⟨.dot, ".", none⟩, starToken]
  · rw [lexeme]
    · exact h.spaced [⟨.dot, ".", none⟩]
    · exact hstar

theorem opening_reads {rest : List Char} {ts : List Token} (h : ReadsStar rest ts) :
    (opening rest).Reads (⟨.leftBracket, "(", none⟩ :: ts) := by
  have hdrop := takeWhile_of_head h.1
  unfold opening
  simp only [hdrop]
  rcases h.cases with ⟨after, us, rfl, rfl, hus⟩ | ⟨hstar, h⟩
  · exact ⟨by rw [← hus.1]; rfl, hus.2⟩
  · split
    · exact absurd rfl (hstar _)
    · exact ⟨by rw [← h.1]; rfl, h.2⟩

/-! ## Words -/

theorem piece_word {t : Token} (hmark : t.mark = none) (hne : t.word.toList ≠ []) :
    piece t.kind t.word.toList = [t] := by
  obtain ⟨c, cs, hw⟩ := List.exists_cons_of_ne_nil hne
  obtain ⟨kind, word, mark⟩ := t
  simp only at hw hmark ⊢
  rw [hw, piece, ← hw, String.ofList_toList, hmark]

theorem lexeme_word (c : Char) (cs : List Char) (hc : BeginsWord c) (hblock : ¬ ['/', '*'] <+: c :: cs)
    (hline : ¬ ['-', '-'] <+: c :: cs) : lexeme (c :: cs) = wordStep c cs := by
  have hne := hc.2
  simp only [List.mem_cons, List.not_mem_nil, or_false, not_or] at hne
  rw [lexeme]
  · rintro rest rfl rfl
    exact hblock ⟨rest, rfl⟩
  · rintro rest rfl rfl
    exact hline ⟨rest, rfl⟩
  all_goals simp [hne]

theorem lexeme_of_not_operator (c : Char) (cs : List Char) (hc : BeginsWord c)
    (ho : isOperator c = false) : lexeme (c :: cs) = wordStep c cs := by
  apply lexeme_word c cs hc
  · rintro ⟨rest, he⟩
    obtain rfl := (List.cons.inj he).1
    exact absurd ho (by decide)
  · rintro ⟨rest, he⟩
    obtain rfl := (List.cons.inj he).1
    exact absurd ho (by decide)

/-! ## Reserved words -/

def IsReserved (cs : List Char) : Prop :=
  Reserved.spelling cs ∈ Reserved.keywords ++ Reserved.functions

theorem ne_star_of_not_operator {c : Char} (h : isOperator c = false) : c ≠ '*' := by
  rintro rfl
  exact absurd h (by decide)

theorem isReserved_of_isKeyword {cs : List Char} (h : Reserved.isKeyword cs = true) : IsReserved cs :=
  List.mem_append_left _ (List.contains_iff_mem.1 h)

theorem isReserved_of_isFunction {cs : List Char} (h : Reserved.isFunction cs = true) : IsReserved cs :=
  List.mem_append_right _ (List.contains_iff_mem.1 h)

theorem IsReserved.chars {c : Char} {cs : List Char} (h : IsReserved (c :: cs)) :
    (∀ d ∈ cs, inRun d = true) ∧ BeginsWord c ∧ isOperator c = false ∧ isQuote c = false := by
  have htable : ∀ entry ∈ Reserved.keywords ++ Reserved.functions,
      ((Reserved.letters entry).head?.all fun d => d ∉ [',', '*']) = true := by
    decide +kernel
  have hletters : ∀ d ∈ stableLetters ++ Reserved.unstableLetters, inRun d = true ∧
      (Reserved.letter d ∉ [',', '*'] →
        (isBlank d = false ∧ d ∉ [',', '(', ')', '#', '.']) ∧ isOperator d = false ∧ isQuote d = false) :=
    List.all_iff_forall_prop.1 (by decide +kernel)
  have hmem := Reserved.mem_letters_of_reserved (c :: cs) h
  refine ⟨fun d hd => (hletters d (hmem d (List.mem_cons_of_mem c hd))).1, ?_⟩
  apply (hletters c (hmem c List.mem_cons_self)).2
  have hentry := htable _ h
  rw [Reserved.letters_spelling h, List.map_cons, List.head?_cons, Option.all_some,
    decide_eq_true_eq] at hentry
  exact hentry

theorem IsReserved.ne_nil {cs : List Char} (h : IsReserved cs) : cs ≠ [] :=
  Reserved.ne_nil_of_spelled h

theorem IsReserved.head {w : List Char} (h : IsReserved w) :
    ∀ c ∈ w.head?, isBlank c = false ∧ c ≠ '*' := by
  obtain ⟨c, cs, rfl⟩ := List.exists_cons_of_ne_nil h.ne_nil
  obtain ⟨-, hc, ho, -⟩ := h.chars
  intro d hd
  obtain rfl := Option.some.inj hd
  exact ⟨hc.1, ne_star_of_not_operator ho⟩

/-- A reserved word is looked up as a whole if what follows ends its run. -/
theorem reads_reserved {w r : List Char} {ts : List Token} (h : IsReserved w)
    (hr : ∀ d ∈ r.head?, inRun d = false)
    (hkeyword : Reserved.isKeyword w = true → (keywordStep w r).Reads ts)
    (hfunction : Reserved.isKeyword w = false → ∃ s, functionStep w r = some s ∧ s.Reads ts) :
    Reads (w ++ r) ts := by
  obtain ⟨c, cs, rfl⟩ := List.exists_cons_of_ne_nil h.ne_nil
  obtain ⟨hrun, hc, ho, -⟩ := h.chars
  obtain ⟨htake, hdrop⟩ := takeWhile_word inRun cs r hrun hr
  rw [List.cons_append]
  apply (reads_cons_iff hc.1).2
  rw [lexeme_of_not_operator c _ hc ho, wordStep_eq, htake, hdrop]
  cases hk : Reserved.isKeyword (c :: cs) with
  | true => exact hkeyword hk
  | false =>
    obtain ⟨s, hs, hreads⟩ := hfunction hk
    have hf : Reserved.isFunction (c :: cs) = true := by
      rw [Reserved.isKeyword, ← Bool.not_eq_true, List.contains_iff_mem] at hk
      exact List.contains_iff_mem.2 ((List.mem_append.1 h).resolve_left hk)
    simp only [hf, hs, if_true, Bool.false_eq_true, if_false, Option.getD_some]
    exact hreads

theorem reads_keyword {t : Token} {r : List Char} {ts : List Token} (hkind : t.kind = .keyword)
    (hmark : t.mark = none) (hword : Reserved.isKeyword t.word.toList = true)
    (hr : ∀ c ∈ r.head?, isBlank c = true) (h : Reads r ts) : Reads (t.word.toList ++ r) (t :: ts) := by
  have hres := isReserved_of_isKeyword hword
  have hpiece := piece_word hmark hres.ne_nil
  apply reads_reserved hres
  · intro d hd
    rw [inRun, hr d hd]
    rfl
  · intro _
    rw [keywordStep]
    · rw [← hkind, hpiece]
      have hread := (h.spaced []).after [t]
      rwa [code, List.filter_cons_of_pos (by rw [hkind]; rfl)] at hread
    · rintro after rfl
      exact absurd (hr '(' rfl) (by decide)
  · intro hother
    rw [hword] at hother
    exact Bool.noConfusion hother

theorem reads_function {t : Token} {r : List Char} {ts : List Token} (hkind : t.kind = .function)
    (hmark : t.mark = none) (hword : Reserved.isFunction t.word.toList = true)
    (hother : Reserved.isKeyword t.word.toList = false) (h : ReadsStar r ts) :
    Reads (t.word.toList ++ '(' :: r) (t :: ⟨.leftBracket, "(", none⟩ :: ts) := by
  have hres := isReserved_of_isFunction hword
  have hpiece := piece_word hmark hres.ne_nil
  apply reads_reserved hres
  · intro d hd
    obtain rfl := Option.some.inj hd
    decide
  · intro hk
    rw [hother] at hk
    exact Bool.noConfusion hk
  · intro _
    refine ⟨_, rfl, ?_⟩
    rw [← hkind, hpiece]
    have hread := (opening_reads h).after [t]
    rwa [code, List.filter_cons_of_pos (by rw [hkind]; rfl)] at hread

/-! ## Operators and names -/

theorem not_isReserved_of_operator {c : Char} {cs : List Char} (h : isOperator c = true) :
    ¬ IsReserved (c :: cs) := by
  intro hres
  rw [hres.chars.2.2.1] at h
  exact Bool.noConfusion h

theorem not_isReserved_of_quote {c : Char} {cs : List Char} (h : isQuote c = true) :
    ¬ IsReserved (c :: cs) := by
  intro hres
  rw [hres.chars.2.2.2] at h
  exact Bool.noConfusion h

theorem wordStep_eq_nameStep (c : Char) (cs : List Char)
    (hkeyword : Reserved.isKeyword (c :: cs.takeWhile inRun) = false)
    (hfunction : Reserved.isFunction (c :: cs.takeWhile inRun) = true →
      ((cs.dropWhile inRun).dropWhile isBlank).head? ≠ some '(') : wordStep c cs = nameStep c cs := by
  rcases wordStep_cases c cs with ⟨hk, -⟩ | ⟨-, hf, after, hafter, -⟩ | ⟨-, -, hword⟩
  · rw [hkeyword] at hk
    cases hk
  · exact absurd (by rw [hafter]; rfl) (hfunction hf)
  · exact hword

theorem lexeme_eq_nameStep {c : Char} {cs : List Char} (hword : lexeme (c :: cs) = wordStep c cs)
    (h : ∀ ds, ¬ IsReserved (c :: ds)) : lexeme (c :: cs) = nameStep c cs := by
  rw [hword]
  apply wordStep_eq_nameStep
  · rw [← Bool.not_eq_true]
    exact fun hk => h _ (isReserved_of_isKeyword hk)
  · exact fun hf => absurd (isReserved_of_isFunction hf) (h _)

theorem beginsWord_of_operator {c : Char} (h : isOperator c = true) : BeginsWord c := by
  have hall : ∀ d ∈ ['=', '<', '>', '!', '+', '-', '*', '/', '%'],
      isBlank d = false ∧ d ∉ [',', '(', ')', '#', '.'] := List.all_iff_forall_prop.1 (by decide)
  exact hall c (List.contains_iff_mem.1 h)

theorem beginsWord_of_quote {c : Char} (h : isQuote c = true) : BeginsWord c ∧ isOperator c = false := by
  have hall : ∀ d ∈ ['\x22', '\x27', '\x60'],
      (isBlank d = false ∧ d ∉ [',', '(', ')', '#', '.']) ∧ isOperator d = false :=
    List.all_iff_forall_prop.1 (by decide)
  apply hall c
  simpa [isQuote, or_assoc] using h

theorem beginsWord_of_identifier {c : Char} (h : isIdentifier c = true) :
    BeginsWord c ∧ isOperator c = false ∧ inRun c = true := by
  simp only [isIdentifier, Bool.and_eq_true, Bool.not_eq_true', List.contains_eq_mem,
    decide_eq_false_iff_not] at h
  obtain ⟨⟨hblank, ho⟩, hc⟩ := h
  refine ⟨⟨hblank, hc⟩, ho, ?_⟩
  rw [inRun, hblank, Bool.not_false, Bool.true_and, bne_iff_ne]
  rintro rfl
  exact hc (by decide)

theorem beginsWord_of_name {cs : List Char} (h : IsPlain cs ∨ IsQuoted cs) :
    ∀ c ∈ cs.head?, BeginsWord c ∧ isOperator c = false := by
  intro c hc
  rcases h with hplain | ⟨q, body, hq, -, hw⟩
  · obtain ⟨hbegin, ho, -⟩ := beginsWord_of_identifier (hplain.2.1 c (List.mem_of_mem_head? hc))
    exact ⟨hbegin, ho⟩
  · rw [hw] at hc
    obtain rfl := Option.some.inj hc
    exact beginsWord_of_quote hq

theorem Reads.spaced_token {t : Token} {r : List Char} {ts : List Token} (h : Reads r ts)
    (hkind : t.kind ≠ .whitespace) (hpiece : piece t.kind t.word.toList = [t]) :
    (Scan.spaced (piece t.kind t.word.toList) r).Reads (t :: ts) := by
  have hcode : code [t] = [t] := by simp [code, hkind]
  have hread := h.spaced [t]
  rwa [hcode, List.singleton_append, ← hpiece] at hread

theorem pair_prefix_append {a b : Char} {w r : List Char} (hne : w ≠ []) (h : [a, b] <+: w ++ r) :
    [a, b] <+: w ∨ b ∈ r.head? := by
  obtain ⟨c, cs, rfl⟩ := List.exists_cons_of_ne_nil hne
  cases cs with
  | nil =>
    obtain ⟨rest, he⟩ := (List.cons_prefix_cons.1 h).2
    obtain rfl : b :: rest = r := he
    exact .inr rfl
  | cons d cs =>
    obtain ⟨rfl, hrest⟩ := List.cons_prefix_cons.1 h
    obtain ⟨rfl, -⟩ := List.cons_prefix_cons.1 hrest
    exact .inl (by simp)

theorem lexeme_operator {t : Token} {r : List Char} (hkind : t.kind = .operator) (hmark : t.mark = none)
    (hword : IsOperation t.word.toList) (hr : ∀ c ∈ r.head?, isOperator c = false) :
    lexeme (t.word.toList ++ r) = spaced [t] r := by
  obtain ⟨hne, hall, hblock, hline⟩ := hword
  have hpiece := piece_word hmark hne
  obtain ⟨c, cs, hw⟩ := List.exists_cons_of_ne_nil hne
  rw [hw, hkind] at hpiece
  rw [hw] at hall hblock hline ⊢
  obtain ⟨hc, hcs⟩ := List.forall_mem_cons.1 hall
  obtain ⟨htake, hdrop⟩ := takeWhile_word isOperator cs r hcs hr
  have hpre : ∀ a b : Char, isOperator b = true → ¬ [a, b] <+: c :: cs → ¬ [a, b] <+: c :: (cs ++ r) := by
    intro a b hb hnot hprefix
    rcases pair_prefix_append (List.cons_ne_nil c cs) hprefix with h | h
    · exact hnot h
    · rw [hr b h] at hb
      exact Bool.noConfusion hb
  have hlexeme : lexeme (c :: (cs ++ r)) = nameStep c (cs ++ r) :=
    lexeme_eq_nameStep
      (lexeme_word c _ (beginsWord_of_operator hc) (hpre _ _ (by decide) hblock)
        (hpre _ _ (by decide) hline))
      fun ds => not_isReserved_of_operator hc
  rw [List.cons_append, hlexeme, nameStep, if_pos hc, htake, hdrop, hpiece]

theorem reads_operator {t : Token} {r : List Char} {ts : List Token} (hkind : t.kind = .operator)
    (hmark : t.mark = none) (hword : IsOperation t.word.toList)
    (hr : ∀ c ∈ r.head?, isOperator c = false) (h : Reads r ts) : Reads (t.word.toList ++ r) (t :: ts) := by
  have hlexeme := lexeme_operator hkind hmark hword hr
  have hspaced := h.spaced_token (by rw [hkind]; exact Kind.noConfusion) (piece_word hmark hword.1)
  rw [piece_word hmark hword.1, ← hlexeme] at hspaced
  obtain ⟨c, cs, hw⟩ := List.exists_cons_of_ne_nil hword.1
  rw [hw] at hspaced ⊢
  have hc : isOperator c = true := hword.2.1 c (by rw [hw]; exact List.mem_cons_self)
  exact (reads_cons_iff (beginsWord_of_operator hc).1).2 hspaced

/-- A quote that is closed before a blank is closed once more at each quote up to that blank. -/
theorem untilLast_append (q : Char) (s r : List Char) (hq : isBlank q = false)
    (hs : ∀ c ∈ s, isBlank c = false) :
    untilLast q (s ++ q :: r) =
      some (((untilLast q r).map fun cut => (s ++ q :: cut.1, cut.2)).getD (s, r)) := by
  induction s with
  | nil => cases hr : untilLast q r <;> simp [untilLast, hq, hr]
  | cons c s ih =>
    obtain ⟨hc, hs⟩ := List.forall_mem_cons.1 hs
    rw [List.cons_append, untilLast, ih hs, hc]
    cases untilLast q r <;> simp

theorem untilLast_eq_some (q : Char) (body r : List Char) (hq : isBlank q = false)
    (hbody : ∀ c ∈ body, isBlank c = false) (hr : untilLast q r = none) :
    untilLast q (body ++ q :: r) = some (body, r) := by
  rw [untilLast_append q body r hq hbody, hr]
  rfl

theorem untilLast_eq_none (q : Char) (cs : List Char) (h : q ∉ cs.takeWhile fun c => !isBlank c) :
    untilLast q cs = none := by
  induction cs with
  | nil => rfl
  | cons c cs ih =>
    cases hb : isBlank c with
    | true => simp [untilLast, hb]
    | false =>
      rw [List.takeWhile_cons_of_pos (by simp [hb]), List.mem_cons, not_or] at h
      simp [untilLast, hb, ih h.2, Ne.symm h.1]

theorem reads_quoted {t : Token} {r : List Char} {ts : List Token} (hkind : t.kind = .identifier)
    (hmark : t.mark = none) {q : Char} {body : List Char} (hword : t.word.toList = q :: body ++ [q])
    (hq : isQuote q = true) (hbody : ∀ c ∈ body, isBlank c = false)
    (hr : q ∉ r.takeWhile fun c => !isBlank c) (h : Reads r ts) : Reads (t.word.toList ++ r) (t :: ts) := by
  have hspaced := h.spaced_token (by rw [hkind]; exact Kind.noConfusion)
    (piece_word hmark (by rw [hword]; exact List.cons_ne_nil _ _))
  rw [hword, hkind] at hspaced
  obtain ⟨hbegin, ho⟩ := beginsWord_of_quote hq
  have hlexeme : lexeme (q :: (body ++ q :: r)) = nameStep q (body ++ q :: r) :=
    lexeme_eq_nameStep (lexeme_of_not_operator q _ hbegin ho) fun ds => not_isReserved_of_quote hq
  have hlast := untilLast_eq_some q body r hbegin.1 hbody (untilLast_eq_none q r hr)
  rw [hword, List.cons_append, List.cons_append, List.append_assoc, List.singleton_append]
  apply (reads_cons_iff hbegin.1).2
  rw [hlexeme, nameStep, ho, hq]
  simp only [Bool.false_eq_true, if_false, if_true, hlast]
  exact hspaced

/-- What follows a plain name turns it into no reserved word and does not close its quote. -/
structure NameEnds (w r : List Char) : Prop where
  keyword : Reserved.isKeyword (w ++ r.takeWhile inRun) = false
  function : Reserved.isFunction (w ++ r.takeWhile inRun) = true →
    ((r.dropWhile inRun).dropWhile isBlank).head? ≠ some '('
  quote : ∀ q ∈ w.head?, isQuote q = true → q ∉ r.takeWhile fun c => !isBlank c

theorem reads_plain {t : Token} {r : List Char} {ts : List Token} (hkind : t.kind = .identifier)
    (hmark : t.mark = none) (hword : IsPlain t.word.toList) (hends : NameEnds t.word.toList r)
    (hr : ∀ c ∈ r.head?, isIdentifier c = false) (h : Reads r ts) : Reads (t.word.toList ++ r) (t :: ts) := by
  obtain ⟨hne, hall, hclosed⟩ := hword
  have hspaced := h.spaced_token (by rw [hkind]; exact Kind.noConfusion) (piece_word hmark hne)
  obtain ⟨c, cs, hw⟩ := List.exists_cons_of_ne_nil hne
  rw [hw, hkind] at hspaced
  rw [hw] at hall hclosed hends ⊢
  obtain ⟨hc, hcs⟩ := List.forall_mem_cons.1 hall
  obtain ⟨hbegin, ho, -⟩ := beginsWord_of_identifier hc
  obtain ⟨htake, hdrop⟩ := takeWhile_word isIdentifier cs r hcs hr
  have hrun : ∀ d ∈ cs, inRun d = true := fun d hd => (beginsWord_of_identifier (hcs d hd)).2.2
  have hname : wordStep c (cs ++ r) = nameStep c (cs ++ r) := by
    apply wordStep_eq_nameStep
    · rw [List.takeWhile_append_of_pos hrun]
      exact hends.keyword
    · rw [List.takeWhile_append_of_pos hrun, List.dropWhile_append_of_pos hrun]
      exact hends.function
  have hopen : (if isQuote c = true then untilLast c (cs ++ r) else none) = none := by
    split
    · next hq =>
      apply untilLast_eq_none
      have hblank : ∀ d ∈ cs, (!isBlank d) = true := fun d hd => notBlank_of_isIdentifier d (hcs d hd)
      rw [List.takeWhile_append_of_pos hblank, List.mem_append, not_or]
      exact ⟨hclosed c rfl hq, hends.quote c rfl hq⟩
    · rfl
  rw [List.cons_append]
  apply (reads_cons_iff hbegin.1).2
  rw [lexeme_of_not_operator c _ hbegin ho, hname, nameStep, ho, hopen, htake, hdrop]
  exact hspaced

/-! ## Lines of tokens -/

def textAfter (t : Token) : List Token → List Char
  | [] => []
  | next :: rest => charsOf (gap t next) ++ charsOf (spaceOut (next :: rest))

theorem charsOf_spaceOut (t : Token) (rest : List Token) :
    charsOf (spaceOut (t :: rest)) = t.word.toList ++ textAfter t rest := by
  cases rest with
  | nil => rfl
  | cons next rest => rw [spaceOut, List.cons_append, charsOf_cons, charsOf_append, textAfter]

instance (w r : List Char) : Decidable (NameEnds w r) :=
  decidable_of_iff (Reserved.isKeyword (w ++ r.takeWhile inRun) = false ∧
      (Reserved.isFunction (w ++ r.takeWhile inRun) = true →
        ((r.dropWhile inRun).dropWhile isBlank).head? ≠ some '(') ∧
      (w.head?.all fun q => isQuote q = true → q ∉ r.takeWhile fun c => !isBlank c) = true)
    ⟨fun h => ⟨h.1, h.2.1, fun q hq => of_decide_eq_true ((Option.all_eq_true _ _).1 h.2.2 q hq)⟩,
      fun h => ⟨h.1, h.2, (Option.all_eq_true _ _).2 fun q hq => decide_eq_true (h.3 q hq)⟩⟩

/-- The token is legible in its context, with the given tokens behind it. -/
def legibleToken (context : Context) (t : Token) (rest : List Token) : Bool :=
  (context != .bracket || t.kind == .leftBracket) &&
    match t.kind with
    | .comma | .dot | .leftBracket | .rightBracket | .function => true
    | .keyword =>
      if t.word = "*" then context == .star
      else rest.head?.all fun next => !([Kind.comma, Kind.dot, Kind.rightBracket].contains next.kind)
    | .operator => context != .star || t.word.toList.head? != some '*'
    | .identifier => decide (NameEnds t.word.toList (textAfter t rest))
    | .comment => isLineComment t && rest.isEmpty
    | _ => false

def legible (context : Context) : List Token → Bool
  | [] => context != .bracket
  | t :: rest => legibleToken context t rest && legible (context.next t) rest

theorem Reads.inContext {context : Context} {w r : List Char} {ts : List Token} (h : Reads (w ++ r) ts)
    (hne : w ≠ []) (hbracket : context ≠ .bracket)
    (hfirst : ∀ c ∈ w.head?, isBlank c = false ∧ (context = .star → c ≠ '*')) :
    context.Reads (w ++ r) ts := by
  cases context with
  | plain => exact h
  | bracket => exact absurd rfl hbracket
  | star =>
    obtain ⟨c, cs, rfl⟩ := List.exists_cons_of_ne_nil hne
    apply h.star
    exact fun d hd => ⟨(hfirst d hd).1, (hfirst d hd).2 rfl⟩

theorem charsOf_gap (t next : Token) :
    (isTight t next = true ∧ charsOf (gap t next) = []) ∨
      (isTight t next = false ∧ ∃ n, charsOf (gap t next) = ' ' :: List.replicate n ' ') := by
  cases htight : isTight t next with
  | true => exact .inl ⟨rfl, by rw [gap, if_pos htight]; rfl⟩
  | false =>
    refine .inr ⟨rfl, if next.kind = .comment then 1 else 0, ?_⟩
    rw [gap, htight]
    by_cases hcomment : next.kind = .comment <;> simp [blanks, hcomment, List.replicate]

theorem blank_of_mem_gap (t next : Token) : ∀ b ∈ charsOf (gap t next), b = ' ' := by
  intro b hb
  rcases charsOf_gap t next with ⟨-, hgap⟩ | ⟨-, n, hgap⟩
  · rw [hgap] at hb
    exact absurd hb List.not_mem_nil
  · rw [hgap, ← List.replicate_succ] at hb
    exact List.eq_of_mem_replicate hb

theorem notMem_spaceOut (a : Char) (ha : a ≠ ' ') (ts : List Token) (h : ∀ t ∈ ts, a ∉ t.word.toList) :
    a ∉ charsOf (spaceOut ts) := by
  induction ts with
  | nil => exact List.not_mem_nil
  | cons t ts ih =>
    obtain ⟨ht, hts⟩ := List.forall_mem_cons.1 h
    rw [charsOf_spaceOut, List.mem_append, not_or]
    refine ⟨ht, ?_⟩
    cases ts with
    | nil => exact List.not_mem_nil
    | cons next ts =>
      rw [textAfter, List.mem_append, not_or]
      exact ⟨fun hmem => ha (blank_of_mem_gap t next a hmem), ih hts⟩

theorem reads_textAfter (t : Token) (rest : List Token) :
    Reads (textAfter t rest) rest ↔ Reads (charsOf (spaceOut rest)) rest := by
  cases rest with
  | nil => exact Iff.rfl
  | cons next rest =>
    rw [textAfter, reads_blanks]
    intro b hb
    rw [blank_of_mem_gap t next b hb]
    rfl

/-- What follows a token on its line begins with a blank, but for the kinds that are written close to the
token before them. -/
theorem head_textAfter (t : Token) (rest : List Token) (hlex : ∀ u ∈ rest, Lexical u)
    (hkind : t.kind ∉ [Kind.dot, Kind.leftBracket, Kind.whitespace, Kind.function]) :
    ∀ c ∈ (textAfter t rest).head?, c = ' ' ∨
      (c ∈ [',', '.', ')'] ∧ ∃ next ∈ rest.head?, next.kind ∈ [Kind.comma, Kind.dot, Kind.rightBracket]) ∨
      (c = '(' ∧ t.kind = .identifier) := by
  cases rest with
  | nil => simp [textAfter]
  | cons next rest =>
    intro c hc
    rw [textAfter, charsOf_spaceOut] at hc
    rcases charsOf_gap t next with ⟨htight, hgap⟩ | ⟨-, n, hgap⟩
    · have hfits := (hlex next List.mem_cons_self).2
      rw [hgap, List.nil_append] at hc
      have hfirst : ∀ d, next.word.toList = [d] → c = d := by
        intro d hd
        rw [hd] at hc
        exact (Option.some.inj hc).symm
      rw [isTight, List.contains_eq_mem, decide_eq_false hkind, Bool.false_or, Bool.or_eq_true,
        Bool.and_eq_true, beq_iff_eq, beq_iff_eq, List.contains_iff_mem] at htight
      right
      rcases htight with hnext | ⟨ht, hnext⟩
      · refine .inl ⟨?_, next, rfl, hnext⟩
        simp only [List.mem_cons, List.not_mem_nil, or_false] at hnext
        rcases hnext with hn | hn | hn <;>
        · rw [hn] at hfits
          rw [hfirst _ hfits]
          decide
      · rw [hnext] at hfits
        exact .inr ⟨hfirst _ hfits, ht⟩
    · rw [hgap] at hc
      exact .inl (Option.some.inj hc).symm

theorem ends_textAfter (t : Token) (rest : List Token) (hlex : ∀ u ∈ rest, Lexical u)
    (hkind : t.kind ∉ [Kind.dot, Kind.leftBracket, Kind.whitespace, Kind.function]) :
    ∀ c ∈ (textAfter t rest).head?, isOperator c = false ∧ isIdentifier c = false := by
  have hmarks : ∀ c ∈ [' ', ',', '.', ')', '('], isOperator c = false ∧ isIdentifier c = false :=
    List.all_iff_forall_prop.1 (by decide)
  intro c hc
  apply hmarks c
  rcases head_textAfter t rest hlex hkind c hc with rfl | ⟨hclose, -⟩ | ⟨rfl, -⟩
  · simp
  · exact List.mem_cons_of_mem _ (List.mem_append_left ['('] hclose)
  · simp

theorem eq_of_lexical {t : Token} (h : Lexical t) (w : String) (hw : t.word.toList = w.toList) :
    t = ⟨t.kind, w, none⟩ := by
  obtain ⟨kind, word, mark⟩ := t
  obtain rfl : mark = none := h.1
  obtain rfl : word = w := String.toList_inj.1 hw
  rfl

theorem textAfter_of_tight (t : Token) (rest : List Token)
    (hkind : t.kind ∈ [Kind.dot, Kind.leftBracket, Kind.whitespace, Kind.function]) :
    textAfter t rest = charsOf (spaceOut rest) := by
  cases rest with
  | nil => rfl
  | cons next rest =>
    have htight : isTight t next = true := by
      rw [isTight, List.contains_iff_mem.2 hkind]
      rfl
    rw [textAfter, gap, if_pos htight, charsOf_nil, List.nil_append]

theorem reads_mark {t : Token} {kind : Kind} {c : Char} {r : List Char} {ts : List Token}
    (ht : Lexical t) (hkind : t.kind = kind) (hw : t.word.toList = [c]) (hblank : isBlank c = false)
    (hcode : kind ≠ .whitespace)
    (hlexeme : lexeme (c :: r) = spaced (piece kind [c]) r) (h : Reads r ts) :
    Reads (t.word.toList ++ r) (t :: ts) := by
  have hspaced := h.spaced_token (by rwa [hkind]) (piece_word ht.1 (by rw [hw]; simp))
  rw [hw, hkind] at hspaced
  rw [hw, List.singleton_append]
  apply (reads_cons_iff hblank).2
  rwa [hlexeme]

theorem isLineComment_iff (t : Token) :
    isLineComment t = true ↔ t.kind = .comment ∧ (['-', '-'] <+: t.word.toList ∨ ['#'] <+: t.word.toList) := by
  rw [isLineComment, Bool.and_eq_true, beq_iff_eq, Bool.or_eq_true, List.isPrefixOf_iff_prefix,
    List.isPrefixOf_iff_prefix]

theorem head_of_lineComment {t : Token} (h : isLineComment t = true) :
    ∀ c ∈ t.word.toList.head?, isBlank c = false ∧ c ≠ '*' := by
  intro c hc
  rcases ((isLineComment_iff t).1 h).2 with ⟨rest, hw⟩ | ⟨rest, hw⟩
  · rw [← hw] at hc
    obtain rfl := Option.some.inj hc
    decide
  · rw [← hw] at hc
    obtain rfl := Option.some.inj hc
    decide

theorem reads_comment {t : Token} (ht : Lexical t) (hline : isLineComment t = true)
    (hbreak : '\n' ∉ t.word.toList) : Reads t.word.toList [t] := by
  obtain ⟨hkind, hline⟩ := (isLineComment_iff t).1 hline
  have hwhole : ∀ c ∈ t.word.toList, (c != '\n') = true := by
    intro c hc
    rw [bne_iff_ne]
    rintro rfl
    exact hbreak hc
  have hcomment : (lineComment t.word.toList).Reads [t] := by
    rw [lineComment, List.takeWhile_eq_self_iff.2 hwhole, List.dropWhile_eq_nil_iff.2 hwhole, ← hkind,
      piece_word ht.1 ht.2.ne_nil]
    simp [Step.Reads, scanLine_nil, code, hkind]
  rcases hline with ⟨rest, hw⟩ | ⟨rest, hw⟩
  · rw [← hw] at hcomment ⊢
    exact (reads_cons_iff (by decide)).2 hcomment
  · rw [← hw] at hcomment ⊢
    exact (reads_cons_iff (by decide)).2 hcomment

section Token
variable {context : Context} {t : Token} {rest : List Token} (ht : Lexical t)
  (hlex : ∀ u ∈ rest, Lexical u) (hafter : Reads (textAfter t rest) rest) (hbracket : context ≠ .bracket)
include ht hafter hbracket

theorem mark_inContext {kind : Kind} {c : Char} (hk : t.kind = kind) (hw : t.word.toList = [c])
    (hblank : isBlank c = false) (hstar : c ≠ '*') (hcode : kind ≠ .whitespace)
    (hlexeme : ∀ r, lexeme (c :: r) = spaced (piece kind [c]) r) :
    context.Reads (t.word.toList ++ textAfter t rest) (t :: rest) := by
  apply Reads.inContext _ ht.2.ne_nil hbracket
  · rw [hw]
    intro d hd
    obtain rfl := Option.some.inj hd
    exact ⟨hblank, fun _ => hstar⟩
  · exact reads_mark ht hk hw hblank hcode (hlexeme _) hafter

include hlex

theorem keyword_inContext (hk : t.kind = .keyword) (hword : t.word ≠ "*")
    (hfar : ∀ next ∈ rest.head?, next.kind ∉ [Kind.comma, Kind.dot, Kind.rightBracket]) :
    context.Reads (t.word.toList ++ textAfter t rest) (t :: rest) := by
  have hfits := ht.2
  rw [hk] at hfits
  have hkeyword : Reserved.isKeyword t.word.toList = true :=
    hfits.resolve_left fun hw => hword (String.toList_inj.1 hw)
  have hfirst := (isReserved_of_isKeyword hkeyword).head
  apply Reads.inContext _ ht.2.ne_nil hbracket
  · exact fun c hc => ⟨(hfirst c hc).1, fun _ => (hfirst c hc).2⟩
  · apply reads_keyword hk ht.1 hkeyword _ hafter
    intro c hc
    rcases head_textAfter t rest hlex (by rw [hk]; decide) c hc with
      rfl | ⟨-, next, hnext, hclose⟩ | ⟨-, hname⟩
    · rfl
    · exact absurd hclose (hfar next hnext)
    · rw [hk] at hname
      exact Kind.noConfusion hname

theorem operator_inContext (hk : t.kind = .operator)
    (hstar : context = .star → t.word.toList.head? ≠ some '*') :
    context.Reads (t.word.toList ++ textAfter t rest) (t :: rest) := by
  have hfits := ht.2
  rw [hk] at hfits
  apply Reads.inContext _ ht.2.ne_nil hbracket
  · intro c hc
    refine ⟨(beginsWord_of_operator (hfits.2.1 c (List.mem_of_mem_head? hc))).1, fun hctx => ?_⟩
    rintro rfl
    exact hstar hctx hc
  · apply reads_operator hk ht.1 hfits _ hafter
    exact fun c hc => (ends_textAfter t rest hlex (by rw [hk]; decide) c hc).1

theorem name_inContext (hk : t.kind = .identifier) (hends : NameEnds t.word.toList (textAfter t rest)) :
    context.Reads (t.word.toList ++ textAfter t rest) (t :: rest) := by
  have hfits := ht.2
  rw [hk] at hfits
  apply Reads.inContext _ ht.2.ne_nil hbracket
  · intro c hc
    obtain ⟨hbegin, ho⟩ := beginsWord_of_name hfits c hc
    exact ⟨hbegin.1, fun _ => ne_star_of_not_operator ho⟩
  · rcases hfits with hplain | ⟨q, body, hq, hbody, hw⟩
    · apply reads_plain hk ht.1 hplain hends _ hafter
      exact fun c hc => (ends_textAfter t rest hlex (by rw [hk]; decide) c hc).2
    · exact reads_quoted hk ht.1 hw hq hbody (hends.quote q (by rw [hw]; rfl) hq) hafter

end Token

/-- The token is read first, where it is legible, and leaves what follows. -/
theorem reads_token (context : Context) (t : Token) (rest : List Token)
    (hlex : ∀ u ∈ t :: rest, Lexical u) (hbreak : '\n' ∉ t.word.toList)
    (hlegible : legibleToken context t rest = true)
    (hrest : (context.next t).Reads (charsOf (spaceOut rest)) rest) :
    context.Reads (charsOf (spaceOut (t :: rest))) (t :: rest) := by
  obtain ⟨ht, hlex⟩ := List.forall_mem_cons.1 hlex
  have hafter : context.next t = .plain → Reads (textAfter t rest) rest := by
    intro hplain
    rw [hplain] at hrest
    exact (reads_textAfter t rest).2 hrest
  rw [charsOf_spaceOut]
  rw [legibleToken, Bool.and_eq_true, Bool.or_eq_true, bne_iff_ne, beq_iff_eq] at hlegible
  obtain ⟨hbracket, hlegible⟩ := hlegible
  have hfits := ht.2
  unfold Context.next at hrest hafter
  cases hk : t.kind with
  | comma =>
    simp only [hk] at hfits hafter hbracket
    exact mark_inContext ht (hafter trivial) (hbracket.resolve_right Kind.noConfusion) hk hfits
      (by decide) (by decide) Kind.noConfusion fun _ => rfl
  | rightBracket =>
    simp only [hk] at hfits hafter hbracket
    exact mark_inContext ht (hafter trivial) (hbracket.resolve_right Kind.noConfusion) hk hfits
      (by decide) (by decide) Kind.noConfusion fun _ => rfl
  | leftBracket =>
    simp only [hk] at hfits hafter hrest
    by_cases hctx : context = .bracket
    · rw [if_pos hctx] at hrest
      have heq := eq_of_lexical ht "(" hfits
      rw [hk] at heq
      rw [hctx, textAfter_of_tight t rest (by rw [hk]; decide), hfits]
      exact ⟨_, rest, rfl, by rw [heq], hrest⟩
    · rw [if_neg hctx] at hafter
      exact mark_inContext ht (hafter rfl) hctx hk hfits (by decide) (by decide) Kind.noConfusion
        fun _ => rfl
  | dot =>
    simp only [hk] at hfits hrest hbracket
    apply Reads.inContext _ ht.2.ne_nil (hbracket.resolve_right Kind.noConfusion)
    · rw [hfits]
      simp [isBlank]
    · rw [textAfter_of_tight t rest (by rw [hk]; decide), hfits, eq_of_lexical ht "." hfits, hk]
      exact reads_dot hrest
  | function =>
    simp only [hk] at hfits hrest hbracket
    obtain ⟨r, us, hr, rfl, hus⟩ := hrest
    have hfirst := (isReserved_of_isFunction hfits.1).head
    apply Reads.inContext _ ht.2.ne_nil (hbracket.resolve_right Kind.noConfusion)
    · exact fun c hc => ⟨(hfirst c hc).1, fun _ => (hfirst c hc).2⟩
    · rw [textAfter_of_tight t _ (by rw [hk]; decide), hr]
      exact reads_function hk ht.1 hfits.1 hfits.2 hus
  | keyword =>
    simp only [hk] at hafter hbracket hlegible
    by_cases hstar : t.word = "*"
    · rw [if_pos hstar, beq_iff_eq] at hlegible
      have heq := eq_of_lexical ht "*" (by rw [hstar])
      rw [hk] at heq
      rw [hlegible, hstar]
      exact ⟨by simp [isBlank], rest, by rw [heq]; rfl, hafter trivial⟩
    · rw [if_neg hstar, Option.all_eq_true] at hlegible
      apply keyword_inContext ht hlex (hafter trivial) (hbracket.resolve_right Kind.noConfusion) hk hstar
      intro next hnext
      simpa using hlegible next hnext
  | operator =>
    simp only [hk] at hafter hbracket hlegible
    apply operator_inContext ht hlex (hafter trivial) (hbracket.resolve_right Kind.noConfusion) hk
    intro hctx
    simpa [hctx] using hlegible
  | identifier =>
    simp only [hk, decide_eq_true_eq] at hafter hbracket hlegible
    exact name_inContext ht hlex (hafter trivial) (hbracket.resolve_right Kind.noConfusion) hk hlegible
  | comment =>
    simp only [hk, Bool.and_eq_true, List.isEmpty_iff] at hbracket hlegible
    obtain ⟨hline, rfl⟩ := hlegible
    apply Reads.inContext _ ht.2.ne_nil (hbracket.resolve_right Kind.noConfusion)
    · exact fun c hc => ⟨(head_of_lineComment hline c hc).1, fun _ => (head_of_lineComment hline c hc).2⟩
    · rw [textAfter, List.append_nil]
      exact reads_comment ht hline hbreak
  | whitespace => simp [hk] at hlegible
  | unknown => simp [hk] at hlegible
  | other name => simp [hk] at hlegible

/-- Legible tokens with whitespace between them read as they are. -/
theorem reads_spaceOut (context : Context) (ts : List Token) (hlex : ∀ t ∈ ts, Lexical t)
    (hbreak : ∀ t ∈ ts, '\n' ∉ t.word.toList) (hlegible : legible context ts = true) :
    context.Reads (charsOf (spaceOut ts)) ts := by
  induction ts generalizing context with
  | nil =>
    cases context with
    | plain => exact reads_nil
    | bracket => exact absurd hlegible (by decide)
    | star => exact reads_nil.star (by simp)
  | cons t rest ih =>
    rw [legible, Bool.and_eq_true] at hlegible
    apply reads_token context t rest hlex (hbreak t List.mem_cons_self) hlegible.1
    exact ih _ (fun u hu => hlex u (List.mem_cons_of_mem t hu))
      (fun u hu => hbreak u (List.mem_cons_of_mem t hu)) hlegible.2

theorem code_scanLines {α : Type} (as : List α) (text : α → List Char) (tokens : α → List Token)
    (h : ∀ a ∈ as, Reads (text a) (tokens a)) :
    code (scanLines false (as.map text)).flatten = as.flatMap tokens := by
  induction as with
  | nil => rfl
  | cons a as ih =>
    obtain ⟨⟨hcode, hclosed⟩, has⟩ := List.forall_mem_cons.1 h
    simp only [List.map_cons, scanLines, hclosed, List.flatten_cons, code_append, hcode, ih has,
      List.flatMap_cons]

end SqlStyle.Scan
