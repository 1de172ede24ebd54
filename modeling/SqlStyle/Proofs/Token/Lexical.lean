import SqlStyle.Proofs.Token.Lossless

/-! The words of scanned tokens fit their kinds: a comma is written as a comma, a keyword spells an entry of
its table or is a star, a name holds identifier characters or stands in quotes, and so on
(`lexical_scan`). So no scanned token is empty (`Lexical.word_ne`). -/
namespace SqlStyle.Scan
set_option autoImplicit false
open Text

/-! ## Words that fit their kind -/

/-- The characters of a plain name; a quote that it begins with is not closed. -/
def IsPlain (cs : List Char) : Prop :=
  cs ≠ [] ∧ (∀ c ∈ cs, isIdentifier c = true) ∧ ∀ q ∈ cs.head?, isQuote q = true → q ∉ cs.tail

def IsQuoted (cs : List Char) : Prop :=
  ∃ q body, isQuote q = true ∧ (∀ c ∈ body, isBlank c = false) ∧ cs = q :: body ++ [q]

/-- The characters of an operator; two of them would begin a comment. -/
def IsOperation (cs : List Char) : Prop :=
  cs ≠ [] ∧ (∀ c ∈ cs, isOperator c = true) ∧ ¬ ['/', '*'] <+: cs ∧ ¬ ['-', '-'] <+: cs

/-- The characters of a word of the given kind. -/
def Fits (kind : Kind) (cs : List Char) : Prop :=
  match kind with
  | .comma => cs = [',']
  | .dot => cs = ['.']
  | .leftBracket => cs = ['(']
  | .rightBracket => cs = [')']
  | .keyword => cs = ['*'] ∨ Reserved.isKeyword cs = true
  | .function => Reserved.isFunction cs = true ∧ Reserved.isKeyword cs = false
  | .operator => IsOperation cs
  | .comment => cs ≠ []
  | .identifier => IsPlain cs ∨ IsQuoted cs
  | .whitespace => cs ≠ [] ∧ ∀ c ∈ cs, isBlank c = true
  | .unknown => False
  | .other _ => False

/-- A comment that goes on to the end of its line. -/
def isLineComment (t : Token) : Bool :=
  t.kind == .comment && (['-', '-'].isPrefixOf t.word.toList || ['#'].isPrefixOf t.word.toList)

/-- The word of the token fits its kind. -/
def Lexical (t : Token) : Prop :=
  t.mark = none ∧ Fits t.kind t.word.toList

theorem Fits.ne_nil {kind : Kind} {cs : List Char} (h : Fits kind cs) : cs ≠ [] := by
  rintro rfl
  cases kind <;> simp [Fits, IsPlain, IsQuoted, IsOperation] at h
  case keyword => exact absurd h (by decide)
  case function => exact absurd h.1 (by decide)

theorem Lexical.word_ne {t : Token} (h : Lexical t) : t.word ≠ "" := by
  intro hw
  exact h.2.ne_nil (by rw [hw]; rfl)

theorem Lexical.word_of_kind {t : Token} (h : Lexical t) {kind : Kind} (hkind : t.kind = kind) {w : String}
    (hword : ∀ cs, Fits kind cs → cs = w.toList) : t.word = w :=
  String.toList_inj.1 (hword _ (hkind ▸ h.2))

theorem Lexical.word_of_leftBracket {t : Token} (h : Lexical t) (hkind : t.kind = .leftBracket) : t.word = "(" :=
  h.word_of_kind hkind fun _ hfits => hfits

theorem Lexical.word_of_rightBracket {t : Token} (h : Lexical t) (hkind : t.kind = .rightBracket) : t.word = ")" :=
  h.word_of_kind hkind fun _ hfits => hfits

/-! ## Steps -/

theorem kind_of_piece {kind : Kind} {cs : List Char} : ∀ t ∈ piece kind cs, t.kind = kind := by
  cases cs with
  | nil => simp [piece]
  | cons c cs => simp [piece]

theorem lexical_piece (kind : Kind) (cs : List Char) (h : cs ≠ [] → Fits kind cs) :
    ∀ t ∈ piece kind cs, Lexical t := by
  cases cs with
  | nil => simp [piece]
  | cons c cs =>
    intro t ht
    obtain rfl := List.mem_singleton.1 ht
    refine ⟨rfl, ?_⟩
    rw [String.toList_ofList]
    exact h (List.cons_ne_nil c cs)

theorem lexical_blanks (cs : List Char) : ∀ t ∈ piece .whitespace (cs.takeWhile isBlank), Lexical t :=
  lexical_piece _ _ fun hne => ⟨hne, fun _ hc => List.mem_takeWhile_imp hc⟩

theorem lexical_spaced (ts : List Token) (rest : List Char) (h : ∀ t ∈ ts, Lexical t) :
    ∀ t ∈ (spaced ts rest).tokens, Lexical t :=
  List.forall_mem_append.2 ⟨h, lexical_blanks rest⟩

theorem lexical_opening (rest : List Char) : ∀ t ∈ (opening rest).tokens, Lexical t := by
  have hbracket : ∀ t ∈ (⟨.leftBracket, "(", none⟩ : Token) :: piece .whitespace (rest.takeWhile isBlank),
      Lexical t := List.forall_mem_cons.2 ⟨⟨rfl, rfl⟩, lexical_blanks rest⟩
  unfold opening
  simp only
  split
  · exact List.forall_mem_append.2 ⟨hbracket, by simp [Lexical, Fits]⟩
  · exact hbracket

theorem lexical_keywordStep (run rest : List Char) (h : Reserved.isKeyword run = true) :
    ∀ t ∈ (keywordStep run rest).tokens, Lexical t := by
  have hrun : ∀ t ∈ piece .keyword run, Lexical t := lexical_piece _ _ fun _ => .inr h
  unfold keywordStep
  split
  · exact List.forall_mem_append.2 ⟨hrun, lexical_opening _⟩
  · exact List.forall_mem_append.2 ⟨hrun, lexical_spaced [] _ (by simp)⟩

theorem lexical_functionStep (run rest : List Char) (s : Step) (hs : functionStep run rest = some s)
    (h : Reserved.isFunction run = true) (hk : Reserved.isKeyword run = false) :
    ∀ t ∈ s.tokens, Lexical t := by
  have hrun : ∀ t ∈ piece .function run, Lexical t := lexical_piece _ _ fun _ => ⟨h, hk⟩
  unfold functionStep at hs
  split at hs
  · obtain rfl := Option.some.inj hs
    exact List.forall_mem_append.2
      ⟨List.forall_mem_append.2 ⟨hrun, lexical_blanks rest⟩, lexical_opening _⟩
  · cases hs

theorem untilLast_notBlank (q : Char) (cs body rest : List Char)
    (h : untilLast q cs = some (body, rest)) : ∀ c ∈ body, isBlank c = false := by
  induction cs generalizing body rest with
  | nil => simp [untilLast] at h
  | cons c cs ih =>
    simp only [untilLast] at h
    split at h
    · cases h
    · next hb =>
      split at h
      · next inner after hi =>
        obtain ⟨rfl, rfl⟩ := Prod.mk.inj (Option.some.inj h)
        exact List.forall_mem_cons.2 ⟨by simpa using hb, ih inner after hi⟩
      · split at h
        · obtain ⟨rfl, -⟩ := Prod.mk.inj (Option.some.inj h)
          simp
        · cases h

theorem notMem_of_untilLast (q : Char) (cs : List Char) (h : untilLast q cs = none) :
    q ∉ cs.takeWhile fun c => !isBlank c := by
  induction cs with
  | nil => simp
  | cons c cs ih =>
    simp only [untilLast] at h
    split at h
    · next hb => simp [hb]
    · next hb =>
      split at h
      · cases h
      · next hnone =>
        split at h
        · cases h
        · next hq =>
          rw [List.takeWhile_cons_of_pos (by simpa using hb)]
          exact List.not_mem_cons_of_ne_of_not_mem (fun he => hq he.symm) (ih hnone)

theorem takeWhile_prefix_of_imp (p r : Char → Bool) (h : ∀ c, p c = true → r c = true) (cs : List Char) :
    cs.takeWhile p <+: cs.takeWhile r := by
  induction cs with
  | nil => exact List.prefix_rfl
  | cons c cs ih =>
    by_cases hc : p c = true
    · rw [List.takeWhile_cons_of_pos hc, List.takeWhile_cons_of_pos (h c hc)]
      exact (List.prefix_cons_inj c).2 ih
    · rw [List.takeWhile_cons_of_neg hc]
      exact List.nil_prefix

theorem notBlank_of_isIdentifier (c : Char) (h : isIdentifier c = true) : (!isBlank c) = true := by
  simp only [isIdentifier, Bool.and_eq_true] at h
  exact h.1.1

/-- A character at which a word may begin: no blank, comma, dot, bracket or hash. -/
def BeginsWord (c : Char) : Prop :=
  isBlank c = false ∧ c ∉ [',', '(', ')', '#', '.']

theorem isIdentifier_of_beginsWord {c : Char} (hc : BeginsWord c) (ho : isOperator c = false) :
    isIdentifier c = true := by
  simp only [isIdentifier, hc.1, ho, Bool.not_false, Bool.true_and, Bool.not_eq_true', List.contains_eq_mem,
    decide_eq_false_iff_not]
  exact hc.2

theorem lexical_nameStep (c : Char) (cs : List Char) (hc : BeginsWord c)
    (hblock : ¬ ['/', '*'] <+: c :: cs) (hline : ¬ ['-', '-'] <+: c :: cs) :
    ∀ t ∈ (nameStep c cs).tokens, Lexical t := by
  unfold nameStep
  split
  · next ho =>
    apply lexical_spaced
    apply lexical_piece
    intro _
    have hpre : c :: cs.takeWhile isOperator <+: c :: cs :=
      (List.prefix_cons_inj c).2 (List.takeWhile_prefix isOperator)
    refine ⟨List.cons_ne_nil _ _, List.forall_mem_cons.2 ⟨ho, fun d hd => ?_⟩, ?_, ?_⟩
    · exact List.mem_takeWhile_imp hd
    · exact fun h => hblock (h.trans hpre)
    · exact fun h => hline (h.trans hpre)
  · next ho =>
    split
    · next body rest h =>
      split at h
      · next hq =>
        apply lexical_spaced
        apply lexical_piece
        intro _
        exact .inr ⟨c, body, hq, untilLast_notBlank c cs body rest h, rfl⟩
      · cases h
    · next h =>
      apply lexical_spaced
      apply lexical_piece
      intro _
      refine .inl ⟨List.cons_ne_nil _ _, List.forall_mem_cons.2 ⟨?_, fun d hd => ?_⟩, ?_⟩
      · exact isIdentifier_of_beginsWord hc (by simpa using ho)
      · exact List.mem_takeWhile_imp hd
      · intro q hq hquote
        obtain rfl := Option.some.inj hq
        rw [if_pos hquote] at h
        intro hmem
        exact notMem_of_untilLast c cs h
          ((takeWhile_prefix_of_imp _ _ notBlank_of_isIdentifier cs).subset hmem)

theorem lexical_wordStep (c : Char) (cs : List Char) (hc : BeginsWord c)
    (hblock : ¬ ['/', '*'] <+: c :: cs) (hline : ¬ ['-', '-'] <+: c :: cs) :
    ∀ t ∈ (wordStep c cs).tokens, Lexical t := by
  rcases wordStep_cases c cs with ⟨hk, hword⟩ | ⟨hk, hf, after, hafter, hword⟩ | ⟨-, -, hword⟩ <;>
    rw [hword]
  · exact lexical_keywordStep _ _ hk
  · exact lexical_functionStep _ _ _ (functionStep_of_bracket _ _ after hafter) hf hk
  · exact lexical_nameStep c cs hc hblock hline

theorem lexical_lineComment (c : Char) (cs : List Char) :
    ∀ t ∈ (lineComment (c :: cs)).tokens, Lexical t := by
  exact lexical_piece _ _ fun hne => hne

theorem Lexeme.lexical {cs : List Char} {s : Step} (h : Lexeme cs s) (hfirst : ∀ c ∈ cs.head?, isBlank c = false) :
    ∀ t ∈ s.tokens, Lexical t := by
  cases h with
  | nothing => simp
  | blockComment => simp [Lexical, Fits]
  | lineComment => exact lexical_lineComment _ _
  | mark kind c rest hmark =>
    apply lexical_spaced
    apply lexical_piece
    intro _
    simp only [List.mem_cons, List.not_mem_nil, or_false, Prod.mk.injEq] at hmark
    rcases hmark with ⟨rfl, rfl⟩ | ⟨rfl, rfl⟩ | ⟨rfl, rfl⟩ | ⟨rfl, rfl⟩ <;> rfl
  | star rest =>
    apply lexical_spaced
    simp [Lexical, Fits]
  | word c rest hmark hblock hline => exact lexical_wordStep c rest ⟨hfirst c rfl, hmark⟩ hblock hline

theorem lexical_commentStep (cs : List Char) : ∀ t ∈ (commentStep cs).tokens, Lexical t := by
  have hpiece (ds : List Char) : ∀ t ∈ piece .comment ds, Lexical t :=
    lexical_piece _ _ fun hne => hne
  unfold commentStep
  split
  · exact List.forall_mem_append.2 ⟨hpiece _, by simp [Lexical, Fits]⟩
  · exact hpiece cs

theorem notBlank_dropWhile (cs : List Char) : ∀ c ∈ (cs.dropWhile isBlank).head?, isBlank c = false := by
  intro c hc
  have hstop := List.head?_dropWhile_not isBlank cs
  rw [Option.mem_def.1 hc] at hstop
  exact hstop

theorem lexical_step (inComment : Bool) (cs : List Char) :
    ∀ t ∈ (step inComment cs).tokens, Lexical t := by
  unfold step
  split
  · exact lexical_commentStep cs
  · exact List.forall_mem_append.2 ⟨lexical_blanks cs, (lexeme_cases _).lexical (notBlank_dropWhile cs)⟩

/-! ## Lines and statements -/

theorem lexical_scanLine (inComment : Bool) (cs : List Char) :
    ∀ t ∈ (scanLine inComment cs).1, Lexical t := by
  fun_induction scanLine inComment cs with
  | case1 inComment => simp
  | case2 inComment c cs s ts isOpen hrest ih =>
    rw [hrest] at ih
    exact List.forall_mem_append.2 ⟨lexical_step inComment (c :: cs), ih⟩

theorem lexical_scanLines (inComment : Bool) (ls : List (List Char)) :
    ∀ t ∈ (scanLines inComment ls).flatten, Lexical t := by
  induction ls generalizing inComment with
  | nil => simp [scanLines]
  | cons line ls ih =>
    rw [scanLines, List.flatten_cons]
    exact List.forall_mem_append.2 ⟨lexical_scanLine inComment line, ih _⟩

/-- The word of every token of a statement fits its kind. -/
theorem lexical_scan (sql : String) : ∀ t ∈ (scan sql).flatten, Lexical t :=
  lexical_scanLines false _

end SqlStyle.Scan
