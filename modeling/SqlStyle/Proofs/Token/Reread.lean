import SqlStyle.Proofs.Token.Legible

/-! When a line reads as it was written. Legible tokens come back from their line (`reads_spaceOut`), and here
no others do (`legible_of_reads`). The first token that comes back tells which way the scanner took, hence
what stands behind the token, and what the scanner left is the line of the tokens that remain. So the tokens
of a line without comments, written with whitespace between them, are read again exactly if they are legible
(`reread_iff`). A keyword before a comma is not. -/
namespace SqlStyle.Scan
set_option autoImplicit false
open Text Layout Token

/-! ## Steps that were taken -/

theorem reads_of_after {s : Step} {us ts : List Token} (h : (s.after us).Reads ts) :
    ∃ vs, ts = code us ++ vs ∧ s.Reads vs := by
  refine ⟨_, ?_, rfl, h.2⟩
  rw [← h.1, Step.after, code_append, List.append_assoc]

theorem reads_of_spaced {us ts : List Token} {r : List Char} (h : (spaced us r).Reads ts) :
    ∃ vs, ts = code us ++ vs ∧ Reads r vs := by
  refine ⟨_, ?_, (reads_dropWhile r _).1 ⟨rfl, h.2⟩⟩
  rw [← h.1, spaced, code_append, code_blanks, List.append_nil]

theorem code_singleton {u : Token} (hu : u.kind ≠ .whitespace) : code [u] = [u] := by
  simp [code, hu]

theorem reads_of_token {t u : Token} {ts : List Token} {r : List Char} (hu : u.kind ≠ .whitespace)
    (h : (spaced [u] r).Reads (t :: ts)) : t = u ∧ Reads r ts := by
  obtain ⟨vs, hvs, hr⟩ := reads_of_spaced h
  rw [code_singleton hu, List.singleton_append] at hvs
  obtain ⟨rfl, rfl⟩ := List.cons.inj hvs
  exact ⟨rfl, hr⟩

theorem readsStar_of_star {rest : List Char} {ts : List Token} (h : Reads rest ts) :
    ReadsStar ('*' :: rest) (starToken :: ts) := by
  refine ⟨fun c hc => ?_, ts, rfl, h⟩
  obtain rfl := Option.some.inj hc
  rfl

theorem readsStar_of_reads {cs : List Char} {ts : List Token} (hfirst : ∀ c ∈ cs.head?, isBlank c = false)
    (hstar : ∀ rest, cs ≠ '*' :: rest) (h : Reads cs ts) : ReadsStar cs ts := by
  refine h.star fun c hc => ⟨hfirst c hc, ?_⟩
  rintro rfl
  obtain ⟨rest, hrest⟩ := List.head?_eq_some_iff.1 hc
  exact hstar rest hrest

theorem reads_of_dot {cs : List Char} {ts : List Token} (hfirst : ∀ c ∈ cs.head?, isBlank c = false)
    (h : Reads ('.' :: cs) (⟨.dot, ".", none⟩ :: ts)) : ReadsStar cs ts := by
  have hlexeme := (reads_cons_iff (by decide)).1 h
  by_cases hstar : ∃ rest, cs = '*' :: rest
  · obtain ⟨rest, rfl⟩ := hstar
    obtain ⟨vs, hvs, hrest⟩ := reads_of_spaced hlexeme
    obtain rfl : ts = starToken :: vs := (List.cons.inj hvs).2
    exact readsStar_of_star hrest
  · have hother : ∀ rest, cs ≠ '*' :: rest := fun rest he => hstar ⟨rest, he⟩
    rw [lexeme] at hlexeme
    · exact readsStar_of_reads hfirst hother (reads_of_token Kind.noConfusion hlexeme).2
    · exact hother

theorem reads_of_opening {cs : List Char} {ts : List Token} (hfirst : ∀ c ∈ cs.head?, isBlank c = false)
    (h : (opening cs).Reads ts) : ∃ us, ts = ⟨.leftBracket, "(", none⟩ :: us ∧ ReadsStar cs us := by
  have hdrop := takeWhile_of_head hfirst
  unfold opening at h
  simp only [hdrop] at h
  split at h
  · obtain ⟨hts, hclosed⟩ := h
    exact ⟨_, hts.symm, readsStar_of_star ⟨rfl, hclosed⟩⟩
  · next hstar =>
    obtain ⟨hts, hclosed⟩ := h
    exact ⟨_, hts.symm, readsStar_of_reads hfirst hstar ⟨rfl, hclosed⟩⟩

theorem exists_of_opening {cs : List Char} {ts : List Token} (h : (opening cs).Reads ts) :
    ∃ us, ts = ⟨.leftBracket, "(", none⟩ :: us := by
  unfold opening at h
  simp only at h
  split at h <;> exact ⟨_, h.1.symm⟩

/-! ## Words -/

theorem reads_of_piece {s : Step} {kind : Kind} {c : Char} {cs : List Char} {t : Token} {ts : List Token}
    (us : List Token) (hkind : kind ≠ .whitespace) (hus : code us = [])
    (h : (s.after (piece kind (c :: cs) ++ us)).Reads (t :: ts)) :
    t = ⟨kind, String.ofList (c :: cs), none⟩ ∧ s.Reads ts := by
  obtain ⟨vs, hvs, hs⟩ := reads_of_after h
  rw [code_append, hus, List.append_nil, piece, code_singleton hkind, List.singleton_append] at hvs
  obtain ⟨rfl, rfl⟩ := List.cons.inj hvs
  exact ⟨rfl, hs⟩

theorem kind_of_nameStep {c : Char} {cs : List Char} {t : Token} {ts : List Token}
    (h : (nameStep c cs).Reads (t :: ts)) : t.kind = .operator ∨ t.kind = .identifier := by
  unfold nameStep at h
  split at h
  · exact .inl (by rw [(reads_of_token (u := ⟨.operator, _, none⟩) Kind.noConfusion h).1])
  · split at h
    · exact .inr (by rw [(reads_of_token (u := ⟨.identifier, _, none⟩) Kind.noConfusion h).1])
    · exact .inr (by rw [(reads_of_token (u := ⟨.identifier, _, none⟩) Kind.noConfusion h).1])

theorem reads_of_keywordStep {c : Char} {cs rest : List Char} {t : Token} {ts : List Token}
    (h : (keywordStep (c :: cs) rest).Reads (t :: ts)) :
    t = ⟨.keyword, String.ofList (c :: cs), none⟩ ∧ (Reads rest ts ∨ ∃ after, rest = '(' :: after) := by
  rw [keywordStep.eq_def] at h
  split at h
  · next after =>
    obtain ⟨ht, -⟩ := reads_of_piece [] Kind.noConfusion rfl (by rwa [List.append_nil])
    exact ⟨ht, .inr ⟨after, rfl⟩⟩
  · obtain ⟨ht, hs⟩ := reads_of_piece [] Kind.noConfusion rfl (by rwa [List.append_nil])
    obtain ⟨vs, rfl, hrest⟩ := reads_of_spaced hs
    exact ⟨ht, .inl hrest⟩

/-- The kind of the token that comes back from a word tells which way the scanner took. -/
theorem reads_of_word {c : Char} {cs r : List Char} {t : Token} {ts : List Token} (hc : BeginsWord c)
    (ho : isOperator c = false) (hrun : ∀ d ∈ cs, inRun d = true) (h : Reads (c :: (cs ++ r)) (t :: ts)) :
    (t = ⟨.keyword, String.ofList (c :: (cs ++ r.takeWhile inRun)), none⟩ ∧
        (Reads (r.dropWhile inRun) ts ∨ ∃ after, r.dropWhile inRun = '(' :: after)) ∨
      (t = ⟨.function, String.ofList (c :: (cs ++ r.takeWhile inRun)), none⟩ ∧
        ∃ after, (r.dropWhile inRun).dropWhile isBlank = '(' :: after ∧ (opening after).Reads ts) ∨
      ((t.kind = .operator ∨ t.kind = .identifier) ∧
        Reserved.isKeyword (c :: (cs ++ r.takeWhile inRun)) = false ∧
        (Reserved.isFunction (c :: (cs ++ r.takeWhile inRun)) = true →
          ((r.dropWhile inRun).dropWhile isBlank).head? ≠ some '(') ∧
        (nameStep c (cs ++ r)).Reads (t :: ts)) := by
  have hstep := (reads_cons_iff hc.1).1 h
  rw [lexeme_of_not_operator c _ hc ho] at hstep
  have hcases := wordStep_cases c (cs ++ r)
  rw [List.takeWhile_append_of_pos hrun, List.dropWhile_append_of_pos hrun] at hcases
  rcases hcases with ⟨-, hword⟩ | ⟨-, -, after, hafter, hword⟩ | ⟨hkeyword, hfunction, hword⟩
  · rw [hword] at hstep
    exact .inl (reads_of_keywordStep hstep)
  · rw [hword] at hstep
    obtain ⟨ht, hs⟩ := reads_of_piece _ Kind.noConfusion (code_blanks _) hstep
    exact .inr (.inl ⟨ht, after, hafter, hs⟩)
  · rw [hword] at hstep
    exact .inr (.inr ⟨kind_of_nameStep hstep, hkeyword, hfunction, hstep⟩)

/-! ## Reserved words -/

section Reserved
variable {t : Token} {r : List Char} {ts : List Token} (hres : IsReserved t.word.toList)
  (h : Reads (t.word.toList ++ r) (t :: ts))
include hres h

theorem reads_of_reserved :
    t.kind = .keyword ∧ r.takeWhile inRun = [] ∧ (Reads r ts ∨ ∃ after, r = '(' :: after) ∨
      t.kind = .function ∧ r.takeWhile inRun = [] ∧
        (∃ after, r.dropWhile isBlank = '(' :: after ∧ (opening after).Reads ts) ∨
      t.kind = .operator ∨ t.kind = .identifier := by
  obtain ⟨c, cs, hw⟩ := List.exists_cons_of_ne_nil hres.ne_nil
  rw [hw] at hres
  obtain ⟨hrun, hc, ho, -⟩ := hres.chars
  rw [hw, List.cons_append] at h
  have hwhole : ∀ kind, t = ⟨kind, String.ofList (c :: (cs ++ r.takeWhile inRun)), none⟩ →
      r.takeWhile inRun = [] ∧ r.dropWhile inRun = r := by
    intro kind ht
    have hword : c :: (cs ++ r.takeWhile inRun) = c :: cs := by rw [← hw, ht, String.toList_ofList]
    have hnil : r.takeWhile inRun = [] := by simpa using hword
    have hall := List.takeWhile_append_dropWhile (p := inRun) (l := r)
    rw [hnil, List.nil_append] at hall
    exact ⟨hnil, hall⟩
  rcases reads_of_word hc ho hrun h with ⟨ht, hrest⟩ | ⟨ht, hrest⟩ | ⟨hkind, -⟩
  · obtain ⟨hnil, hr⟩ := hwhole _ ht
    rw [hr] at hrest
    exact .inl ⟨by rw [ht], hnil, hrest⟩
  · obtain ⟨hnil, hr⟩ := hwhole _ ht
    rw [hr] at hrest
    exact .inr (.inl ⟨by rw [ht], hnil, hrest⟩)
  · exact .inr (.inr hkind)

theorem reads_of_keyword (hk : t.kind = .keyword) (hr : ∀ after, r ≠ '(' :: after) :
    r.takeWhile inRun = [] ∧ Reads r ts := by
  have hcases := reads_of_reserved hres h
  rw [hk] at hcases
  rcases hcases with ⟨-, hnil, hrest | ⟨after, he⟩⟩ | ⟨hk, -⟩ | hk | hk
  · exact ⟨hnil, hrest⟩
  · exact absurd he (hr after)
  all_goals cases hk

theorem reads_of_function (hk : t.kind = .function) (hr : ∀ c ∈ r.head?, isBlank c = false) :
    ∃ after, r = '(' :: after ∧ (opening after).Reads ts := by
  have hcases := reads_of_reserved hres h
  rw [hk] at hcases
  rcases hcases with ⟨hk, -⟩ | ⟨-, -, after, hafter, hopening⟩ | hk | hk
  · cases hk
  · rw [(takeWhile_of_head hr).2] at hafter
    exact ⟨after, hafter, hopening⟩
  all_goals cases hk

end Reserved

/-! ## Names -/

theorem reads_of_nameStep {c : Char} {cs : List Char} {t : Token} {ts : List Token}
    (ho : isOperator c = false) (h : (nameStep c cs).Reads (t :: ts)) :
    (∃ body rest, isQuote c = true ∧ untilLast c cs = some (body, rest) ∧
        t.word.toList = c :: body ++ [c] ∧ Reads rest ts) ∨
      ((isQuote c = true → untilLast c cs = none) ∧ t.word.toList = c :: cs.takeWhile isIdentifier ∧
        Reads (cs.dropWhile isIdentifier) ts) := by
  rw [nameStep, if_neg (by simp [ho])] at h
  split at h
  · next body rest hlast =>
    split at hlast
    · next hq =>
      obtain ⟨ht, hrest⟩ := reads_of_token (u := ⟨.identifier, _, none⟩) Kind.noConfusion h
      exact .inl ⟨body, rest, hq, hlast, by rw [ht, String.toList_ofList]; rfl, hrest⟩
    · cases hlast
  · next hlast =>
    obtain ⟨ht, hrest⟩ := reads_of_token (u := ⟨.identifier, _, none⟩) Kind.noConfusion h
    refine .inr ⟨fun hq => ?_, by rw [ht, String.toList_ofList], hrest⟩
    rwa [if_pos hq] at hlast

theorem untilLast_rest (q : Char) (cs body rest : List Char) (h : untilLast q cs = some (body, rest)) :
    untilLast q rest = none := by
  induction cs generalizing body with
  | nil => simp [untilLast] at h
  | cons c cs ih =>
    simp only [untilLast] at h
    split at h
    · cases h
    · split at h
      · next inner after hinner =>
        obtain ⟨-, rfl⟩ := Prod.mk.inj (Option.some.inj h)
        exact ih inner hinner
      · next hnone =>
        split at h
        · obtain ⟨-, rfl⟩ := Prod.mk.inj (Option.some.inj h)
          exact hnone
        · cases h

section Names
variable {t : Token} {r : List Char} {ts : List Token} (h : Reads (t.word.toList ++ r) (t :: ts))
include h

theorem nameEnds_of_plain (hk : t.kind = .identifier) (hplain : IsPlain t.word.toList)
    (hr : ∀ c ∈ r.head?, isIdentifier c = false) : NameEnds t.word.toList r ∧ Reads r ts := by
  obtain ⟨hne, hall, hclosed⟩ := hplain
  obtain ⟨c, cs, hw⟩ := List.exists_cons_of_ne_nil hne
  rw [hw] at hall hclosed
  obtain ⟨hc, hcs⟩ := List.forall_mem_cons.1 hall
  obtain ⟨hbegin, ho, -⟩ := beginsWord_of_identifier hc
  obtain ⟨-, hdropName⟩ := takeWhile_word isIdentifier cs r hcs hr
  have hrun : ∀ d ∈ cs, inRun d = true := fun d hd => (beginsWord_of_identifier (hcs d hd)).2.2
  rw [hw, List.cons_append] at h
  rcases reads_of_word hbegin ho hrun h with ⟨ht, -⟩ | ⟨ht, -⟩ | ⟨-, hkeyword, hfunction, hname⟩
  · rw [ht] at hk
    cases hk
  · rw [ht] at hk
    cases hk
  · rcases reads_of_nameStep ho hname with ⟨body, rest, hq, -, hword, -⟩ | ⟨hquote, -, hrest⟩
    · have htail : cs = body ++ [c] := (List.cons.inj (hw.symm.trans hword)).2
      exact absurd (by rw [htail]; simp) (hclosed c rfl hq)
    · rw [hdropName] at hrest
      rw [hw]
      refine ⟨⟨hkeyword, hfunction, fun q hq hisQuote => ?_⟩, hrest⟩
      obtain rfl := Option.some.inj hq
      have hnone := notMem_of_untilLast _ _ (hquote hisQuote)
      have hblank : ∀ d ∈ cs, (!isBlank d) = true := fun d hd => notBlank_of_isIdentifier d (hcs d hd)
      rw [List.takeWhile_append_of_pos hblank, List.mem_append, not_or] at hnone
      exact hnone.2

theorem nameEnds_of_quoted (hquoted : IsQuoted t.word.toList) : NameEnds t.word.toList r ∧ Reads r ts := by
  obtain ⟨q, body, hq, hbody, hw⟩ := hquoted
  obtain ⟨hbegin, ho⟩ := beginsWord_of_quote hq
  rw [hw, List.cons_append, List.cons_append, List.append_assoc, List.singleton_append] at h
  have hstep := (reads_cons_iff hbegin.1).1 h
  have hlexeme : lexeme (q :: (body ++ q :: r)) = nameStep q (body ++ q :: r) :=
    lexeme_eq_nameStep (lexeme_of_not_operator q _ hbegin ho) fun ds => not_isReserved_of_quote hq
  rw [hlexeme] at hstep
  rcases reads_of_nameStep ho hstep with ⟨inner, rest, -, hlast, hword, hrest⟩ | ⟨hquote, -, -⟩
  · have hinner : inner = body := by simpa [hw] using hword.symm
    have hr : rest = r := by simpa [hinner] using untilLast_eq _ _ _ _ hlast
    rw [hr] at hrest hlast
    refine ⟨⟨?_, ?_, ?_⟩, hrest⟩
    · rw [hw, ← Bool.not_eq_true]
      exact fun hkeyword => not_isReserved_of_quote hq (isReserved_of_isKeyword hkeyword)
    · rw [hw]
      exact fun hfunction => absurd (isReserved_of_isFunction hfunction) (not_isReserved_of_quote hq)
    · intro d hd _
      rw [hw] at hd
      obtain rfl := Option.some.inj hd
      exact notMem_of_untilLast _ _ (untilLast_rest _ _ _ _ hlast)
  · have hnone := notMem_of_untilLast _ _ (hquote hq)
    have hblank : ∀ d ∈ body, (!isBlank d) = true := fun d hd => by simp [hbody d hd]
    rw [List.takeWhile_append_of_pos hblank, List.takeWhile_cons_of_pos (by simp [hbegin.1])] at hnone
    exact absurd (by simp) hnone

end Names

/-! ## Lines of tokens -/

/-- The token is a word or a mark, and neither whitespace nor a comment. -/
def IsCode (t : Token) : Prop :=
  Lexical t ∧ t.kind ≠ .whitespace ∧ t.kind ≠ .comment

theorem IsCode.notBlank {t : Token} (h : IsCode t) : ∀ c ∈ t.word.toList, isBlank c = false := by
  obtain ⟨ht, hwhite, hcomment⟩ := h
  have hfits := ht.2
  intro c hc
  have hmark : ∀ d, isBlank d = false → t.word.toList = [d] → isBlank c = false := by
    intro d hblank hd
    rw [hd] at hc
    obtain rfl := List.mem_singleton.1 hc
    exact hblank
  have hreserved : IsReserved t.word.toList → isBlank c = false := by
    intro hword
    have hrun := inRun_of_spelled hword c hc
    rw [inRun, Bool.and_eq_true, Bool.not_eq_true'] at hrun
    exact hrun.1
  cases hk : t.kind with
  | comma => rw [hk] at hfits; exact hmark ',' (by decide) hfits
  | dot => rw [hk] at hfits; exact hmark '.' (by decide) hfits
  | leftBracket => rw [hk] at hfits; exact hmark '(' (by decide) hfits
  | rightBracket => rw [hk] at hfits; exact hmark ')' (by decide) hfits
  | function => rw [hk] at hfits; exact hreserved (isReserved_of_isFunction hfits.1)
  | keyword =>
    rw [hk] at hfits
    rcases hfits with hstar | hword
    · exact hmark '*' (by decide) hstar
    · exact hreserved (isReserved_of_isKeyword hword)
  | operator =>
    rw [hk] at hfits
    exact (beginsWord_of_operator (hfits.2.1 c hc)).1
  | identifier =>
    rw [hk] at hfits
    rcases hfits with hplain | ⟨q, body, hq, hbody, hw⟩
    · exact (beginsWord_of_identifier (hplain.2.1 c hc)).1.1
    · have hquote := (beginsWord_of_quote hq).1.1
      rw [hw, List.mem_append, List.mem_cons, List.mem_singleton] at hc
      rcases hc with (rfl | hc) | rfl
      · exact hquote
      · exact hbody c hc
      · exact hquote
  | comment => exact absurd hk hcomment
  | whitespace => exact absurd hk hwhite
  | unknown => rw [hk] at hfits; exact hfits.elim
  | other name => rw [hk] at hfits; exact hfits.elim

theorem IsCode.head {t : Token} (h : IsCode t) : ∀ c ∈ t.word.toList.head?, isBlank c = false :=
  fun c hc => h.notBlank c (List.mem_of_mem_head? hc)

theorem head_spaceOut {ts : List Token} (h : ∀ t ∈ ts, IsCode t) :
    ∀ c ∈ (charsOf (spaceOut ts)).head?, isBlank c = false := by
  cases ts with
  | nil => simp [spaceOut, charsOf_nil]
  | cons t rest =>
    have ht := h t List.mem_cons_self
    obtain ⟨d, cs, hw⟩ := List.exists_cons_of_ne_nil ht.1.2.ne_nil
    intro c hc
    rw [charsOf_spaceOut, hw] at hc
    apply ht.head c
    rw [hw]
    exact hc

/-- In which context a token came back: as the bracket of a function, as the star, or as anywhere else. -/
theorem Context.Reads.cases {context : Context} {t : Token} {r : List Char} {ts : List Token}
    (h : context.Reads (t.word.toList ++ r) (t :: ts)) :
    (context = .bracket ∧ t = ⟨.leftBracket, "(", none⟩ ∧ ReadsStar r ts) ∨
      (context = .star ∧ t = starToken ∧ Scan.Reads r ts) ∨
      (context ≠ .bracket ∧ (context = .star → t.word.toList.head? ≠ some '*') ∧
        Scan.Reads (t.word.toList ++ r) (t :: ts)) := by
  cases context with
  | plain => exact .inr (.inr ⟨Context.noConfusion, Context.noConfusion, h⟩)
  | bracket =>
    obtain ⟨rest, us, hcs, hts, hstar⟩ := h
    obtain ⟨rfl, rfl⟩ := List.cons.inj hts
    obtain rfl : r = rest := (List.cons.inj hcs).2
    exact .inl ⟨rfl, rfl, hstar⟩
  | star =>
    rcases ReadsStar.cases h with ⟨rest, us, hcs, hts, hus⟩ | ⟨hstar, hreads⟩
    · obtain ⟨rfl, rfl⟩ := List.cons.inj hts
      obtain rfl : r = rest := (List.cons.inj hcs).2
      exact .inr (.inl ⟨rfl, rfl, hus⟩)
    · refine .inr (.inr ⟨Context.noConfusion, fun _ hhead => ?_, hreads⟩)
      obtain ⟨rest, hw⟩ := List.head?_eq_some_iff.1 hhead
      exact hstar (rest ++ r) (by rw [hw]; rfl)

/-- A token that is read by itself leaves the text behind it. -/
theorem IsCode.reads_after {t u : Token} (ht : IsCode t) {r : List Char} {ts : List Token}
    (hu : u.kind ≠ .whitespace) (hlexeme : lexeme (t.word.toList ++ r) = spaced [u] r)
    (h : Reads (t.word.toList ++ r) (t :: ts)) : Reads r ts := by
  obtain ⟨c, cs, hw⟩ := List.exists_cons_of_ne_nil ht.1.2.ne_nil
  have hblank := ht.head c (by rw [hw]; rfl)
  rw [hw, List.cons_append] at h hlexeme
  have hstep := (reads_cons_iff hblank).1 h
  rw [hlexeme] at hstep
  exact (reads_of_token hu hstep).2

theorem textAfter_of_close (t next : Token) (rest : List Token) (hnext : Lexical next)
    (hk : next.kind ∈ [Kind.comma, Kind.dot, Kind.rightBracket]) :
    ∃ c ∈ [',', '.', ')'], ∃ r, textAfter t (next :: rest) = c :: r := by
  have htight : isTight t next = true := by
    rw [isTight, List.contains_iff_mem.2 hk, Bool.or_true, Bool.true_or]
  have hfits := hnext.2
  rw [textAfter, gap, if_pos htight, charsOf_nil, List.nil_append, charsOf_spaceOut]
  simp only [List.mem_cons, List.not_mem_nil, or_false] at hk
  rcases hk with hk | hk | hk <;> rw [hk] at hfits <;> rw [hfits]
  · exact ⟨',', by simp, _, rfl⟩
  · exact ⟨'.', by simp, _, rfl⟩
  · exact ⟨')', by simp, _, rfl⟩

section Line
variable {t : Token} {rest : List Token} (ht : IsCode t) (hrest : ∀ u ∈ rest, IsCode u)
  (h : Reads (t.word.toList ++ textAfter t rest) (t :: rest))
include h

theorem word_ne_star (hk : t.kind = .keyword) : t.word ≠ "*" := by
  intro hstar
  have hline : Reads ('*' :: textAfter t rest) (t :: rest) := by
    rw [hstar] at h
    exact h
  have hstep := (reads_cons_iff (by decide)).1 hline
  have hblock : ¬ ['/', '*'] <+: '*' :: textAfter t rest := by simp [List.cons_prefix_cons]
  have hline : ¬ ['-', '-'] <+: '*' :: textAfter t rest := by simp [List.cons_prefix_cons]
  rw [lexeme_eq_nameStep (lexeme_word '*' _ (beginsWord_of_operator rfl) hblock hline)
    fun ds => not_isReserved_of_operator rfl] at hstep
  rcases kind_of_nameStep hstep with hname | hname <;> rw [hk] at hname <;> cases hname

include ht hrest

theorem keyword_of_reads (hk : t.kind = .keyword) :
    (∀ next ∈ rest.head?, next.kind ∉ [Kind.comma, Kind.dot, Kind.rightBracket]) ∧
      Reads (textAfter t rest) rest := by
  have hstar := word_ne_star h hk
  have hfits := ht.1.2
  rw [hk] at hfits
  have hkeyword : Reserved.isKeyword t.word.toList = true :=
    hfits.resolve_left fun hw => hstar (String.toList_inj.1 hw)
  have hbracket : ∀ after, textAfter t rest ≠ '(' :: after := by
    intro after he
    have hhead := head_textAfter t rest (fun u hu => (hrest u hu).1) (by rw [hk]; decide) '(' (by rw [he]; rfl)
    simp [hk] at hhead
  obtain ⟨hnil, hreads⟩ := reads_of_keyword (isReserved_of_isKeyword hkeyword) h hk hbracket
  refine ⟨fun next hnext hclose => ?_, hreads⟩
  obtain ⟨us, rfl⟩ := List.head?_eq_some_iff.1 hnext
  obtain ⟨c, hc, r, hr⟩ := textAfter_of_close t next us (hrest next List.mem_cons_self).1 hclose
  have hrun : ∀ d ∈ [',', '.', ')'], inRun d = true := by simp [inRun, isBlank]
  rw [hr, List.takeWhile_cons_of_pos (hrun c hc)] at hnil
  cases hnil

theorem function_of_reads (hk : t.kind = .function) :
    Context.bracket.Reads (charsOf (spaceOut rest)) rest := by
  have hfits := ht.1.2
  rw [hk] at hfits
  rw [textAfter_of_tight t rest (by rw [hk]; decide)] at h
  obtain ⟨after, hafter, hopening⟩ :=
    reads_of_function (isReserved_of_isFunction hfits.1) h hk (head_spaceOut hrest)
  obtain ⟨us, rfl⟩ := exists_of_opening hopening
  have hline : charsOf (spaceOut (⟨.leftBracket, "(", none⟩ :: us)) = '(' :: charsOf (spaceOut us) := by
    rw [charsOf_spaceOut, textAfter_of_tight _ us (by decide)]
    rfl
  rw [hline] at hafter ⊢
  obtain rfl := (List.cons.inj hafter).2
  obtain ⟨vs, hvs, hstar⟩ :=
    reads_of_opening (head_spaceOut fun u hu => hrest u (List.mem_cons_of_mem _ hu)) hopening
  obtain rfl := (List.cons.inj hvs).2
  exact ⟨_, us, rfl, rfl, hstar⟩

theorem dot_of_reads (hk : t.kind = .dot) : ReadsStar (charsOf (spaceOut rest)) rest := by
  have hfits := ht.1.2
  rw [hk] at hfits
  have heq := eq_of_lexical ht.1 "." hfits
  rw [hk] at heq
  rw [textAfter_of_tight t rest (by rw [hk]; decide), hfits, heq] at h
  exact reads_of_dot (head_spaceOut hrest) h

theorem operator_of_reads (hk : t.kind = .operator) : Reads (textAfter t rest) rest := by
  have hfits := ht.1.2
  rw [hk] at hfits
  have hends := ends_textAfter t rest (fun u hu => (hrest u hu).1) (by rw [hk]; decide)
  exact ht.reads_after (by rw [hk]; exact Kind.noConfusion)
    (lexeme_operator hk ht.1.1 hfits fun c hc => (hends c hc).1) h

theorem name_of_reads (hk : t.kind = .identifier) :
    NameEnds t.word.toList (textAfter t rest) ∧ Reads (textAfter t rest) rest := by
  have hfits := ht.1.2
  rw [hk] at hfits
  rcases hfits with hplain | hquoted
  · apply nameEnds_of_plain h hk hplain
    exact fun c hc => (ends_textAfter t rest (fun u hu => (hrest u hu).1) (by rw [hk]; decide) c hc).2
  · exact nameEnds_of_quoted h hquoted

end Line

/-- A token that comes back is legible where it stands, and leaves what follows. -/
theorem legibleToken_of_reads (context : Context) (t : Token) (rest : List Token)
    (hcode : ∀ u ∈ t :: rest, IsCode u) (h : context.Reads (charsOf (spaceOut (t :: rest))) (t :: rest)) :
    legibleToken context t rest = true ∧ (context.next t).Reads (charsOf (spaceOut rest)) rest := by
  obtain ⟨ht, hrest⟩ := List.forall_mem_cons.1 hcode
  rw [charsOf_spaceOut] at h
  have hnext : Reads (textAfter t rest) rest → Context.plain.Reads (charsOf (spaceOut rest)) rest :=
    (reads_textAfter t rest).1
  rcases h.cases with ⟨rfl, rfl, hstar⟩ | ⟨rfl, rfl, hreads⟩ | ⟨hbracket, hstar, hreads⟩
  · rw [textAfter_of_tight _ rest (by decide)] at hstar
    exact ⟨rfl, hstar⟩
  · exact ⟨rfl, hnext hreads⟩
  · have hfits := ht.1.2
    have hplace : (context != .bracket || t.kind == .leftBracket) = true := by simp [hbracket]
    rw [legibleToken, hplace, Bool.true_and, Context.next]
    cases hk : t.kind with
    | comma =>
      rw [hk] at hfits
      exact ⟨rfl,
        hnext (ht.reads_after (u := ⟨.comma, ",", none⟩) Kind.noConfusion (by rw [hfits]; rfl) hreads)⟩
    | rightBracket =>
      rw [hk] at hfits
      exact ⟨rfl,
        hnext (ht.reads_after (u := ⟨.rightBracket, ")", none⟩) Kind.noConfusion (by rw [hfits]; rfl) hreads)⟩
    | leftBracket =>
      rw [hk] at hfits
      simp only [if_neg hbracket]
      exact ⟨trivial,
        hnext (ht.reads_after (u := ⟨.leftBracket, "(", none⟩) Kind.noConfusion (by rw [hfits]; rfl) hreads)⟩
    | dot => exact ⟨rfl, dot_of_reads ht hrest hreads hk⟩
    | function => exact ⟨rfl, function_of_reads ht hrest hreads hk⟩
    | keyword =>
      obtain ⟨hfar, hafter⟩ := keyword_of_reads ht hrest hreads hk
      simp only [if_neg (word_ne_star hreads hk), Option.all_eq_true]
      refine ⟨fun next hmem => ?_, hnext hafter⟩
      simpa using hfar next hmem
    | operator =>
      refine ⟨?_, hnext (operator_of_reads ht hrest hreads hk)⟩
      by_cases hctx : context = .star
      · simp [hstar hctx]
      · simp [hctx]
    | identifier =>
      obtain ⟨hends, hafter⟩ := name_of_reads ht hrest hreads hk
      exact ⟨decide_eq_true hends, hnext hafter⟩
    | comment => exact absurd hk ht.2.2
    | whitespace => exact absurd hk ht.2.1
    | unknown =>
      rw [hk] at hfits
      exact hfits.elim
    | other name =>
      rw [hk] at hfits
      exact hfits.elim

/-- Tokens that come back from their line are legible. -/
theorem legible_of_reads (context : Context) (ts : List Token) (hcode : ∀ t ∈ ts, IsCode t)
    (h : context.Reads (charsOf (spaceOut ts)) ts) : legible context ts = true := by
  induction ts generalizing context with
  | nil =>
    cases context with
    | plain => rfl
    | star => rfl
    | bracket =>
      obtain ⟨rest, us, hcs, -⟩ := h
      cases hcs
  | cons t rest ih =>
    obtain ⟨ht, hrest⟩ := legibleToken_of_reads context t rest hcode h
    rw [legible, ht, Bool.true_and]
    exact ih _ (fun u hu => hcode u (List.mem_cons_of_mem t hu)) hrest

/-! ## Lines without comments -/

theorem opening_closed (cs : List Char) : (opening cs).inComment = false := by
  unfold opening
  simp only
  split <;> rfl

theorem nameStep_closed (c : Char) (cs : List Char) : (nameStep c cs).inComment = false := by
  unfold nameStep
  split
  · rfl
  · split <;> rfl

theorem wordStep_closed (c : Char) (cs : List Char) : (wordStep c cs).inComment = false := by
  rcases wordStep_cases c cs with ⟨-, hword⟩ | ⟨-, -, after, -, hword⟩ | ⟨-, -, hword⟩ <;> rw [hword]
  · unfold keywordStep
    split
    · exact opening_closed _
    · rfl
  · exact opening_closed after
  · exact nameStep_closed c cs

theorem Lexeme.exists_comment {cs : List Char} {s : Step} (h : Lexeme cs s) (hopen : s.inComment = true) :
    ∃ t ∈ s.tokens, t.kind = .comment := by
  cases h with
  | blockComment => exact ⟨_, List.mem_singleton_self _, rfl⟩
  | word c rest =>
    rw [wordStep_closed] at hopen
    cases hopen
  | _ => cases hopen

theorem comment_of_open (inComment : Bool) (cs : List Char) (h : (scanLine inComment cs).2 = true) :
    inComment = true ∨ ∃ t ∈ (scanLine inComment cs).1, t.kind = .comment := by
  fun_induction scanLine inComment cs with
  | case1 inComment => exact .inl h
  | case2 inComment c cs s ts isOpen hrest ih =>
    rw [hrest] at ih
    rcases ih h with hopen | ⟨t, ht, hk⟩
    · cases inComment with
      | true => exact .inl rfl
      | false =>
        obtain ⟨t, ht, hk⟩ := (lexeme_cases _).exists_comment hopen
        exact .inr ⟨t, List.mem_append_left _ (List.mem_append_right _ ht), hk⟩
    · exact .inr ⟨t, List.mem_append_right _ ht, hk⟩

/-- A line without comments, written with whitespace between its tokens, reads as the same tokens exactly if
each of them is legible. -/
theorem reread_iff (cs : List Char) (hbreak : '\n' ∉ cs)
    (hcode : ∀ t ∈ (scanLine false cs).1, t.kind ≠ .comment) :
    code (scanLine false (charsOf (spaceOut (code (scanLine false cs).1)))).1 = code (scanLine false cs).1 ↔
      legible .plain (code (scanLine false cs).1) = true := by
  generalize hts : code (scanLine false cs).1 = ts
  have hmem : ∀ t ∈ ts, t ∈ (scanLine false cs).1 ∧ t.kind ≠ .whitespace := by
    intro t ht
    rw [← hts] at ht
    exact ⟨List.mem_of_mem_filter ht, by simpa using (List.mem_filter.1 ht).2⟩
  have hlex : ∀ t ∈ ts, Lexical t := fun t ht => lexical_scanLine false cs t (hmem t ht).1
  constructor
  · intro hread
    apply legible_of_reads .plain ts fun t ht => ⟨hlex t ht, (hmem t ht).2, hcode t (hmem t ht).1⟩
    refine ⟨hread, ?_⟩
    rw [← Bool.not_eq_true]
    intro hopen
    rcases comment_of_open _ _ hopen with hfalse | ⟨t, ht, hk⟩
    · cases hfalse
    · have hback : t ∈ ts := by
        rw [← hread]
        exact List.mem_filter.2 ⟨ht, by simp [hk]⟩
      exact hcode t (hmem t hback).1 hk
  · intro hlegible
    refine (reads_spaceOut .plain ts hlex (fun t ht hnewline => hbreak ?_) hlegible).1
    rw [← scanLine_chars false cs hbreak, charsOf, List.mem_flatMap]
    exact ⟨t, (hmem t ht).1, hnewline⟩

/-- A line with a function of all rows, all columns of a table, quotes, brackets and operators. -/
def lineOfCall : List Char :=
  "count ( * ) , a .* ,'b c' , x in(1 ,- 2)".toList

theorem reread_of_call :
    '\n' ∉ lineOfCall ∧ (∀ t ∈ (scanLine false lineOfCall).1, t.kind ≠ .comment) ∧
      code (scanLine false (charsOf (spaceOut (code (scanLine false lineOfCall).1)))).1 =
        code (scanLine false lineOfCall).1 := by
  have hbreak : '\n' ∉ lineOfCall := by decide +kernel
  have hcode : ∀ t ∈ (scanLine false lineOfCall).1, t.kind ≠ .comment := by decide +kernel
  exact ⟨hbreak, hcode, (reread_iff lineOfCall hbreak hcode).2 (by decide +kernel)⟩

/-- A keyword before a comma is written close to it, and is then read as a name. -/
theorem reread_of_null :
    code (scanLine false "null , a".toList).1 =
        [⟨.keyword, "null", none⟩, ⟨.comma, ",", none⟩, ⟨.identifier, "a", none⟩] ∧
      charsOf (spaceOut (code (scanLine false "null , a".toList).1)) = "null, a".toList ∧
      code (scanLine false "null, a".toList).1 =
        [⟨.identifier, "null", none⟩, ⟨.comma, ",", none⟩, ⟨.identifier, "a", none⟩] := by
  decide +kernel

end SqlStyle.Scan
