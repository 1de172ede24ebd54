import SqlStyle.Proofs.Token.Lexical
import SqlStyle.Proofs.Tree.ReadBack

/-! Whitespace takes all the blanks that stand in one place: each step of scanning ends it where no blank follows
(`complete_step`), so on a line no blank follows a token of whitespace (`complete_scanLine`), and the token behind it is
no whitespace (`Complete.apart`). -/
namespace SqlStyle.Scan
set_option autoImplicit false
open Text

/-! ## Whitespace that is complete -/

/-- No blank follows whitespace, in the tokens themselves or in the text `rest` behind them. -/
def Complete (rest : List Char) : List Token → Prop
  | [] => True
  | t :: ts =>
    (t.kind = .whitespace → ∀ c ∈ (charsOf ts ++ rest).head?, isBlank c = false) ∧ Complete rest ts

theorem complete_append (rest : List Char) (ts us : List Token) :
    Complete rest (ts ++ us) ↔ Complete (charsOf us ++ rest) ts ∧ Complete rest us := by
  induction ts with
  | nil => simp [Complete]
  | cons t ts ih => rw [List.cons_append, Complete, Complete, ih, charsOf_append, List.append_assoc, and_assoc]

theorem complete_of_code (rest : List Char) (ts : List Token) (h : ∀ t ∈ ts, t.kind ≠ .whitespace) :
    Complete rest ts := by
  induction ts with
  | nil => exact trivial
  | cons t ts ih =>
    obtain ⟨ht, hts⟩ := List.forall_mem_cons.1 h
    exact ⟨fun hkind => absurd hkind ht, ih hts⟩

theorem complete_piece (rest : List Char) {kind : Kind} (hkind : kind ≠ .whitespace) (cs : List Char) :
    Complete rest (piece kind cs) :=
  complete_of_code rest _ fun t ht => by rwa [kind_of_piece t ht]

theorem complete_blanks (cs : List Char) :
    Complete (cs.dropWhile isBlank) (piece .whitespace (cs.takeWhile isBlank)) := by
  cases cs.takeWhile isBlank with
  | nil => exact trivial
  | cons b bs => exact ⟨fun _ => notBlank_dropWhile cs, trivial⟩

theorem Complete.apart {rest : List Char} {front after : List Token} {t u : Token}
    (h : Complete rest (front ++ t :: u :: after)) (hu : Lexical u) (ht : t.kind = .whitespace) :
    u.kind ≠ .whitespace := by
  intro hkind
  have hfits := hu.2
  rw [hkind] at hfits
  obtain ⟨c, cs, hword⟩ := List.exists_cons_of_ne_nil hfits.1
  have hblank := hfits.2 c (hword ▸ List.mem_cons_self)
  have hnext := ((complete_append _ _ _).1 h).2.1 ht c (by rw [charsOf_cons, hword]; rfl)
  rw [hnext] at hblank
  cases hblank

/-! ## Steps -/

theorem complete_spaced (ts : List Token) (rest : List Char) (hts : ∀ t ∈ ts, t.kind ≠ .whitespace) :
    Complete (spaced ts rest).rest (spaced ts rest).tokens :=
  (complete_append _ _ _).2 ⟨complete_of_code _ ts hts, complete_blanks rest⟩

theorem complete_after (ts : List Token) {s : Step} {cs : List Char} (hcovers : s.Covers cs) (hts : Complete cs ts)
    (hs : Complete s.rest s.tokens) : Complete (s.after ts).rest (s.after ts).tokens := by
  rw [Step.after, complete_append, hcovers]
  exact ⟨hts, hs⟩

theorem complete_opening (rest : List Char) : Complete (opening rest).rest (opening rest).tokens := by
  have hbracket : Complete (rest.dropWhile isBlank) (⟨.leftBracket, "(", none⟩ ::
      piece .whitespace (rest.takeWhile isBlank)) := complete_spaced [⟨.leftBracket, "(", none⟩] rest (by simp)
  unfold opening
  simp only
  split
  · next after hinner =>
    rw [hinner] at hbracket
    exact (complete_append _ _ _).2 ⟨hbracket, complete_of_code _ _ (by simp)⟩
  · exact hbracket

theorem complete_keywordStep (run rest : List Char) :
    Complete (keywordStep run rest).rest (keywordStep run rest).tokens := by
  unfold keywordStep
  split
  · exact complete_after _ (opening_covers _) (complete_piece _ (by decide) _) (complete_opening _)
  · exact complete_after _ (spaced_covers [] _) (complete_piece _ (by decide) _) (complete_spaced [] _ (by simp))

theorem complete_nameStep (c : Char) (cs : List Char) : Complete (nameStep c cs).rest (nameStep c cs).tokens := by
  have hpiece {kind : Kind} (hkind : kind ≠ .whitespace) (word rest : List Char) :
      Complete (spaced (piece kind word) rest).rest (spaced (piece kind word) rest).tokens :=
    complete_spaced _ _ fun t ht => by rwa [kind_of_piece t ht]
  unfold nameStep
  split
  · exact hpiece (by decide) _ _
  · split <;> exact hpiece (by decide) _ _

theorem complete_wordStep (c : Char) (cs : List Char) : Complete (wordStep c cs).rest (wordStep c cs).tokens := by
  rcases wordStep_cases c cs with ⟨-, hword⟩ | ⟨-, -, after, hafter, hword⟩ | ⟨-, -, hword⟩ <;> rw [hword]
  · exact complete_keywordStep _ _
  · refine complete_after _ (opening_covers after) ?_ (complete_opening after)
    rw [complete_append, ← hafter]
    exact ⟨complete_piece _ (by decide) _, complete_blanks _⟩
  · exact complete_nameStep c cs

theorem complete_lineComment (cs : List Char) : Complete (lineComment cs).rest (lineComment cs).tokens :=
  complete_piece _ (by decide) _

theorem Lexeme.complete {cs : List Char} {s : Step} (h : Lexeme cs s) : Complete s.rest s.tokens := by
  cases h with
  | nothing => exact trivial
  | blockComment => exact complete_of_code _ _ (by simp)
  | lineComment => exact complete_lineComment _
  | mark kind c rest hmark =>
    apply complete_spaced
    intro t ht
    rw [kind_of_piece t ht]
    rintro rfl
    simp at hmark
  | star rest => exact complete_spaced _ _ (by simp)
  | word c rest => exact complete_wordStep c rest

theorem complete_step (inComment : Bool) (cs : List Char) :
    Complete (step inComment cs).rest (step inComment cs).tokens := by
  unfold step
  split
  · unfold commentStep
    split
    · exact (complete_append _ _ _).2 ⟨complete_piece _ (by decide) _, complete_of_code _ _ (by simp)⟩
    · exact complete_piece _ (by decide) _
  · exact complete_after _ (lexeme_cases _).covers (complete_blanks cs) (lexeme_cases _).complete

/-! ## Lines -/

theorem complete_scanLine (inComment : Bool) (cs : List Char) (h : '\n' ∉ cs) :
    Complete [] (scanLine inComment cs).1 := by
  fun_induction scanLine inComment cs with
  | case1 inComment => exact trivial
  | case2 inComment c cs s ts isOpen hrest ih =>
    have hnewline : '\n' ∉ s.rest := fun hmem =>
      h (step_covers inComment (c :: cs) h ▸ List.mem_append_right _ hmem)
    have hchars := scanLine_chars s.inComment s.rest hnewline
    have hnext := ih hnewline
    rw [hrest] at hchars hnext
    rw [complete_append, List.append_nil, hchars]
    exact ⟨complete_step inComment (c :: cs), hnext⟩

theorem complete_scanLines (inComment : Bool) (ls : List (List Char)) (h : ∀ l ∈ ls, '\n' ∉ l) :
    ∀ ts ∈ scanLines inComment ls, Complete [] ts := by
  induction ls generalizing inComment with
  | nil => exact List.forall_mem_nil _
  | cons line ls ih =>
    obtain ⟨hline, hls⟩ := List.forall_mem_cons.1 h
    exact List.forall_mem_cons.2 ⟨complete_scanLine inComment line hline, ih _ hls⟩

theorem complete_scan (sql : String) : ∀ ts ∈ scan sql, Complete [] ts :=
  complete_scanLines false _ (newline_notMem_lines sql.toList)

end SqlStyle.Scan
