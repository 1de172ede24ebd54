import SqlStyle.Proofs.Token.Lexical

/-! Scanning comes to an end and leaves no text unknown. Outside block comments a turn tries one reader after the other,
then takes the blanks alone, and calls what is left unknown. Blanks alone fit every text, even where there are none, and
a turn that takes none would be made again and again. It is never made: each character is a blank or fits one of the readers
before (`isIdentifier_of_beginsWord`), so blanks are taken alone only if nothing else is left (`findSome?_readers_eq_none_iff`).
So each turn takes a part of the text (`exists_read`), there are no more turns than characters (`Turns.length_le`),
and the turns make the tokens of the line (`turns_scanLine`). -/
namespace SqlStyle.Scan
set_option autoImplicit false
open Text

/-! ## Readers -/

/-- What a reader takes from the beginning of a text, if it fits. -/
abbrev Reader := List Char → Option Step

namespace Reader

def blockComment : Reader
  | '/' :: '*' :: rest => some ⟨[⟨.comment, "/*", none⟩], rest, true⟩
  | _ => none

def lineComment : Reader
  | '-' :: '-' :: rest => some (Scan.lineComment ('-' :: '-' :: rest))
  | '#' :: rest => some (Scan.lineComment ('#' :: rest))
  | _ => none

/-- A single character with a kind of its own. -/
def mark (kind : Kind) (c : Char) : Reader
  | [] => none
  | d :: rest => if d = c then some (spaced (piece kind [c]) rest) else none

/-- A dot, with the star behind it. -/
def dot : Reader
  | '.' :: '*' :: rest => some (spaced [⟨.dot, ".", none⟩, ⟨.keyword, "*", none⟩] rest)
  | '.' :: rest => some (spaced [⟨.dot, ".", none⟩] rest)
  | _ => none

/-- A reserved word of a table, with what follows it. -/
def reserved (table : List String) (follow : List Char → List Char → Option Step) : Reader := fun cs =>
  (Reserved.readings table cs).findSome? fun r => follow r.1 r.2

/-- One or more characters with the property `p`. -/
def run (kind : Kind) (p : Char → Bool) : Reader
  | [] => none
  | c :: cs =>
    if p c then some (spaced (piece kind (c :: cs.takeWhile p)) (cs.dropWhile p)) else none

def quoted : Reader
  | [] => none
  | c :: cs =>
    if isQuote c then (untilLast c cs).map fun r => spaced (piece .identifier (c :: r.1 ++ [c])) r.2
    else none

/-- Nothing; with the blanks before it, the blanks alone. -/
def nothing : Reader := fun cs =>
  some ⟨[], cs, false⟩

def behindBlanks (read : Reader) : Reader := fun cs =>
  (read (cs.dropWhile isBlank)).map (Step.after (piece .whitespace (cs.takeWhile isBlank)))

end Reader

def readers : List Reader := [
  Reader.blockComment, Reader.lineComment,
  Reader.mark .comma ',', Reader.dot, Reader.mark .leftBracket '(', Reader.mark .rightBracket ')',
  Reader.reserved Reserved.keywords keywordStep?, Reader.reserved Reserved.functions functionStep,
  Reader.run .operator isOperator, Reader.quoted, Reader.run .identifier isIdentifier]

/-- What the first reader that fits takes, where blanks alone come last. -/
def reading (cs : List Char) : Option Step :=
  (readers ++ [Reader.nothing]).findSome? fun read => read.behindBlanks cs

/-- One turn: in a block comment its end is looked for, and outside of one the readers are tried. A text that none
of them fits is unknown. -/
def turn (inComment : Bool) (cs : List Char) : Step :=
  if inComment then commentStep cs else (reading cs).getD ⟨piece .unknown cs, [], false⟩

/-- From the first state the second is reached in `n` turns. A turn is made as long as there is text. -/
inductive Turns : Nat → Step → Step → Prop
  | done (s : Step) : Turns 0 s s
  | next {n : Nat} {s d : Step} (htext : s.rest ≠ [])
      (h : Turns n ((turn s.inComment s.rest).after s.tokens) d) : Turns (n + 1) s d

/-! ## Some reader fits -/

theorem findSome?_name (c : Char) (cs : List Char) (hc : BeginsWord c) :
    [Reader.run .operator isOperator, Reader.quoted, Reader.run .identifier isIdentifier].findSome?
      (fun read => read (c :: cs)) = some (nameStep c cs) := by
  rw [nameStep]
  cases ho : isOperator c with
  | true => simp [Reader.run, ho]
  | false =>
    have hname : isIdentifier c = true := isIdentifier_of_beginsWord hc ho
    cases hq : isQuote c with
    | false => simp [Reader.run, Reader.quoted, ho, hq, hname]
    | true => cases hlast : untilLast c cs <;> simp [Reader.run, Reader.quoted, ho, hq, hname, hlast]

/-- At a word the readers for marks do not fit, and the others are tried as the scanner tries them. -/
theorem findSome?_word (c : Char) (cs : List Char) (hc : BeginsWord c) (hblock : ¬ ['/', '*'] <+: c :: cs)
    (hline : ¬ ['-', '-'] <+: c :: cs) : readers.findSome? (fun read => read (c :: cs)) = some (wordStep c cs) := by
  have hmarks := hc.2
  simp only [List.mem_cons, List.not_mem_nil, or_false, not_or] at hmarks
  obtain ⟨hcomma, hleft, hright, hhash, hdot⟩ := hmarks
  have hnoBlock : Reader.blockComment (c :: cs) = none := by
    unfold Reader.blockComment
    split
    · next rest he => exact absurd ⟨rest, he.symm⟩ hblock
    · rfl
  have hnoLine : Reader.lineComment (c :: cs) = none := by
    unfold Reader.lineComment
    split
    · next rest he => exact absurd ⟨rest, he.symm⟩ hline
    · next he => exact absurd (List.cons.inj he).1 hhash
    · rfl
  have hnoDot : Reader.dot (c :: cs) = none := by
    unfold Reader.dot
    split
    · next he => exact absurd (List.cons.inj he).1 hdot
    · next he => exact absurd (List.cons.inj he).1 hdot
    · rfl
  have hname := findSome?_name c cs hc
  rw [wordStep]
  simp only [readers, List.findSome?_cons, hnoBlock, hnoLine, hnoDot, Reader.mark, if_neg hcomma, if_neg hleft,
    if_neg hright, Reader.reserved] at hname ⊢
  cases hkeyword : (Reserved.readings Reserved.keywords (c :: cs)).findSome? fun r => keywordStep? r.1 r.2 with
  | some step => rfl
  | none =>
    cases hfunction : (Reserved.readings Reserved.functions (c :: cs)).findSome? fun r => functionStep r.1 r.2 with
    | some step => rfl
    | none => exact hname

theorem findSome?_readers_nil : readers.findSome? (fun read => read []) = none := by
  have hreserved {table : List String} (htable : table ⊆ Reserved.keywords ++ Reserved.functions)
      (follow : List Char → List Char → Option Step) : Reader.reserved table follow [] = none := by
    rw [Reader.reserved, List.findSome?_eq_none_iff]
    intro r hr
    have hlt := Reserved.length_lt_of_mem_readings table htable [] r.1 r.2 hr
    rw [List.length_nil] at hlt
    omega
  simp [readers, Reader.blockComment, Reader.lineComment, Reader.mark, Reader.dot, Reader.run, Reader.quoted,
    hreserved (List.subset_append_left _ _), hreserved (List.subset_append_right _ _)]

/-- At a character that is no blank some reader fits, and the first one that does is the one that the scanner takes. -/
theorem Lexeme.findSome?_readers {c : Char} {cs : List Char} {s : Step} (h : Lexeme (c :: cs) s)
    (hc : isBlank c = false) : readers.findSome? (fun read => read (c :: cs)) = some s := by
  cases h with
  | blockComment => rfl
  | lineComment _ _ hfirst => rcases hfirst with rfl | ⟨rfl, rest, rfl⟩ <;> rfl
  | mark kind _ _ hmark hstar =>
    have hdot (h : c = '.') : Reader.dot (c :: cs) = some (spaced [⟨.dot, ".", none⟩] cs) := by
      subst h
      unfold Reader.dot
      split
      · next after he => exact absurd ⟨after, (List.cons.inj he).2.symm⟩ (hstar rfl)
      · next after he => rw [(List.cons.inj he).2]
      · next hnone => exact absurd rfl (hnone cs)
    simp only [List.mem_cons, List.not_mem_nil, or_false, Prod.mk.injEq] at hmark
    rcases hmark with ⟨rfl, rfl⟩ | ⟨rfl, rfl⟩ | ⟨rfl, rfl⟩ | ⟨rfl, rfl⟩
    · rfl
    · simp [readers, Reader.blockComment, Reader.lineComment, Reader.mark, hdot rfl]
      rfl
    · rfl
    · rfl
  | star => rfl
  | word _ _ hmark hblock hline => exact findSome?_word c cs ⟨hc, hmark⟩ hblock hline

/-! ## Turns -/

theorem findSome?_behindBlanks (cs : List Char) :
    readers.findSome? (fun read => read.behindBlanks cs) =
      (readers.findSome? fun read => read (cs.dropWhile isBlank)).map
        (Step.after (piece .whitespace (cs.takeWhile isBlank))) :=
  (List.map_findSome? ..).symm

theorem findSome?_readers_eq_none_iff (cs : List Char) :
    readers.findSome? (fun read => read.behindBlanks cs) = none ↔ ∀ c ∈ cs, isBlank c = true := by
  rw [findSome?_behindBlanks, Option.map_eq_none_iff, ← List.dropWhile_eq_nil_iff]
  have hstop := notBlank_dropWhile cs
  cases hrest : cs.dropWhile isBlank with
  | nil => exact iff_of_true findSome?_readers_nil rfl
  | cons c rest =>
    rw [hrest] at hstop
    rw [(lexeme_cases (c :: rest)).findSome?_readers (hstop c rfl)]
    exact iff_of_false (Option.some_ne_none _) (List.cons_ne_nil c rest)

theorem reading_eq (cs : List Char) : reading cs = some (step false cs) := by
  have hstop := notBlank_dropWhile cs
  rw [reading, List.findSome?_append, findSome?_behindBlanks, step, if_neg Bool.false_ne_true]
  cases hrest : cs.dropWhile isBlank with
  | nil =>
    rw [findSome?_readers_nil]
    simp [Reader.behindBlanks, Reader.nothing, hrest, lexeme]
  | cons c rest =>
    rw [hrest] at hstop
    rw [(lexeme_cases (c :: rest)).findSome?_readers (hstop c rfl)]
    rfl

/-- A turn is a step of the scanner. -/
theorem turn_eq_step (inComment : Bool) (cs : List Char) : turn inComment cs = step inComment cs := by
  cases inComment with
  | true => rfl
  | false => rw [turn, if_neg Bool.false_ne_true, reading_eq, Option.getD_some]

theorem rest_commentStep_suffix (cs : List Char) : (commentStep cs).rest <:+ cs := by
  unfold commentStep
  split
  · next body rest hclose =>
    have hcs := untilClose_eq cs body rest hclose
    exact ⟨body ++ ['*', '/'], by rw [List.append_assoc]; exact hcs⟩
  · exact List.nil_suffix

theorem exists_read (inComment : Bool) (cs : List Char) (h : cs ≠ []) :
    ∃ read, read ≠ [] ∧ read ++ (turn inComment cs).rest = cs := by
  rw [turn_eq_step]
  have hsuffix : (step inComment cs).rest <:+ cs := by
    cases inComment with
    | true => exact rest_commentStep_suffix cs
    | false =>
      have hcovers := (lexeme_cases (cs.dropWhile isBlank)).covers
      exact List.IsSuffix.trans ⟨_, hcovers⟩ (List.dropWhile_suffix isBlank)
  obtain ⟨read, hread⟩ := hsuffix
  refine ⟨read, ?_, hread⟩
  rintro rfl
  obtain ⟨c, rest, rfl⟩ := List.exists_cons_of_ne_nil h
  have hlt := rest_step_lt inComment c rest
  rw [List.nil_append] at hread
  rw [hread] at hlt
  exact Nat.lt_irrefl _ hlt

/-- There are no more turns than characters. -/
theorem Turns.length_le {n : Nat} {s d : Step} (h : Turns n s d) : n + d.rest.length ≤ s.rest.length := by
  induction h with
  | done s => exact Nat.le_of_eq (Nat.zero_add _)
  | @next n s d htext _ ih =>
    obtain ⟨read, hne, hread⟩ := exists_read s.inComment s.rest htext
    have hlength := congrArg List.length hread
    have hpos := List.length_pos_iff.2 hne
    rw [List.length_append] at hlength
    have hrest : ((turn s.inComment s.rest).after s.tokens).rest = (turn s.inComment s.rest).rest := rfl
    rw [hrest] at ih
    omega

/-- The turns make the tokens of the line behind those that are there. -/
theorem turns_scanLine (inComment : Bool) (cs : List Char) (ts : List Token) :
    ∃ n, Turns n ⟨ts, cs, inComment⟩ ⟨ts ++ (scanLine inComment cs).1, [], (scanLine inComment cs).2⟩ := by
  fun_induction scanLine inComment cs generalizing ts with
  | case1 inComment =>
    rw [List.append_nil]
    exact ⟨0, .done _⟩
  | case2 inComment c cs s us isOpen hrest ih =>
    obtain ⟨n, hn⟩ := ih (ts ++ s.tokens)
    rw [hrest, List.append_assoc] at hn
    refine ⟨n + 1, .next (List.cons_ne_nil c cs) ?_⟩
    rw [turn_eq_step]
    exact hn

/-- Any text, with line ends in it or without, in a block comment or outside, is scanned in finitely many turns. Each of
them takes a part of the text, so there are no more turns than characters. Blanks are taken alone only where nothing but
blanks is left, and nothing is ever left unknown. No token is empty or of unknown kind, and a comma, a dot and the
brackets are written as such. -/
theorem scanLine_turns (inComment : Bool) (cs : List Char) :
    (∀ (inside : Bool) (text : List Char), text ≠ [] →
      turn inside text = step inside text ∧ ∃ read, read ≠ [] ∧ read ++ (turn inside text).rest = text) ∧
    (∀ n s, Turns n ⟨[], cs, inComment⟩ s → n + s.rest.length ≤ cs.length) ∧
    (∃ n, Turns n ⟨[], cs, inComment⟩ ⟨(scanLine inComment cs).1, [], (scanLine inComment cs).2⟩) ∧
    (∀ text, reading text ≠ none ∧
      (readers.findSome? (fun read => read.behindBlanks text) = none ↔ ∀ c ∈ text, isBlank c = true)) ∧
    ∀ t ∈ (scanLine inComment cs).1, t.word ≠ "" ∧ t.kind ≠ .unknown ∧
      (t.kind = .comma → t.word = ",") ∧ (t.kind = .dot → t.word = ".") ∧
      (t.kind = .leftBracket → t.word = "(") ∧ (t.kind = .rightBracket → t.word = ")") := by
  refine ⟨fun inside text htext => ⟨turn_eq_step inside text, exists_read inside text htext⟩,
    fun n s h => h.length_le, turns_scanLine inComment cs [], fun text => ⟨?_, findSome?_readers_eq_none_iff text⟩, ?_⟩
  · rw [reading_eq]
    exact Option.some_ne_none _
  · intro t ht
    have hlexical := lexical_scanLine inComment cs t ht
    have hknown : t.kind ≠ .unknown := by
      intro hkind
      have hfits := hlexical.2
      rw [hkind] at hfits
      exact hfits
    exact ⟨hlexical.word_ne, hknown, fun hkind => hlexical.word_of_kind hkind fun _ hfits => hfits,
      fun hkind => hlexical.word_of_kind hkind fun _ hfits => hfits, hlexical.word_of_leftBracket,
      hlexical.word_of_rightBracket⟩

/-- The end of a block comment on the second of three lines, and code behind it. -/
def commentAndCode : List Char :=
  "a\n*/ ,x.*(\n)".toList

def tokensOfCode : List Token :=
  [⟨.comment, "*/", none⟩, ⟨.whitespace, " ", none⟩, ⟨.comma, ",", none⟩, ⟨.identifier, "x", none⟩,
    ⟨.dot, ".", none⟩, ⟨.keyword, "*", none⟩, ⟨.leftBracket, "(", none⟩, ⟨.whitespace, "\n", none⟩,
    ⟨.rightBracket, ")", none⟩]

/-- The first line of the comment is taken and makes no token. -/
theorem scanLine_turns_of_comment :
    scanLine true commentAndCode = (tokensOfCode, false) ∧
      (∃ n ≤ 12, Turns n ⟨[], commentAndCode, true⟩ ⟨tokensOfCode, [], false⟩) ∧
      (∃ read, read ≠ [] ∧ read ++ (turn true commentAndCode).rest = commentAndCode) ∧
      ∀ t ∈ tokensOfCode, t.word ≠ "" ∧ t.kind ≠ .unknown := by
  have hscan : scanLine true commentAndCode = (tokensOfCode, false) := by decide +kernel
  obtain ⟨hturn, hbound, ⟨n, hn⟩, -, htokens⟩ := scanLine_turns true commentAndCode
  rw [hscan] at hn htokens
  refine ⟨hscan, ⟨n, ?_, hn⟩, (hturn true commentAndCode (by decide +kernel)).2, fun t ht => ?_⟩
  · have hlength : commentAndCode.length = 12 := by decide +kernel
    exact hlength ▸ hbound n _ hn
  · exact ⟨(htokens t ht).1, (htokens t ht).2.1⟩

end SqlStyle.Scan
