import SqlStyle.Proofs.Lint.Scripts
import SqlStyle.Proofs.Token.Blanks
import SqlStyle.Proofs.Token.Comments

/-! Blanks and indents. Outside comments, the blanks of a line are in its tokens of whitespace and nowhere else, and each of
these takes all the blanks that stand in its place. So a line that begins outside comments is indented by the blanks it
begins with. A line that begins in a block comment begins with a comment, and is not indented (`indent_scanLine`,
`indent_ofSql`). -/
namespace SqlStyle
set_option autoImplicit false
open Text

theorem Line.indent_of_head {line : Line} (h : ∀ t ∈ line.tokens.head?, t.kind ≠ .whitespace) : line.indent = 0 := by
  unfold Line.indent
  split
  · next t ts hts =>
    rw [hts] at h
    exact if_neg (h t rfl)
  · rfl

namespace Scan

/-! ## The first token of a line -/

theorem kind_head_comment (cs : List Char) : ∀ t ∈ (scanLine true cs).1.head?, t.kind = .comment := by
  cases cs with
  | nil => simp [scanLine_nil]
  | cons c cs =>
    have hstep : (step true (c :: cs)).tokens ≠ [] ∧ ∀ t ∈ (step true (c :: cs)).tokens, t.kind = .comment := by
      rw [step, if_pos rfl, commentStep]
      split
      · exact ⟨by simp, List.forall_mem_append.2 ⟨kind_of_piece, by simp⟩⟩
      · exact ⟨List.cons_ne_nil _ _, by simp [piece]⟩
    rw [scanLine_cons, List.head?_append_of_ne_nil _ hstep.1]
    exact fun t ht => hstep.2 t (List.mem_of_mem_head? ht)

theorem kind_head_code (cs : List Char) (hbreak : '\n' ∉ cs) (hfirst : ∀ c ∈ cs.head?, isBlank c = false) :
    ∀ t ∈ (scanLine false cs).1.head?, t.kind ≠ .whitespace := by
  intro t ht hkind
  obtain ⟨ts, hts⟩ := List.head?_eq_some_iff.1 (Option.mem_def.1 ht)
  have hfits := (lexical_scanLine false cs t (List.mem_of_mem_head? ht)).2
  rw [hkind] at hfits
  obtain ⟨c, word, hword⟩ := List.exists_cons_of_ne_nil hfits.1
  have hblank := hfits.2 c (hword ▸ List.mem_cons_self)
  have hchars := scanLine_chars false cs hbreak
  rw [hts, charsOf_cons, hword] at hchars
  rw [hfirst c (by rw [← hchars]; rfl)] at hblank
  cases hblank

/-- The indent of a line is the number of blanks that it begins with, unless it begins in a block comment. -/
theorem indent_scanLine (inComment : Bool) (number : Nat) (cs : List Char) (hbreak : '\n' ∉ cs) :
    (⟨number, (scanLine inComment cs).1⟩ : Line).indent =
      if inComment then 0 else (cs.takeWhile isBlank).length := by
  cases inComment with
  | true =>
    apply Line.indent_of_head
    intro t ht
    rw [kind_head_comment cs t ht]
    decide
  | false =>
    have hrest : '\n' ∉ cs.dropWhile isBlank := fun hmem => hbreak ((List.dropWhile_suffix isBlank).subset hmem)
    rw [if_neg Bool.false_ne_true, scanLine_blanks]
    cases cs.takeWhile isBlank with
    | nil => exact Line.indent_of_head (kind_head_code _ hrest (notBlank_dropWhile cs))
    | cons b bs => exact String.length_ofList

theorem getElem?_scan {sql : String} {front back : List (List Char)} {line : List Char}
    (h : lines sql.toList = front ++ line :: back) :
    (scan sql)[front.length]? = some (scanLine (isOpenAfter false front) line).1 := by
  have hfront : ∀ l ∈ front, '\n' ∉ l := fun l hl =>
    newline_notMem_lines sql.toList l (h ▸ List.mem_append_left _ hl)
  have hlength := congrArg List.length (chars_scanLines false front hfront)
  rw [List.length_map] at hlength
  rw [scan, h, scanLines_append, ← hlength, List.getElem?_append_right (Nat.le_refl _), Nat.sub_self]
  rfl

end Scan

namespace Tree
open Scan

/-- In every line of a statement the whitespace holds blanks only, no other token but a comment holds a blank, and no
whitespace stands behind whitespace. So a line is indented by the number of blanks it begins with, if it does not
begin in a block comment, and else not at all. -/
theorem indent_ofSql (sql : String) :
    (∀ ts ∈ scan sql,
      (∀ t ∈ ts, t.kind = .whitespace → ∀ c ∈ t.word.toList, isBlank c = true) ∧
      (∀ t ∈ ts, t.kind ≠ .whitespace → t.kind ≠ .comment → ∀ c ∈ t.word.toList, isBlank c = false) ∧
      ∀ front t u back, ts = front ++ t :: u :: back → t.kind = .whitespace → u.kind ≠ .whitespace) ∧
    ∀ front line back, lines sql.toList = front ++ line :: back →
      ∃ n, (ofSql false sql).beneath[front.length]? = some n ∧ n.number = front.length + 1 ∧
        n.text = String.ofList line ∧
        n.indent = if isOpenAfter false front then 0 else (line.takeWhile isBlank).length := by
  constructor
  · intro ts hts
    have hlexical : ∀ t ∈ ts, Lexical t := fun t ht => lexical_scan sql t (List.mem_flatten.2 ⟨ts, hts, ht⟩)
    refine ⟨fun t ht hkind => ?_, fun t ht hspace hcomment => ?_, fun front t u back hparts hkind => ?_⟩
    · have hfits := (hlexical t ht).2
      rw [hkind] at hfits
      exact hfits.2
    · exact IsCode.notBlank ⟨hlexical t ht, hspace, hcomment⟩
    · have hcomplete := complete_scan sql ts hts
      rw [hparts] at hcomplete
      exact hcomplete.apart (hlexical u (by simp [hparts])) hkind
  · intro front line back hlines
    have hbreak : '\n' ∉ line := newline_notMem_lines sql.toList line (by simp [hlines])
    have hnode : ((ofSql false sql).beneath.map Node.toLine)[front.length]? =
        some ⟨front.length + 1, (scanLine (isOpenAfter false front) line).1⟩ := by
      rw [beneath_ofSql, Lint.getElem?_numbered, getElem?_scan hlines]
      rfl
    rw [List.getElem?_map, Option.map_eq_some_iff] at hnode
    obtain ⟨n, hn, hline⟩ := hnode
    refine ⟨n, hn, ?_, ?_, ?_⟩
    · rw [hline]
    · rw [← String.toList_inj, Line.toList_text, hline, scanLine_chars _ _ hbreak, String.toList_ofList]
    · rw [hline]
      exact indent_scanLine _ _ line hbreak

/-- Three lines, of which the second begins in a comment and the third with a tab. -/
def linesWithComment : List (List Char) :=
  ["  a /*".toList, "  b */ c".toList, "\t , d".toList]

def scriptWithComment : String :=
  "  a /*\n  b */ c\n\t , d"

theorem indent_ofSql_of_comment :
    lines scriptWithComment.toList = linesWithComment ∧
      isOpenAfter false (linesWithComment.take 1) = true ∧ isOpenAfter false (linesWithComment.take 2) = false ∧
      (∃ n, (ofSql false scriptWithComment).beneath[1]? = some n ∧ n.indent = 0) ∧
      (∃ n, (ofSql false scriptWithComment).beneath[2]? = some n ∧ n.indent = 2) ∧
      [⟨.whitespace, "\t ", none⟩, ⟨.comma, ",", none⟩, ⟨.whitespace, " ", none⟩, ⟨.identifier, "d", none⟩] ∈
        scan scriptWithComment ∧
      (∀ c ∈ "\t ".toList, isBlank c = true) ∧ ∀ c ∈ "d".toList, isBlank c = false := by
  have hlines : lines scriptWithComment.toList = linesWithComment := by decide +kernel
  have hopen : isOpenAfter false (linesWithComment.take 1) = true := by decide +kernel
  have hclosed : isOpenAfter false (linesWithComment.take 2) = false := by decide +kernel
  have hthird : [⟨.whitespace, "\t ", none⟩, ⟨.comma, ",", none⟩, ⟨.whitespace, " ", none⟩,
      ⟨.identifier, "d", none⟩] ∈ scan scriptWithComment := by decide +kernel
  obtain ⟨htokens, hindent⟩ := indent_ofSql scriptWithComment
  obtain ⟨n, hn, -, -, hnone⟩ := hindent (linesWithComment.take 1) _ (linesWithComment.drop 2) hlines
  obtain ⟨m, hm, -, -, htwo⟩ := hindent (linesWithComment.take 2) _ [] hlines
  rw [hopen] at hnone
  rw [hclosed] at htwo
  obtain ⟨hblank, hcode, -⟩ := htokens _ hthird
  exact ⟨hlines, hopen, hclosed, ⟨n, hn, hnone⟩, ⟨m, hm, htwo⟩, hthird, hblank _ List.mem_cons_self rfl,
    hcode ⟨.identifier, "d", none⟩ (by simp) (by decide) (by decide)⟩

end Tree
end SqlStyle
