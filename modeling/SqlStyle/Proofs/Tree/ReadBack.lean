import SqlStyle.Proofs.Token.Lossless
import SqlStyle.Statement

/-! Reading a statement and writing it down again gives the statement, with every line end written as a
line feed. Scanning keeps the characters of each line; what is left is that the lines of a
text are cut at its line ends, and that the tree of lines is read in the order of the lines. -/
namespace SqlStyle
set_option autoImplicit false

/-! ## Lines of a text -/

namespace Text

/-- The text with each pair of carriage return and line feed written as one line feed. -/
def mergePairs : List Char → List Char
  | [] => []
  | '\r' :: '\n' :: rest => '\n' :: mergePairs rest
  | c :: rest => c :: mergePairs rest

/-- A carriage return written as a line feed. -/
def plainReturn (c : Char) : Char :=
  if c = '\r' then '\n' else c

theorem plainLineEnds_eq_map (cs : List Char) : plainLineEnds cs = (mergePairs cs).map plainReturn := by
  fun_induction plainLineEnds cs with
  | case1 => rfl
  | case2 rest ih =>
    rw [mergePairs, List.map_cons, ih]
    rfl
  | case3 rest hn ih =>
    rw [mergePairs, List.map_cons, ih]
    · rfl
    · intro after _ he
      exact hn after he
  | case4 c rest hp hr ih =>
    have hc : c ≠ '\r' := fun he => hr he
    rw [mergePairs, List.map_cons, ih, plainReturn, if_neg hc]
    intro after he
    exact absurd he hc

theorem lines_ne_nil (cs : List Char) : lines cs ≠ [] := by
  fun_cases lines cs with
  | case5 c rest =>
    unfold consFirst
    split <;> simp
  | _ => simp

theorem intercalate_consFirst (c : Char) (ls : List (List Char)) (h : ls ≠ []) :
    ['\n'].intercalate (consFirst c ls) = c :: ['\n'].intercalate ls := by
  cases ls with
  | nil => exact absurd rfl h
  | cons line ls => rw [consFirst, List.intercalate_cons_cons_left]

theorem intercalate_nil_cons (ls : List (List Char)) (h : ls ≠ []) :
    ['\n'].intercalate ([] :: ls) = '\n' :: ['\n'].intercalate ls := by
  rw [List.intercalate_cons_of_ne_nil h]
  rfl

theorem intercalate_lines (cs : List Char) : ['\n'].intercalate (lines cs) = plainLineEnds cs := by
  fun_induction lines cs with
  | case1 => rfl
  | case2 rest ih => rw [intercalate_nil_cons _ (lines_ne_nil rest), ih, plainLineEnds]
  | case3 rest hn ih =>
    rw [intercalate_nil_cons _ (lines_ne_nil rest), ih, plainLineEnds]
    exact hn
  | case4 rest ih =>
    rw [intercalate_nil_cons _ (lines_ne_nil rest), ih, plainLineEnds] <;> simp
  | case5 c rest hp hr hn ih =>
    rw [intercalate_consFirst c _ (lines_ne_nil rest), ih, plainLineEnds]
    · exact hp
    · exact hr

theorem notMem_consFirst (a c : Char) (ls : List (List Char)) (hc : c ≠ a) (h : ∀ l ∈ ls, a ∉ l) :
    ∀ l ∈ consFirst c ls, a ∉ l := by
  cases ls with
  | nil => simpa [consFirst] using hc.symm
  | cons line ls =>
    intro l hl
    rw [consFirst] at hl
    rcases List.mem_cons.1 hl with rfl | hl
    · exact List.not_mem_cons_of_ne_of_not_mem hc.symm (h line (List.mem_cons_self ..))
    · exact h l (List.mem_cons_of_mem line hl)

theorem lineEnd_notMem_lines (a : Char) (ha : a = '\n' ∨ a = '\r') (cs : List Char) :
    ∀ l ∈ lines cs, a ∉ l := by
  fun_induction lines cs with
  | case1 => simp
  | case5 c rest _ hr hn ih =>
    apply notMem_consFirst a c _ _ ih
    rintro rfl
    rcases ha with rfl | rfl
    · exact hn rfl
    · exact hr rfl
  | _ => simp_all

theorem newline_notMem_lines (cs : List Char) : ∀ l ∈ lines cs, '\n' ∉ l :=
  lineEnd_notMem_lines '\n' (.inl rfl) cs

theorem lines_append (l rest first : List Char) (others : List (List Char)) (hn : '\n' ∉ l)
    (hr : '\r' ∉ l) (h : lines rest = first :: others) : lines (l ++ rest) = (l ++ first) :: others := by
  induction l with
  | nil => exact h
  | cons c l ih =>
    rw [List.mem_cons, not_or] at hn hr
    rw [List.cons_append, lines, ih hn.2 hr.2, consFirst]
    · rfl
    · exact fun _ he => absurd he.symm hr.1
    · exact fun he => hr.1 he.symm
    · exact fun he => hn.1 he.symm

/-- Lines with a line feed between them are the lines of the text that they make. -/
theorem lines_intercalate (ls : List (List Char)) (hne : ls ≠ []) (hn : ∀ l ∈ ls, '\n' ∉ l)
    (hr : ∀ l ∈ ls, '\r' ∉ l) : lines (['\n'].intercalate ls) = ls := by
  induction ls with
  | nil => exact absurd rfl hne
  | cons l ls ih =>
    obtain ⟨hnl, hn⟩ := List.forall_mem_cons.1 hn
    obtain ⟨hrl, hr⟩ := List.forall_mem_cons.1 hr
    cases ls with
    | nil =>
      have hline := lines_append l [] [] [] hnl hrl rfl
      rw [List.append_nil] at hline
      rwa [List.intercalate_singleton]
    | cons next ls =>
      have hnext : next :: ls ≠ [] := List.cons_ne_nil next ls
      have hbreak : lines ('\n' :: ['\n'].intercalate (next :: ls)) = [] :: next :: ls := by
        rw [lines, ih hnext hn hr]
      have hline := lines_append l _ [] _ hnl hrl hbreak
      rw [List.append_nil] at hline
      rwa [List.intercalate_cons_of_ne_nil hnext, List.append_assoc, List.singleton_append]

end Text

/-! ## Scanned lines -/

namespace Scan

theorem chars_scanLines (inComment : Bool) (ls : List (List Char)) (h : ∀ l ∈ ls, '\n' ∉ l) :
    (scanLines inComment ls).map charsOf = ls := by
  induction ls generalizing inComment with
  | nil => rfl
  | cons line ls ih =>
    have hline := scanLine_chars inComment line (h line (List.mem_cons_self ..))
    have hrest := ih (scanLine inComment line).2 fun l hl => h l (List.mem_cons_of_mem line hl)
    rw [scanLines, List.map_cons, hline, hrest]

/-- The words of the tokens of each line of a statement, put together, are the lines of its text. -/
theorem chars_scan (sql : String) : (scan sql).map charsOf = Text.lines sql.toList :=
  chars_scanLines false _ (Text.newline_notMem_lines sql.toList)

theorem lineEnd_notMem_scan (a : Char) (ha : a = '\n' ∨ a = '\r') (sql : String) :
    ∀ t ∈ (scan sql).flatten, a ∉ t.word.toList := by
  intro t ht hmem
  obtain ⟨ts, hts, ht⟩ := List.mem_flatten.1 ht
  have hline : charsOf ts ∈ Text.lines sql.toList := by
    rw [← chars_scan]
    exact List.mem_map_of_mem hts
  exact Text.lineEnd_notMem_lines a ha _ _ hline (List.mem_flatMap.2 ⟨t, ht, hmem⟩)

end Scan

/-! ## Trees of lines -/

theorem Line.toList_text (line : Line) : line.text.toList = Scan.charsOf line.tokens := by
  rw [Line.text, String.toList_join, List.flatMap_map]
  rfl

namespace Tree

theorem forestNodes_cons (t : Tree) (ts : List Tree) :
    forestNodes (t :: ts) = t.nodes ++ forestNodes ts := by
  rw [forestNodes]

theorem toLine_forestNodes_nest (condensed : Bool) (depth : Int) (ls : List Line) :
    (forestNodes (nest condensed depth ls)).map Node.toLine = ls := by
  fun_induction nest condensed depth ls with
  | case1 depth => rfl
  | case2 depth line rest ihBelow ihAfter =>
    rw [forestNodes_cons, nodes, List.map_append, List.map_cons, ihBelow, ihAfter, List.cons_append,
      List.takeWhile_append_dropWhile]

theorem tokens_numbered (lines : List (List Token)) : (numbered lines).map Line.tokens = lines := by
  rw [numbered, List.map_map]
  exact List.zipIdx_map_fst 0 lines

theorem beneath_ofSql (sql : String) :
    (ofSql false sql).beneath.map Node.toLine = numbered (Scan.scan sql) :=
  toLine_forestNodes_nest false 1 _

theorem text_eq (t : Tree) :
    t.text.toList = ['\n'].intercalate ((t.beneath.map Node.toLine).map fun l => Scan.charsOf l.tokens) := by
  rw [text, String.toList_intercalate, List.map_map, List.map_map]
  congr 2
  funext n
  exact Line.toList_text n.toLine

/-- The tree of a statement, written down, is the statement with every pair of carriage return and line
feed, and then every carriage return that is left, written as a line feed. No line loses a character when
it is scanned, in a block comment or outside, and the tree is read in the order of the lines. -/
theorem text_ofSql (sql : String) :
    (ofSql false sql).text =
        String.ofList ((Text.mergePairs sql.toList).map fun c => if c = '\r' then '\n' else c) ∧
      (∀ (inComment : Bool) (line : List Char), '\n' ∉ line →
        ((Scan.scanLine inComment line).1.flatMap fun t => t.word.toList) = line) ∧
      (ofSql false sql).beneath.map Node.toLine = numbered (Scan.scan sql) := by
  refine ⟨?_, Scan.scanLine_chars, beneath_ofSql sql⟩
  have hlines : ((numbered (Scan.scan sql)).map fun l => Scan.charsOf l.tokens) =
      Text.lines sql.toList := by
    rw [← Scan.chars_scan, ← congrArg (List.map Scan.charsOf) (tokens_numbered (Scan.scan sql)),
      List.map_map]
    rfl
  rw [← String.toList_inj, text_eq, beneath_ofSql, hlines, Text.intercalate_lines,
    Text.plainLineEnds_eq_map, String.toList_ofList]
  rfl

end Tree
end SqlStyle
