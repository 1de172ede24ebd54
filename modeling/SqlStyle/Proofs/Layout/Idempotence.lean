import SqlStyle.Proofs.Layout.FullJoins
import SqlStyle.Proofs.Token.Legible

/-! The layout of a layout. A layout is written down and laid out again. Its lines are read as they are if they
are legible, so that the second layout starts from the tokens of the first (`code_scan_text`). If these are
the tokens of the statement, in order and with the reserved words in the style, or these with the joins in full,
the second layout is the first (`format_ofSql_text`). This is not so of every layout: a comma that is to end a line may land among
the tokens of that line. -/
namespace SqlStyle.Layout
set_option autoImplicit false
open Scan SqlStyle.Tree
open Token (code)

/-! ## The lines of a layout -/

theorem code_of_bare {n : Node} (h : Bare n) : code n.tokens = n.tokens := by
  rw [code, List.filter_eq_self]
  intro t ht
  simpa using h.2 t ht

theorem charsOf_spacedLine (steps : Nat) (n : Node) (h : Bare n) :
    code (spacedLine (indentedLine steps n)).tokens = n.tokens ∧
      ∃ k, charsOf (spacedLine (indentedLine steps n)).tokens =
        List.replicate k ' ' ++ charsOf (spaceOut n.tokens) := by
  refine ⟨?_, ?_⟩
  · show code (spaceOut (indentLine steps n).value.tokens) = n.tokens
    rw [code_spaceOut, code_indentLine, code_of_bare h]
  · obtain ⟨t, ts, hts⟩ := List.exists_cons_of_ne_nil h.1
    have ht : t.kind ≠ .whitespace := h.2 t (by rw [hts]; exact List.mem_cons_self)
    unfold spacedLine indentedLine indentLine withTokens
    simp only [hts, if_neg ht]
    split
    · refine ⟨steps * (n.depth - 1).toNat, ?_⟩
      simp [spaceOut, gap, isTight, margin, blanks]
    · exact ⟨0, by simp [hts]⟩

theorem reads_spacedLine (steps : Nat) (n : Node) (h : Bare n) (hlex : ∀ t ∈ n.tokens, Lexical t)
    (hbreak : ∀ t ∈ n.tokens, '\n' ∉ t.word.toList) (hlegible : legible .plain n.tokens = true) :
    Reads (charsOf (spacedLine (indentedLine steps n)).tokens) n.tokens := by
  obtain ⟨-, k, hchars⟩ := charsOf_spacedLine steps n h
  rw [hchars, reads_blanks]
  · exact reads_spaceOut .plain n.tokens hlex hbreak hlegible
  · intro b hb
    rw [List.eq_of_mem_replicate hb]
    rfl

theorem notMem_spacedLine (steps : Nat) (n : Node) (h : Bare n) (a : Char) (ha : a ≠ ' ')
    (hwords : ∀ t ∈ n.tokens, a ∉ t.word.toList) :
    a ∉ charsOf (spacedLine (indentedLine steps n)).tokens := by
  obtain ⟨-, k, hchars⟩ := charsOf_spacedLine steps n h
  rw [hchars, List.mem_append, not_or]
  exact ⟨fun hmem => ha (List.eq_of_mem_replicate hmem), notMem_spaceOut a ha n.tokens hwords⟩

theorem code_scan_text (t : Tree) (hne : t.beneath ≠ [])
    (hbreaks : ∀ a, a = '\n' ∨ a = '\r' → ∀ n ∈ t.beneath, a ∉ charsOf n.tokens)
    (hreads : ∀ n ∈ t.beneath, Reads (charsOf n.tokens) (code n.tokens)) :
    code (scan t.text).flatten = t.beneath.flatMap fun n => code n.tokens := by
  have hlines : Text.lines t.text.toList = t.beneath.map fun n => charsOf n.tokens := by
    rw [text_eq, List.map_map, Text.lines_intercalate]
    · rfl
    · simpa using hne
    · exact List.forall_mem_map.2 (hbreaks '\n' (.inl rfl))
    · exact List.forall_mem_map.2 (hbreaks '\r' (.inr rfl))
  rw [scan, hlines]
  exact code_scanLines t.beneath _ _ hreads

/-! ## The second layout -/

theorem lineEnd_notMem_restyled (style : KeywordStyle) (a : Char) (ha : a = '\n' ∨ a = '\r')
    {t : Token} (hlex : Lexical t) (hsafe : CaseSafe t) (h : a ∉ t.word.toList) :
    a ∉ (restyled style t).word.toList := by
  cases hk : t.kind.isReserved with
  | false => rwa [restyled_of_not_reserved style hk]
  | true =>
    intro hmem
    have hstable := isStableWord_restyled style (isStableWord_of_lexical hlex hsafe hk) a hmem
    rcases ha with rfl | rfl <;> exact absurd hstable (by decide)

theorem beneath_layout (f : Node → Node) (ts : List Tree) :
    (node (top true) (mapForest f ts ++ [blankLine])).beneath =
      (forestNodes ts).map f ++ [blankLine.root] := by
  rw [beneath, leaves, forestNodes_append, forestNodes_mapForest]
  rfl

theorem code_tokens_eq (t : Tree) (h : t.root.tokens = []) :
    code t.tokens = t.beneath.flatMap fun n => code n.tokens := by
  obtain ⟨n, ls⟩ := t
  have hn : n.tokens = [] := h
  rw [tokens_node, hn, List.nil_append, forestTokens, code, List.filter_flatMap]
  rfl

/-- A legible layout reads as its code. -/
theorem code_scan_format (s : Settings) (sql : String) (t : Tree)
    (hformat : format s (ofSql true sql) = .ok t) (hlex : ∀ u ∈ code t.tokens, Lexical u)
    (hbreaks : ∀ a, a = '\n' ∨ a = '\r' → ∀ u ∈ code t.tokens, a ∉ u.word.toList)
    (hlegible : ∀ n ∈ t.beneath, legible .plain (code n.tokens) = true) :
    code (scan t.text).flatten = code t.tokens := by
  obtain ⟨-, -, moved, -, hbare, -, ht⟩ := format_ok s sql t hformat
  have hcode : code t.tokens = t.beneath.flatMap fun n => code n.tokens :=
    code_tokens_eq t (by rw [ht]; rfl)
  have hmem : ∀ n ∈ t.beneath, ∀ u ∈ code n.tokens, u ∈ code t.tokens := by
    intro n hn u hu
    rw [hcode]
    exact List.mem_flatMap.2 ⟨n, hn, hu⟩
  rw [mapForest_mapForest] at ht
  have hline : ∀ n ∈ t.beneath, Reads (charsOf n.tokens) (code n.tokens) ∧
      ∀ a, a = '\n' ∨ a = '\r' → a ∉ charsOf n.tokens := by
    intro n hn
    have hread := hlegible n hn
    have hcases := hn
    rw [ht, beneath_layout, List.mem_append, List.mem_map, List.mem_singleton] at hcases
    rcases hcases with ⟨m, hm, rfl⟩ | rfl
    · have hcodeLine := (charsOf_spacedLine s.indentSteps m (hbare m hm)).1
      have htokens := hmem _ hn
      rw [hcodeLine] at hread htokens ⊢
      refine ⟨reads_spacedLine _ m (hbare m hm) (fun u hu => hlex u (htokens u hu))
        (fun u hu => hbreaks '\n' (.inl rfl) u (htokens u hu)) hread, fun a ha => ?_⟩
      apply notMem_spacedLine _ m (hbare m hm) a _ fun u hu => hbreaks a ha u (htokens u hu)
      rcases ha with rfl | rfl <;> decide
    · exact ⟨reads_nil, by simp [blankLine, root]⟩
  rw [code_scan_text t _ (fun a ha n hn => (hline n hn).2 a ha) (fun n hn => (hline n hn).1), hcode]
  rw [ht, beneath_layout]
  exact List.append_ne_nil_of_right_ne_nil _ (List.cons_ne_nil _ _)

/-- A legible layout whose tokens are those of another run, in the style, is its own layout if the runs have the same
layout. -/
theorem format_text_of_arrange (s : Settings) (sql : String) (t : Tree) (us : List Token)
    (hformat : format s (ofSql true sql) = .ok t) (hcode : code t.tokens = us.map (restyled s.keywordStyle))
    (hus : ∀ u ∈ us, Lexical u ∧ CaseSafe u ∧ ∀ a, a = '\n' ∨ a = '\r' → a ∉ u.word.toList)
    (hsame : arrange s (us.map (recased s.keywordStyle)) = arrange s (code (scan sql).flatten))
    (hlegible : ∀ n ∈ t.beneath, legible .plain (code n.tokens) = true) :
    format s (ofSql true t.text) = .ok t := by
  have hread : code (scan t.text).flatten = us.map (restyled s.keywordStyle) := by
    rw [← hcode]
    apply code_scan_format s sql t hformat _ _ hlegible
    · rw [hcode, List.forall_mem_map]
      intro u hu
      obtain ⟨hlex, hsafe, -⟩ := hus u hu
      exact lexical_restyled _ hlex hsafe
    · intro a ha
      rw [hcode, List.forall_mem_map]
      intro u hu
      obtain ⟨hlex, hsafe, hbreak⟩ := hus u hu
      exact lineEnd_notMem_restyled _ a ha hlex hsafe (hbreak a ha)
  have hstyled : us.map (restyled s.keywordStyle) = us.map (recased s.keywordStyle) := by
    apply List.map_congr_left
    intro u hu
    obtain ⟨hlex, hsafe, -⟩ := hus u hu
    exact (recased_of_lexical _ hlex hsafe).symm
  rw [format_ofSql] at hformat ⊢
  rw [hread, hstyled, hsame, hformat]

theorem lineEnd_notMem_spell (style : KeywordStyle) : ∀ word ∈ ["INNER", "OUTER"],
    '\n' ∉ (style.spell word).toList ∧ '\r' ∉ (style.spell word).toList := by
  cases style <;> decide +kernel

/-- A layout is its own layout if it keeps the tokens of its statement, apart from words that settled joins are given,
and is legible, and if its reserved words change case letter by letter and none of them is a name behind `WITH`. -/
theorem format_ofSql_text (s : Settings) (sql : String) (t : Tree)
    (hformat : format s (ofSql true sql) = .ok t)
    (hkept : code t.tokens = (code (scan sql).flatten).map (restyled s.keywordStyle) ∨
      JoinsSettled s (code (scan sql).flatten) ∧ code t.tokens = written s.keywordStyle (code (scan sql).flatten))
    (hsafe : ∀ u ∈ code (scan sql).flatten, CaseSafe u) (hnames : NamesFree (code (scan sql).flatten))
    (hlegible : ∀ n ∈ t.beneath, legible .plain (code n.tokens) = true) :
    format s (ofSql true t.text) = .ok t := by
  obtain ⟨hne, hshape, -⟩ := format_ok s sql t hformat
  have hread : ∀ u ∈ code (scan sql).flatten,
      Lexical u ∧ CaseSafe u ∧ ∀ a, a = '\n' ∨ a = '\r' → a ∉ u.word.toList := by
    intro u hu
    have hscan := List.mem_of_mem_filter hu
    exact ⟨lexical_scan sql u hscan, hsafe u hu, fun a ha => lineEnd_notMem_scan a ha sql u hscan⟩
  rcases hkept with hkept | ⟨hjoins, hkept⟩
  · apply format_text_of_arrange s sql t _ hformat hkept hread _ hlegible
    exact arrange_recased s _ hne (hasLetters_of_scan sql) hnames hshape
  · have hstyled : ∀ u ∈ code (scan sql).flatten, restyled s.keywordStyle u = recased s.keywordStyle u := by
      intro u hu
      obtain ⟨hlex, hsafe, -⟩ := hread u hu
      exact (recased_of_lexical _ hlex hsafe).symm
    have hfull : ∀ u ∈ completeJoins s.keywordStyle (code (scan sql).flatten),
        Lexical u ∧ CaseSafe u ∧ ∀ a, a = '\n' ∨ a = '\r' → a ∉ u.word.toList := by
      apply forall_mem_completeFrom s.keywordStyle none _ _ hread
      intro word hword
      obtain ⟨hlex, hsafe, -⟩ := lexical_spell s.keywordStyle word hword
      refine ⟨hlex, hsafe, ?_⟩
      rintro a (rfl | rfl)
      · exact (lineEnd_notMem_spell s.keywordStyle word hword).1
      · exact (lineEnd_notMem_spell s.keywordStyle word hword).2
    have hwritten : written s.keywordStyle (code (scan sql).flatten) =
        (completeJoins s.keywordStyle (code (scan sql).flatten)).map (restyled s.keywordStyle) := by
      rw [written_eq_map s.keywordStyle _ hstyled]
      apply List.map_congr_left
      intro u hu
      obtain ⟨hlex, hsafe, -⟩ := hfull u hu
      exact recased_of_lexical _ hlex hsafe
    apply format_text_of_arrange s sql t _ hformat (hkept.trans hwritten) hfull _ hlegible
    exact arrange_recased_completeJoins s _ hne (hasLetters_of_scan sql) hstyled hnames hshape hjoins

/-- A statement with a function of all rows, a comment, and joins that lack their words. -/
def queryOfJoins : String :=
  "select a.b, count(*) c -- rows\nfrom t join u on t.x = u.y left join v using (z) where a = 1 and b < 'k l'"

theorem format_ofSql_text_of_joins :
    ∃ t, format ⟨128, .head, .upperAll, 2⟩ (ofSql true queryOfJoins) = .ok t ∧
      format ⟨128, .head, .upperAll, 2⟩ (ofSql true t.text) = .ok t := by
  have hconditions : ∃ t, format ⟨128, .head, .upperAll, 2⟩ (ofSql true queryOfJoins) = .ok t ∧
      JoinsSettled ⟨128, .head, .upperAll, 2⟩ (code (scan queryOfJoins).flatten) ∧
      code t.tokens = written .upperAll (code (scan queryOfJoins).flatten) ∧
      (∀ u ∈ code (scan queryOfJoins).flatten, CaseSafe u) ∧
      NamesFree (code (scan queryOfJoins).flatten) ∧
      ∀ n ∈ t.beneath, legible .plain (code n.tokens) = true := by
    decide +kernel
  obtain ⟨t, hformat, hjoins, hkept, hsafe, hnames, hlegible⟩ := hconditions
  exact ⟨t, hformat, format_ofSql_text _ _ t hformat (.inr ⟨hjoins, hkept⟩) hsafe hnames hlegible⟩

/-- A statement with a column of a table for its first item. -/
def queryOfColumn : String :=
  "select a.b, c from t"

/-- The comma goes before the name of the column instead of behind it, and goes elsewhere the second time. -/
theorem format_ofSql_text_of_column :
    ∃ t, format ⟨128, .tail, .lower, 4⟩ (ofSql true queryOfColumn) = .ok t ∧
      ∃ u, format ⟨128, .tail, .lower, 4⟩ (ofSql true t.text) = .ok u ∧ u.text ≠ t.text := by
  decide +kernel

end SqlStyle.Layout
