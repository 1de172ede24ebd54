import SqlStyle.Proofs.Layout.Preservation
import SqlStyle.Proofs.Token.Lexical
import SqlStyle.Tree.Walk

/-! How a layout ends. Once a run with a token is broken into lines, the passes before the one for
blank lines cannot stop; that one stops at the first line below the top, the last one apart, that
ends a part (`format_error_iff`), and else puts a blank line at the end. So a tree that is returned has one
shape: depths go step by step, only the last line is blank, and every line is indented by its depth
(`format_shape`). How the statement was laid out before has no part in it: gathering leaves nothing of the
source's lines but its tokens (`format_eq_of_code`). -/
namespace SqlStyle.Layout
set_option autoImplicit false
open Clause SqlStyle.Tree
open Token (code code_append)

/-! ## Before the blank lines -/

def early (s : Settings) (t : Tree) : Edit Tree :=
  (passes.take 4).foldl (fun e pass => e.andThen (pass.run s)) ⟨t, none⟩

theorem finish_eq_early (s : Settings) (t : Tree) :
    finish s t = ((early s t).andThen blankPass).andThen spacePass := rfl

/-- The line holds a token, and no whitespace. -/
def Bare (n : Node) : Prop :=
  n.tokens ≠ [] ∧ ∀ t ∈ n.tokens, t.kind ≠ .whitespace

theorem bare_restyledLine (style : KeywordStyle) (n : Node) (h : Bare n) :
    Bare (restyledLine style n) := by
  refine ⟨by simpa [restyledLine, withTokens] using h.1, fun t ht => ?_⟩
  obtain ⟨u, hu, rfl⟩ := List.mem_map.1 ht
  rw [kind_restyled]
  exact h.2 u hu

theorem mem_completeFrom (style : KeywordStyle) (prev? : Option Token) (ts : List Token) :
    ∀ t ∈ completeFrom style prev? ts, t ∈ ts ∨ t.kind = .keyword := by
  induction ts generalizing prev? with
  | nil => simp [completeFrom]
  | cons u ts ih =>
    intro t ht
    rw [completeFrom, List.mem_append, List.mem_cons] at ht
    rcases ht with ht | rfl | ht
    · obtain ⟨w, -, rfl⟩ := List.mem_map.1 ht
      exact .inr rfl
    · exact .inl List.mem_cons_self
    · rcases ih (some u) t ht with ht | ht
      · exact .inl (List.mem_cons_of_mem u ht)
      · exact .inr ht

theorem bare_completedLine (style : KeywordStyle) (n : Node) (h : Bare n) :
    Bare (completedLine style n) := by
  refine ⟨?_, fun t ht => ?_⟩
  · obtain ⟨t, ts, hts⟩ := List.exists_cons_of_ne_nil h.1
    simp [completedLine, withTokens, completeJoins, hts, completeFrom]
  · rcases mem_completeFrom style none n.tokens t ht with ht | ht
    · exact h.2 t ht
    · rw [ht]
      decide

theorem Rearranged.bare {n m : Node} (h : Rearranged n m) (hn : Bare n) : Bare m := by
  refine ⟨h.ne_nil, fun t ht => ?_⟩
  rcases h.mem t ht with ht | ht
  · exact hn.2 t ht
  · rw [ht]
    decide

/-- On lines that hold a token and no whitespace no pass stops before the blank lines. -/
theorem early_eq (s : Settings) (r : Node) (ts : List Tree) (hbare : ∀ n ∈ forestNodes ts, Bare n)
    (hletters : ∀ n ∈ forestNodes ts, ∀ t ∈ n.tokens, HasLetters t) :
    ∃ moved, commaPass s.commaPosition (.node r (mapForest (writtenLine s.keywordStyle) ts)) =
        ⟨.node r moved, none⟩ ∧
      Paired Rearranged (mapForest (writtenLine s.keywordStyle) ts) moved ∧
      (∀ n ∈ forestNodes moved, Bare n) ∧
      early s (.node r ts) = ⟨.node r (mapForest (indentedLine s.indentSteps) moved), none⟩ := by
  have hwritten : ∀ n ∈ forestNodes (mapForest (writtenLine s.keywordStyle) ts), Bare n := by
    rw [forestNodes_mapForest, List.forall_mem_map]
    exact fun n hn => bare_completedLine _ _ (bare_restyledLine s.keywordStyle n (hbare n hn))
  obtain ⟨moved, hmoved, hpaired⟩ := commaPass_paired s.commaPosition r
    (mapForest (writtenLine s.keywordStyle) ts) fun n hn => (hwritten n hn).1
  have hbareMoved : ∀ n ∈ forestNodes moved, Bare n :=
    hpaired.forall_nodes (fun _ _ h => h.bare) hwritten
  refine ⟨moved, hmoved, hpaired, hbareMoved, ?_⟩
  have hearly : early s (.node r ts) = (((keywordPass s.keywordStyle (.node r ts)).andThen
      (joinPass s.keywordStyle)).andThen (commaPass s.commaPosition)).andThen
      (indentPass s.indentSteps) := rfl
  rw [hearly, keywordPass_eq s.keywordStyle r ts hletters]
  show (((joinPass s.keywordStyle (.node r (mapForest (restyledLine s.keywordStyle) ts))).andThen
      (commaPass s.commaPosition)).andThen (indentPass s.indentSteps)) = _
  rw [joinPass_eq, mapForest_mapForest]
  show (commaPass s.commaPosition (.node r (mapForest (writtenLine s.keywordStyle) ts))).andThen
      (indentPass s.indentSteps) = _
  rw [hmoved]
  exact indentPass_eq s.indentSteps r moved fun n hn => (hbareMoved n hn).1

/-! ## Indents -/

/-- The line holds a token that is no whitespace, and is indented by its depth. -/
def Placed (steps : Nat) (n : Node) : Prop :=
  (∃ t ∈ n.tokens, t.kind ≠ .whitespace) ∧ (n.indent : Int) = steps * (n.depth - 1)

theorem placed_indentedLine (steps : Nat) (n : Node) (h : Bare n) (hdepth : 1 ≤ n.depth) :
    Placed steps (indentedLine steps n) := by
  obtain ⟨hne, hbare⟩ := h
  obtain ⟨t, ts, ht⟩ := List.exists_cons_of_ne_nil hne
  rw [ht] at hbare
  have hkind := hbare t List.mem_cons_self
  by_cases hdeep : 1 < n.depth
  · have hline : indentedLine steps n = withTokens n (margin steps n.depth :: t :: ts) := by
      simp [indentedLine, indentLine, ht, hkind, hdeep]
    rw [hline]
    refine ⟨⟨t, by simp [withTokens], hkind⟩, ?_⟩
    have hindent : (withTokens n (margin steps n.depth :: t :: ts)).indent =
        steps * (n.depth - 1).toNat := by
      simp [Line.indent, withTokens, margin, blanks, Token.length]
    rw [hindent, Int.natCast_mul, Int.toNat_of_nonneg (by omega)]
    rfl
  · have hline : indentedLine steps n = n := by
      simp [indentedLine, indentLine, ht, hkind, hdeep]
    have hone : n.depth = 1 := by omega
    rw [hline]
    exact ⟨⟨t, by simp [ht], hkind⟩, by simp [Line.indent, ht, hkind, hone]⟩

theorem indentedLine_ne_nil (steps : Nat) (n : Node) (h : n.tokens ≠ []) :
    (indentedLine steps n).tokens ≠ [] := by
  obtain ⟨t, ts, ht⟩ := List.exists_cons_of_ne_nil h
  unfold indentedLine indentLine
  simp only [ht]
  split
  · exact List.cons_ne_nil _ _
  · split
    · exact List.cons_ne_nil _ _
    · exact h

theorem depth_indentedLine (steps : Nat) (n : Node) : (indentedLine steps n).depth = n.depth := by
  unfold indentedLine indentLine
  split
  · rfl
  · split
    · rfl
    · split <;> rfl

theorem head?_spaceOut (ts : List Token) : (spaceOut ts).head? = ts.head? := by
  fun_cases spaceOut ts <;> rfl

theorem indent_eq (l : Line) :
    l.indent = (l.tokens.head?.map fun t => if t.kind = .whitespace then t.length else 0).getD 0 := by
  unfold Line.indent
  split <;> next h => simp [h]

theorem exists_code_iff (ts : List Token) : (∃ t ∈ ts, t.kind ≠ .whitespace) ↔ code ts ≠ [] := by
  simp [code, List.filter_eq_nil_iff]

theorem Placed.spacedLine {steps : Nat} {n : Node} (h : Placed steps n) : Placed steps (spacedLine n) := by
  obtain ⟨hcode, hindent⟩ := h
  refine ⟨?_, ?_⟩
  · rw [exists_code_iff] at hcode ⊢
    show code (spaceOut n.tokens) ≠ []
    rwa [code_spaceOut]
  · have hsame : (Layout.spacedLine n).indent = n.indent := by
      rw [indent_eq, indent_eq]
      show ((spaceOut n.tokens).head?.map _).getD 0 = _
      rw [head?_spaceOut]
    rw [hsame]
    exact hindent

/-! ## Blank lines -/

/-- The line ends a part of the statement: it begins with a right bracket or a name, or it is `WITH` or
a comma with one token behind it. -/
def EndsPart (line : List Token) : Prop :=
  ∃ head ∈ line.head?, head.kind = .rightBracket ∨ head.kind = .identifier ∨
    line.length = 2 ∧ (head.isKeyword "WITH" = true ∨ head.key = "," ∧ head.kind = .comma)

theorem endsPart_iff (head : Token) (rest : List Token) :
    endsPart head (head :: rest) = true ↔ EndsPart (head :: rest) := by
  simp only [endsPart, EndsPart, Bool.or_eq_true, Bool.and_eq_true, beq_iff_eq, List.head?_cons,
    Option.mem_def, Option.some.injEq, exists_eq_left', or_assoc]
  rw [and_comm (a := _ ∨ _)]

/-- The pass for blank lines stops exactly if a line before the last one ends a part, and else puts one
blank line at the end. -/
theorem blankForest_cases (ts : List Tree) (hne : ∀ t ∈ ts, t.root.tokens ≠ []) :
    ((∃ t ∈ ts.dropLast, EndsPart t.root.tokens) ∧ (blankForest ts).fault? = some .noToken) ∨
      ((¬ ∃ t ∈ ts.dropLast, EndsPart t.root.tokens) ∧
        blankForest ts = ⟨ts ++ [blankLine], none⟩) := by
  fun_induction blankForest ts with
  | case1 => exact .inr ⟨by simp, rfl⟩
  | case2 t => exact .inr ⟨by simp, rfl⟩
  | case3 t next rest hnil => exact absurd hnil (hne t List.mem_cons_self)
  | case4 t next rest head tail ht hends =>
    rw [ht, endsPart_iff] at hends
    exact .inl ⟨⟨t, by simp, ht ▸ hends⟩, rfl⟩
  | case5 t next rest head tail ht hends ih =>
    rw [ht, endsPart_iff, ← ht] at hends
    have hdrop : (∃ u ∈ (t :: next :: rest).dropLast, EndsPart u.root.tokens) ↔
        ∃ u ∈ (next :: rest).dropLast, EndsPart u.root.tokens := by
      simp only [List.dropLast_cons_cons, List.exists_mem_cons_iff, hends, false_or]
    rw [hdrop]
    rcases ih (fun u hu => hne u (List.mem_cons_of_mem t hu)) with ⟨h, hfault⟩ | ⟨h, hvalue⟩
    · exact .inl ⟨h, hfault⟩
    · exact .inr ⟨h, by rw [hvalue]; rfl⟩

/-! ## The whole layout -/

/-- What layout makes of a run with a token, once it is broken into lines. -/
theorem arrange_cases (s : Settings) (ts : List Token) (hne : ts ≠ [])
    (hcode : ∀ t ∈ ts, t.kind ≠ .whitespace) (hletters : ∀ t ∈ ts, HasLetters t)
    (hshape : (shape s ts).fault? = none) :
    ∃ moved, commaPass s.commaPosition
          (.node (top true) (mapForest (writtenLine s.keywordStyle) (shape s ts).value.leaves)) =
        ⟨.node (top true) moved, none⟩ ∧
      (∀ n ∈ forestNodes moved, Bare n) ∧ Stepped 1 moved ∧
      early s (shape s ts).value =
        ⟨.node (top true) (mapForest (indentedLine s.indentSteps) moved), none⟩ ∧
      (((∃ leaf ∈ (mapForest (indentedLine s.indentSteps) moved).dropLast, EndsPart leaf.root.tokens) ∧
          (arrange s ts).fault? = some .noToken) ∨
        ((¬ ∃ leaf ∈ (mapForest (indentedLine s.indentSteps) moved).dropLast,
            EndsPart leaf.root.tokens) ∧
          blankPass (.node (top true) (mapForest (indentedLine s.indentSteps) moved)) =
            ⟨.node (top true) (mapForest (indentedLine s.indentSteps) moved ++ [blankLine]), none⟩ ∧
          arrange s ts = ⟨.node (top true)
            (mapForest spacedLine (mapForest (indentedLine s.indentSteps) moved) ++ [blankLine]),
              none⟩)) := by
  let c : Call := ⟨⟨1, some ⟨0, none⟩⟩, ts⟩
  let forest := (grow s c.place 1 c.run).value
  have hforest : shape s ts = ⟨.node (top true) forest, none⟩ := by
    rw [← hshape]
    rfl
  have hgrown : ∀ n ∈ forestNodes forest, n.tokens ≠ [] ∧
      ∀ t ∈ n.tokens, t.kind ≠ .whitespace ∧ HasLetters t := by
    apply forall_mem_tokens_grow s c 1 (fun t => t.kind ≠ .whitespace ∧ HasLetters t) hshape hne
    · exact fun t ht => ⟨hcode t ht, hletters t ht⟩
    · exact fun t _ _ => ⟨by simp, by simp [HasLetters, Kind.isReserved]⟩
  obtain ⟨moved, hmoved, hpaired, hbare, hearly⟩ := early_eq s (top true) forest
    (fun n hn => ⟨(hgrown n hn).1, fun t ht => ((hgrown n hn).2 t ht).1⟩)
    (fun n hn t ht => ((hgrown n hn).2 t ht).2)
  refine ⟨moved, ?_, hbare, ?_, ?_, ?_⟩
  · rw [hforest]
    exact hmoved
  · apply hpaired.stepped (fun n m h => by rw [h.frame]; rfl)
    apply (paired_mapForest _ _).stepped (fun n m h => by rw [h]; rfl)
    exact stepped_grow s c 1 hshape
  · rw [hforest]
    exact hearly
  · let lines := mapForest (indentedLine s.indentSteps) moved
    have harrange : arrange s ts =
        ((blankForest lines).map (.node (top true))).andThen spacePass := by
      rw [arrange, hforest]
      show finish s (.node (top true) forest) = _
      rw [finish_eq_early, hearly]
      rfl
    have hblank : blankPass (.node (top true) lines) = (blankForest lines).map (.node (top true)) := rfl
    have hfilled : ∀ t ∈ lines, t.root.tokens ≠ [] := by
      apply forall_mem_roots (p := fun n => n.tokens ≠ [])
      rw [forestNodes_mapForest, List.forall_mem_map]
      exact fun n hn => indentedLine_ne_nil s.indentSteps n (hbare n hn).1
    rw [harrange, hblank]
    rcases blankForest_cases lines hfilled with ⟨hends, hfault⟩ | ⟨hends, hvalue⟩
    · exact .inl ⟨hends, by simp [Edit.andThen, Edit.map, hfault]⟩
    · refine .inr ⟨hends, by rw [hvalue]; rfl, ?_⟩
      rw [hvalue]
      show spacePass (.node (top true) (lines ++ [blankLine])) = _
      rw [spacePass_eq, mapForest_append]
      rfl

/-! ## Statements -/

theorem format_ofSql (s : Settings) (sql : String) :
    format s (ofSql true sql) = (arrange s (code (Scan.scan sql).flatten)).toExcept := by
  rw [← tokens_ofSql]
  rfl

theorem kind_ne_whitespace_of_code {ts : List Token} : ∀ t ∈ code ts, t.kind ≠ .whitespace := by
  intro t ht
  simpa [code] using (List.mem_filter.1 ht).2

theorem hasLetters_of_scan (sql : String) : ∀ t ∈ code (Scan.scan sql).flatten, HasLetters t :=
  fun t ht _ => (Scan.lexical_scan sql t (List.mem_of_mem_filter ht)).word_ne

theorem toExcept_eq_error {α : Type} {e : Edit α} {fault : Fault} (h : e.fault? = some fault) :
    e.toExcept = .error fault := by
  rw [Edit.toExcept, h]

/-- What a layout is made of: lines that growth made, with commas moved, indented and with whitespace, and a
blank line at the end. -/
theorem format_ok (s : Settings) (sql : String) (t : Tree)
    (hformat : format s (ofSql true sql) = .ok t) :
    code (Scan.scan sql).flatten ≠ [] ∧ (shape s (code (Scan.scan sql).flatten)).fault? = none ∧
      ∃ moved, commaPass s.commaPosition (.node (top true) (mapForest (writtenLine s.keywordStyle)
            (shape s (code (Scan.scan sql).flatten)).value.leaves)) = ⟨.node (top true) moved, none⟩ ∧
        (∀ n ∈ forestNodes moved, Bare n) ∧ Stepped 1 moved ∧
        t = .node (top true)
          (mapForest spacedLine (mapForest (indentedLine s.indentSteps) moved) ++ [blankLine]) := by
  rw [format_ofSql] at hformat
  have harrange := eq_of_toExcept _ _ hformat
  have hne : code (Scan.scan sql).flatten ≠ [] := by
    intro hnil
    have hfault := arrange_nil s
    rw [← hnil, harrange] at hfault
    cases hfault
  have hok : (arrange s (code (Scan.scan sql).flatten)).fault? = none := by rw [harrange]
  have hshape := (andThen_ok _ _ hok).1
  obtain ⟨moved, hmoved, hbare, hstepped, -, ⟨-, hfault⟩ | ⟨-, -, hvalue⟩⟩ :=
    arrange_cases s _ hne kind_ne_whitespace_of_code (hasLetters_of_scan sql) hshape
  · rw [harrange] at hfault
    cases hfault
  · rw [harrange] at hvalue
    exact ⟨hne, hshape, moved, hmoved, hbare, hstepped, congrArg Edit.value hvalue⟩

/-- The tree of a layout. Its top has depth zero and no tokens, every other node lies one deeper than the node
above it, the last line is blank and below the top, all other lines hold a token that is no whitespace, and
every line is indented by its depth. -/
theorem format_shape (s : Settings) (sql : String) (t : Tree)
    (hformat : format s (ofSql true sql) = .ok t) :
    t.root.depth = 0 ∧ t.root.tokens = [] ∧
      (∀ u ∈ t.subtrees, ∀ leaf ∈ u.leaves, leaf.root.depth = u.root.depth + 1) ∧
      (∃ front last, t.leaves = front ++ [last] ∧ last.root.tokens = [] ∧ last.leaves = [] ∧
        ∀ n ∈ forestNodes front, ∃ token ∈ n.tokens, token.kind ≠ .whitespace) ∧
      ∀ n ∈ t.beneath, (n.indent : Int) = s.indentSteps * (n.depth - 1) := by
  obtain ⟨-, -, moved, -, hbare, hstepped, rfl⟩ := format_ok s sql t hformat
  let lines := mapForest spacedLine (mapForest (indentedLine s.indentSteps) moved)
  have hplaced : ∀ n ∈ forestNodes lines, Placed s.indentSteps n := by
    rw [forestNodes_mapForest, forestNodes_mapForest, List.forall_mem_map, List.forall_mem_map]
    intro n hn
    exact (placed_indentedLine s.indentSteps n (hbare n hn) (hstepped.le_depth n hn)).spacedLine
  have hall : Stepped 1 (lines ++ [blankLine]) := by
    rw [stepped_append]
    refine ⟨?_, (stepped_cons 1 _ [] []).2 ⟨rfl, .nil _, .nil _⟩⟩
    apply (paired_mapForest _ _).stepped (fun n m h => by rw [h]; rfl)
    exact (paired_mapForest _ _).stepped (fun n m h => by rw [h, depth_indentedLine]) 1 hstepped
  refine ⟨rfl, rfl, ?_, ⟨_, blankLine, rfl, rfl, rfl, fun n hn => (hplaced n hn).1⟩, ?_⟩
  · rw [subtrees, List.forall_mem_cons]
    exact ⟨hall.root_depth, hall.leaf_depth⟩
  · rw [beneath, leaves, forestNodes_append, List.forall_mem_append]
    refine ⟨fun n hn => (hplaced n hn).2, ?_⟩
    simp [forestNodes, nodes, blankLine, Line.indent]

/-- A query with a condition within brackets and a further table. -/
def queryOfTwoTables : String :=
  "select a, max(b) c from t, (select 1) u where x = 1 and (y > 2 or z in (1, 2))"

theorem format_shape_of_two_tables :
    ∃ t, format ⟨128, .tail, .upperHead, 3⟩ (ofSql true queryOfTwoTables) = .ok t ∧
      ∀ n ∈ t.beneath, (n.indent : Int) = 3 * (n.depth - 1) := by
  have hok : (format ⟨128, .tail, .upperHead, 3⟩ (ofSql true queryOfTwoTables)).isOk = true := by
    decide +kernel
  cases hformat : format ⟨128, .tail, .upperHead, 3⟩ (ofSql true queryOfTwoTables) with
  | error fault =>
    rw [hformat] at hok
    cases hok
  | ok t => exact ⟨t, rfl, (format_shape _ queryOfTwoTables t hformat).2.2.2.2⟩

/-- When a layout fails. A statement without a token has no layout. If a statement is broken into lines, the
passes before the one for blank lines give a tree, and layout fails exactly if a line of it right below the
top, the last one apart, ends a part; then a token is missing. Else no pass stops, and the one for blank
lines does nothing but put a blank line at the end. -/
theorem format_error_iff (s : Settings) (sql : String) :
    (code (Scan.scan sql).flatten = [] → format s (ofSql true sql) = .error .noToken) ∧
      (code (Scan.scan sql).flatten ≠ [] → (shape s (ofSql true sql).tokens).fault? = none →
        ∃ lines, early s (shape s (ofSql true sql).tokens).value = ⟨.node (top true) lines, none⟩ ∧
          ((∃ fault, format s (ofSql true sql) = .error fault) ↔
            ∃ leaf ∈ lines.dropLast, EndsPart leaf.root.tokens) ∧
          (∀ fault, format s (ofSql true sql) = .error fault → fault = .noToken) ∧
          ((¬ ∃ leaf ∈ lines.dropLast, EndsPart leaf.root.tokens) →
            blankPass (.node (top true) lines) = ⟨.node (top true) (lines ++ [blankLine]), none⟩ ∧
              ∃ t, spacePass (.node (top true) (lines ++ [blankLine])) = ⟨t, none⟩ ∧
                format s (ofSql true sql) = .ok t)) := by
  rw [format_ofSql, tokens_ofSql]
  constructor
  · intro hnil
    rw [hnil]
    exact toExcept_eq_error (arrange_nil s)
  · intro hne hshape
    obtain ⟨moved, -, -, -, hearly, houtcome⟩ :=
      arrange_cases s _ hne kind_ne_whitespace_of_code (hasLetters_of_scan sql) hshape
    refine ⟨_, hearly, ?_⟩
    rcases houtcome with ⟨hends, hfault⟩ | ⟨hends, hblank, hvalue⟩
    · rw [toExcept_eq_error hfault]
      exact ⟨⟨fun _ => hends, fun _ => ⟨_, rfl⟩⟩, fun fault h => (Except.error.inj h).symm,
        fun h => absurd hends h⟩
    · rw [hvalue]
      refine ⟨⟨?_, fun h => absurd h hends⟩, ?_, fun _ => ⟨hblank, _, spacePass_eq _ _, ?_⟩⟩
      · rintro ⟨fault, h⟩
        cases h
      · intro fault h
        cases h
      · rw [mapForest_append]
        rfl

/-- A query with two named table expressions: the first of them ends with a right bracket. -/
def queryOfTwoNames : String :=
  "with a as (select 1), b as (select 2) select * from a"

theorem format_error_of_two_names :
    ∃ lines, early ⟨128, .head, .lower, 4⟩
        (shape ⟨128, .head, .lower, 4⟩ (ofSql true queryOfTwoNames).tokens).value =
          ⟨.node (top true) lines, none⟩ ∧
      ∃ leaf ∈ lines.dropLast, EndsPart leaf.root.tokens := by
  have hfails : (format ⟨128, .head, .lower, 4⟩ (ofSql true queryOfTwoNames)).isOk = false := by
    decide +kernel
  obtain ⟨lines, hearly, hiff, -⟩ :=
    (format_error_iff ⟨128, .head, .lower, 4⟩ queryOfTwoNames).2 (by decide +kernel) (by decide +kernel)
  refine ⟨lines, hearly, hiff.1 ?_⟩
  cases hformat : format ⟨128, .head, .lower, 4⟩ (ofSql true queryOfTwoNames) with
  | error fault => exact ⟨fault, rfl⟩
  | ok t =>
    rw [hformat] at hfails
    cases hfails

/-! ## Statements that differ in their lines only -/

theorem map_kind_word {ts : List Token} (h : ∀ t ∈ ts, t.mark = none) :
    (ts.map fun t => (t.kind, t.word)).map (fun p => ⟨p.1, p.2, none⟩) = ts := by
  rw [List.map_map]
  refine (List.map_congr_left fun t ht => ?_).trans (List.map_id ts)
  show ⟨t.kind, t.word, none⟩ = t
  rw [← h t ht]

theorem mark_of_scan (sql : String) : ∀ t ∈ code (Scan.scan sql).flatten, t.mark = none :=
  fun t ht => (Scan.lexical_scan sql t (List.mem_of_mem_filter ht)).1

/-- Two statements with the same tokens, whitespace apart, are laid out alike, however they are divided into lines
and indented: gathering gives the same run, and layout gives the same tree, hence the same text, or stops with
the same fault. -/
theorem format_eq_of_code (v : Values) (a b : String)
    (h : (code (Scan.scan a).flatten).map (fun t => (t.kind, t.word)) =
      (code (Scan.scan b).flatten).map fun t => (t.kind, t.word)) :
    (gathered (ofSql true a)).root.tokens = (gathered (ofSql true b)).root.tokens ∧
      format v.settings (ofSql true a) = format v.settings (ofSql true b) ∧
      (format v.settings (ofSql true a)).map text = (format v.settings (ofSql true b)).map text := by
  have hcode : code (Scan.scan a).flatten = code (Scan.scan b).flatten := by
    rw [← map_kind_word (mark_of_scan a), h, map_kind_word (mark_of_scan b)]
  have hformat : format v.settings (ofSql true a) = format v.settings (ofSql true b) := by
    rw [format_ofSql, format_ofSql, hcode]
  refine ⟨?_, hformat, by rw [hformat]⟩
  rw [tokens_root_gathered, tokens_root_gathered, tokens_ofSql, tokens_ofSql, hcode]

/-- A query on one line, and the same query on several lines, one of them blank and one with tabs. -/
theorem format_eq_of_code_of_lines :
    let a := "select a,b from t -- all"
    let b := "\n  select a\r\n\n , b\n\t\tfrom   t\r\n -- all"
    (code (Scan.scan a).flatten).map (fun t => (t.kind, t.word)) =
        (code (Scan.scan b).flatten).map (fun t => (t.kind, t.word)) ∧
      Scan.scan a ≠ Scan.scan b ∧
      format ({} : Values).settings (ofSql true a) = format ({} : Values).settings (ofSql true b) ∧
      ((format ({} : Values).settings (ofSql true b)).map text).toOption =
        some "select\n    a\n    , b\nfrom\n    t  -- all\n" := by
  intro a b
  have hcode : (code (Scan.scan a).flatten).map (fun t => (t.kind, t.word)) =
      (code (Scan.scan b).flatten).map (fun t => (t.kind, t.word)) := by decide +kernel
  obtain ⟨-, hformat, htext⟩ := format_eq_of_code {} a b hcode
  refine ⟨hcode, by decide +kernel, hformat, ?_⟩
  rw [← htext]
  decide +kernel

end SqlStyle.Layout
