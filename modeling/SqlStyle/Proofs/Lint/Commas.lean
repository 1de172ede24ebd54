import SqlStyle.Proofs.Clause.Nesting
import SqlStyle.Proofs.Lint.Outcome
import SqlStyle.Proofs.Lint.Positions

/-! Commas at the wrong place. Whether brackets hold a comma is found by counting the brackets on either side of it. On
a line with balanced brackets the counts on the two sides agree, and there are more left brackets than right ones
before the comma exactly if a pair of brackets holds it (`inPair_iff`). So what is reported on such a line are its
commas outside all pairs, but for the one at the right end, each at its own column (`run_commas`). -/
namespace SqlStyle.Clause
set_option autoImplicit false

/-! ## Bracket pairs -/

/-- A pair of brackets holds the token with index `k`. -/
def InPair (ts : List Token) (k : Nat) : Prop :=
  ∃ outer opening inside closing rest, ts = outer ++ opening :: (inside ++ closing :: rest) ∧
    opening.kind = .leftBracket ∧ closing.kind = .rightBracket ∧ Balanced Token.level inside ∧
    outer.length < k ∧ k ≤ outer.length + inside.length

/-- Where more brackets are closed than `d` and those opened on the way, the first one too many is found. -/
theorem exists_closing (ts : List Token) (d : Int) (hd : 0 ≤ d) (hneg : d + (ts.map Token.level).sum < 0) :
    ∃ inside closing rest, ts = inside ++ closing :: rest ∧ closing.kind = .rightBracket ∧
      d + (inside.map Token.level).sum = 0 ∧
      ∀ before, before <+: inside → 0 ≤ d + (before.map Token.level).sum := by
  induction ts generalizing d with
  | nil =>
    simp only [List.map_nil, List.sum_nil] at hneg
    omega
  | cons t ts ih =>
    rw [List.map_cons, List.sum_cons, ← Int.add_assoc] at hneg
    by_cases ht : d + t.level < 0
    · have hlevel := t.neg_one_le_level
      refine ⟨[], t, ts, rfl, Token.kind_of_level_neg (by omega), ?_, ?_⟩
      · simp only [List.map_nil, List.sum_nil]
        omega
      · simpa using hd
    · obtain ⟨inside, closing, rest, rfl, hclosing, hsum, hinside⟩ := ih (d + t.level) (by omega) hneg
      refine ⟨t :: inside, closing, rest, rfl, hclosing, ?_, fun before hbefore => ?_⟩
      · rw [List.map_cons, List.sum_cons, ← Int.add_assoc, hsum]
      · cases before with
        | nil => simpa using hd
        | cons u before =>
          obtain ⟨rfl, hrest⟩ := List.cons_prefix_cons.1 hbefore
          rw [List.map_cons, List.sum_cons, ← Int.add_assoc]
          exact hinside before hrest

/-- Among balanced tokens a pair of brackets holds a token exactly if there are more left brackets than right ones
before it. -/
theorem inPair_iff {front back : List Token} {t : Token} (h : Balanced Token.level (front ++ t :: back))
    (ht : t.level = 0) : InPair (front ++ t :: back) front.length ↔ 0 < (front.map Token.level).sum := by
  constructor
  · rintro ⟨outer, opening, inside, closing, rest, hts, hopening, -, hinside, hlt, hle⟩
    have hfront : front = outer ++ opening :: inside.take (front.length - outer.length - 1) := by
      have htake := congrArg (List.take front.length) hts
      rw [List.take_left, List.take_append, List.take_of_length_le (by omega)] at htake
      obtain ⟨k, hk⟩ : ∃ k, front.length - outer.length = k + 1 := ⟨front.length - outer.length - 1, by omega⟩
      rw [hk, List.take_succ_cons, List.take_append_of_le_length (by omega)] at htake
      rw [hk, Nat.add_sub_cancel]
      exact htake
    have hlevel : opening.level = 1 := by rw [Token.level, hopening]
    have houter := h.nested outer (hts ▸ List.prefix_append _ _)
    have hin := hinside.nested _ (List.take_prefix (front.length - outer.length - 1) inside)
    rw [hfront, List.map_append, List.map_cons, List.sum_append, List.sum_cons]
    omega
  · intro hpos
    have hclosed := h.closed
    rw [List.map_append, List.map_cons, List.sum_append, List.sum_cons, ht] at hclosed
    -- the innermost bracket that is open at the token, and the first one behind it that closes one too many
    obtain ⟨outer, opening, inner, hfront, hlevel, houter, hinner⟩ :=
      exists_opening Token.level_le_one front _ hpos Int.le_rfl
    obtain ⟨inside, closing, rest, hback, hclosing, hsum, hinside⟩ :=
      exists_closing back 0 Int.le_rfl (by omega)
    have hopening : opening.kind = .leftBracket := Token.kind_of_level_pos (by omega)
    have hbefore : Balanced Token.level inner := by
      refine ⟨?_, hinner⟩
      rw [hfront, List.map_append, List.map_cons, List.sum_append, List.sum_cons] at houter
      omega
    have hafter : Balanced Token.level inside := ⟨by omega, fun before hb => by simpa using hinside before hb⟩
    refine ⟨outer, opening, inner ++ ([t] ++ inside), closing, rest, ?_, hopening, hclosing,
      hbefore.append ((Balanced.singleton ht).append hafter), ?_, ?_⟩
    · rw [hfront, hback]
      simp
    · rw [hfront, List.length_append, List.length_cons]
      omega
    · rw [hfront]
      simp only [List.length_append, List.length_cons, List.length_nil]
      omega

end SqlStyle.Clause

namespace SqlStyle.Lint
open Clause
open Scan (charsOf)

/-! ## The code of a line -/

/-- The code of a line is what is left without the whitespace and the comments before and behind it. -/
structure Trimmed (ts front code back : List Token) : Prop where
  parts : ts = front ++ (code ++ back)
  around : ∀ t ∈ front ++ back, t.kind.isTrivia = true
  first : ∀ t ∈ code.head?, t.kind.isTrivia = false
  last : ∀ t ∈ code.getLast?, t.kind.isTrivia = false

theorem dropWhile_append_of_head {p : Token → Bool} {ts us : List Token} (hts : ∀ t ∈ ts, p t = true)
    (hus : ∀ u ∈ us.head?, p u = false) : (ts ++ us).dropWhile p = us := by
  rw [List.dropWhile_append_of_pos hts]
  cases us with
  | nil => rfl
  | cons u us => exact List.dropWhile_cons_of_neg (by simp [hus u rfl])

section Trimmed
variable {line : Line} {front code back : List Token} (h : Trimmed line.tokens front code back)
include h

theorem Trimmed.trimHead (hcode : code ≠ []) : (line.trimHead [.whitespace, .comment]).tokens = code ++ back := by
  rw [Line.trimHead, h.parts]
  apply dropWhile_append_of_head
  · intro t ht
    simpa [Kind.isTrivia] using h.around t (List.mem_append_left _ ht)
  · rw [List.head?_append_of_ne_nil _ hcode]
    intro t ht
    simpa [Kind.isTrivia] using h.first t ht

theorem Trimmed.trimEnd : ((line.trimHead [.whitespace, .comment]).trimEnd [.whitespace, .comment]).tokens = code := by
  by_cases hcode : code = []
  · have hnil : (line.trimHead [.whitespace, .comment]).tokens = [] := by
      rw [Line.trimHead, h.parts, hcode, List.nil_append, List.dropWhile_eq_nil_iff]
      intro t ht
      simpa [Kind.isTrivia] using h.around t ht
    rw [Line.trimEnd, hnil, hcode]
    rfl
  · rw [Line.trimEnd, h.trimHead hcode, List.reverse_append, List.reverse_eq_iff]
    apply dropWhile_append_of_head
    · intro t ht
      simpa [Kind.isTrivia] using h.around t (List.mem_append_right _ (List.mem_reverse.1 ht))
    · rw [List.head?_reverse]
      intro t ht
      simpa [Kind.isTrivia] using h.last t ht

theorem Trimmed.column {w : Window} (hw : w ∈ windows code) :
    line.column (line.tokens.length - (line.trimHead [.whitespace, .comment]).tokens.length + w.index : Nat) =
      (charsOf (front ++ code.take w.index)).length + 1 := by
  have hcode : code ≠ [] := List.ne_nil_of_mem (Window.token_mem hw)
  have hskipped : line.tokens.length - (line.trimHead [.whitespace, .comment]).tokens.length = front.length := by
    rw [h.trimHead hcode, h.parts, List.length_append, Nat.add_sub_cancel]
  have hindex : w.index ≤ code.length := by
    rw [(mem_windows code w).1 hw, Window.index, List.length_append, List.length_reverse]
    omega
  rw [Line.column, Int.toNat_natCast, hskipped, h.parts, List.take_length_add_append,
    List.take_append_of_le_length hindex, width_eq]

end Trimmed

/-! ## Counting brackets -/

theorem countBracket_cons (k : Kind) (w : String) (t : Token) (ts : List Token) :
    countBracket k w (t :: ts) = countBracket k w ts + if t.key == w && t.kind == k then 1 else 0 := by
  rw [countBracket, countBracket, List.countP_cons]
  split <;> rfl

theorem level_eq {t : Token} (ht : Scan.Lexical t) :
    t.level = (if t.key == "(" && t.kind == .leftBracket then 1 else 0) -
      if t.key == ")" && t.kind == .rightBracket then 1 else 0 := by
  unfold Token.level
  split
  · next hkind =>
    have hkey : t.key = "(" := by
      rw [Token.key, ht.word_of_leftBracket hkind]
      decide
    simp [hkind, hkey]
  · next hkind =>
    have hkey : t.key = ")" := by
      rw [Token.key, ht.word_of_rightBracket hkind]
      decide
    simp [hkind, hkey]
  · next hleft hright =>
    rw [if_neg (by simpa using fun _ => hleft), if_neg (by simpa using fun _ => hright)]
    rfl

theorem openBrackets_eq (ts : List Token) (hlexical : ∀ t ∈ ts, Scan.Lexical t) :
    openBrackets ts = (ts.map Token.level).sum := by
  induction ts with
  | nil => rfl
  | cons t ts ih =>
    obtain ⟨ht, hts⟩ := List.forall_mem_cons.1 hlexical
    have hrest := ih hts
    rw [openBrackets] at hrest ⊢
    rw [List.map_cons, List.sum_cons, ← hrest, level_eq ht, countBracket_cons, countBracket_cons]
    omega

theorem level_of_comma {t : Token} (ht : Scan.Lexical t) (hword : t.word = ",") : t.level = 0 := by
  have hkey : t.key = "," := by
    rw [Token.key, hword]
    decide
  rw [level_eq ht, hkey]
  simp

/-- On balanced code the counts on the two sides of a comma tell whether brackets hold it. -/
theorem isBracketed_iff {code : List Token} (hlexical : ∀ t ∈ code, Scan.Lexical t)
    (hcode : Balanced Token.level code) {w : Window} (hw : w ∈ windows code) (hword : w.token.word = ",") :
    isBracketed w = true ↔ InPair code w.index := by
  rw [mem_windows] at hw
  subst hw
  rw [List.forall_mem_append, List.forall_mem_cons] at hlexical
  have hlevel := level_of_comma hlexical.2.1 hword
  have hbefore : openBrackets w.before = (w.before.reverse.map Token.level).sum := by
    rw [openBrackets_eq _ fun t ht => hlexical.1 t (List.mem_reverse.2 ht), List.map_reverse, List.sum_reverse]
  have hclosed := hcode.closed
  rw [List.map_append, List.map_cons, List.sum_append, List.sum_cons, hlevel] at hclosed
  rw [Window.index, ← List.length_reverse, inPair_iff hcode hlevel, isBracketed, Bool.and_eq_true, decide_eq_true_iff,
    decide_eq_true_iff, hbefore, openBrackets_eq _ hlexical.2.2]
  omega

/-! ## Commas of a line -/

theorem map_index_along (before ts : List Token) :
    (Window.along before ts).map Window.index = List.range' before.length ts.length := by
  induction ts generalizing before with
  | nil => rfl
  | cons t ts ih =>
    rw [Window.along, List.map_cons, ih, List.length_cons, List.length_cons, List.range'_succ]
    rfl

theorem pairwise_windows (ts : List Token) : (windows ts).Pairwise fun v w => v.index < w.index := by
  rw [← List.pairwise_map, windows, map_index_along]
  exact List.pairwise_lt_range'

theorem getElem?_index {ts : List Token} {w : Window} (hw : w ∈ windows ts) : ts[w.index]? = some w.token := by
  rw [(mem_windows ts w).1 hw, Window.index, ← List.length_reverse, List.getElem?_append_right (Nat.le_refl _),
    Nat.sub_self]
  rfl

theorem exists_window {ts : List Token} {k : Nat} {t : Token} (h : ts[k]? = some t) :
    ∃ w ∈ windows ts, w.index = k := by
  obtain ⟨hk, rfl⟩ := List.getElem?_eq_some_iff.1 h
  refine ⟨⟨(ts.take k).reverse, ts[k], ts.drop (k + 1)⟩, ?_, ?_⟩
  · rw [mem_windows, List.reverse_reverse, List.getElem_cons_drop, List.take_append_drop]
  · rw [Window.index, List.length_reverse, List.length_take, Nat.min_eq_left (Nat.le_of_lt hk)]

/-- The end of a line at which commas stand. -/
def IsEnd (position : CommaPosition) (length k : Nat) : Prop :=
  match position with
  | .head => k = 0
  | .tail => k + 1 = length

/-- A comma that no pair of brackets holds and that does not stand at the end for commas. -/
def Misplaced (position : CommaPosition) (code : List Token) (k : Nat) : Prop :=
  (∃ t, code[k]? = some t ∧ t.word = ",") ∧ ¬ InPair code k ∧ ¬ IsEnd position code.length k

theorem isAtPlace_iff (position : CommaPosition) {code : List Token} {w : Window} (hw : w ∈ windows code) :
    isAtPlace position w = true ↔ IsEnd position code.length w.index := by
  cases position with
  | head =>
    show w.before.isEmpty = true ↔ w.before.length = 0
    rw [List.isEmpty_iff, List.length_eq_zero_iff]
  | tail =>
    show w.after.isEmpty = true ↔ w.before.length + 1 = code.length
    rw [List.isEmpty_iff, ← List.length_eq_zero_iff, (mem_windows code w).1 hw, List.length_append, List.length_reverse,
      List.length_cons]
    omega

theorem misplaced_iff (position : CommaPosition) {code : List Token} (hlexical : ∀ t ∈ code, Scan.Lexical t)
    (hcode : Balanced Token.level code) {w : Window} (hw : w ∈ windows code) :
    (w.token.word == "," && !isAtPlace position w && !isBracketed w) = true ↔ Misplaced position code w.index := by
  rw [Misplaced, getElem?_index hw, ← isAtPlace_iff position hw]
  by_cases hword : w.token.word = ","
  · rw [← isBracketed_iff hlexical hcode hw hword]
    simp [hword, and_comm]
  · simp [hword]

theorem Trimmed.commas {line : Line} {front code back : List Token} (h : Trimmed line.tokens front code back)
    (hlexical : ∀ t ∈ line.tokens, Scan.Lexical t) (hcode : Balanced Token.level code) (position : CommaPosition) :
    ∃ places : List Nat, places.Pairwise (· < ·) ∧ (∀ k, k ∈ places ↔ Misplaced position code k) ∧
      commas position line = places.map fun k =>
        ⟨.ofPosition position, line.number, (charsOf (front ++ code.take k)).length + 1, {}⟩ := by
  have hwords : ∀ t ∈ code, Scan.Lexical t := by
    intro t ht
    apply hlexical
    rw [h.parts]
    exact List.mem_append_right _ (List.mem_append_left _ ht)
  let found := (windows code).filter fun w => w.token.word == "," && !isAtPlace position w && !isBracketed w
  refine ⟨found.map Window.index, List.pairwise_map.2 ((pairwise_windows code).filter _), fun k => ?_, ?_⟩
  · constructor
    · intro hk
      obtain ⟨w, hw, rfl⟩ := List.mem_map.1 hk
      obtain ⟨hmem, hfound⟩ := List.mem_filter.1 hw
      exact (misplaced_iff position hwords hcode hmem).1 hfound
    · intro hk
      obtain ⟨t, ht, -⟩ := hk.1
      obtain ⟨w, hw, rfl⟩ := exists_window ht
      exact List.mem_map_of_mem (List.mem_filter.2 ⟨hw, (misplaced_iff position hwords hcode hw).2 hk⟩)
  · rw [Lint.commas, List.map_map]
    simp only [h.trimEnd]
    refine List.map_congr_left fun w hw => ?_
    rw [Violation.ofLine, h.column (List.mem_of_mem_filter hw)]
    rfl

/-! ## Lines of a statement -/

theorem pairwise_numbered (ls : List (List Token)) :
    (Tree.numbered ls).Pairwise fun a b => a.number < b.number := by
  have hnumbers : (Tree.numbered ls).map Line.number = (List.range' 0 ls.length).map (· + 1) := by
    rw [Tree.numbered, List.map_map, ← List.zipIdx_map_snd 0 ls, List.map_map]
    rfl
  rw [← List.pairwise_map, hnumbers, List.pairwise_map]
  exact List.Pairwise.imp Nat.succ_lt_succ List.pairwise_lt_range'

theorem pairwise_beneath (condensed : Bool) (sql : String) :
    ((Tree.ofSql condensed sql).beneath.map Node.toLine).Pairwise fun a b => a.number < b.number := by
  rw [Tree.ofSql, Tree.ofLines, Tree.beneath, Tree.leaves, Tree.toLine_forestNodes_nest]
  cases condensed with
  | false => exact pairwise_numbered _
  | true =>
    apply List.Pairwise.filter
    rw [List.pairwise_map]
    exact pairwise_numbered _

/-- Each finding bears the number of its line, so the findings on a line can be told by it. -/
theorem filter_flatMap_number (rule : Line → List Violation) (hrule : ∀ line, ∀ v ∈ rule line, v.line = line.number)
    (lines : List Line) (hlines : lines.Pairwise fun a b => a.number < b.number) :
    ∀ line ∈ lines, (lines.flatMap rule).filter (fun v => v.line == line.number) = rule line := by
  induction lines with
  | nil => exact List.forall_mem_nil _
  | cons first rest ih =>
    obtain ⟨hfirst, hrest⟩ := List.pairwise_cons.1 hlines
    simp only [List.flatMap_cons, List.filter_append]
    intro line hline
    rcases List.mem_cons.1 hline with rfl | hline
    · have hnone : (rest.flatMap rule).filter (fun v => v.line == line.number) = [] := by
        rw [List.filter_eq_nil_iff]
        intro v hv
        obtain ⟨other, hother, hv⟩ := List.mem_flatMap.1 hv
        have hlt := hfirst other hother
        rw [beq_iff_eq, hrule other v hv]
        omega
      have hall : (rule line).filter (fun v => v.line == line.number) = rule line :=
        List.filter_eq_self.2 fun v hv => beq_iff_eq.2 (hrule line v hv)
      rw [hall, hnone, List.append_nil]
    · have hnone : (rule first).filter (fun v => v.line == line.number) = [] := by
        rw [List.filter_eq_nil_iff]
        intro v hv
        have hlt := hfirst line hline
        rw [beq_iff_eq, hrule first v hv]
        omega
      rw [hnone, List.nil_append, ih hrest line hline]

/-- On a line with balanced brackets, the commas that are reported are those outside all brackets that do not stand at
the end for commas, in order, and each where it begins on the line. -/
theorem run_commas (s : Settings) (condensed : Bool) (sql : String) :
    ∃ vs, Check.commas.run s (Tree.ofSql condensed sql) = .ok vs ∧
      ∀ n ∈ (Tree.ofSql condensed sql).beneath, ∀ front code back, Trimmed n.tokens front code back →
        Balanced Token.level code →
        ∃ places : List Nat, places.Pairwise (· < ·) ∧ (∀ k, k ∈ places ↔ Misplaced s.commaPosition code k) ∧
          (vs.filter fun v => v.line == n.number) = places.map fun k =>
            ⟨.ofPosition s.commaPosition, n.number, (charsOf (front ++ code.take k)).length + 1, {}⟩ := by
  refine ⟨_, rfl, fun n hn front code back htrimmed hcode => ?_⟩
  have hline : n.toLine ∈ (Tree.ofSql condensed sql).beneath.map Node.toLine := List.mem_map_of_mem hn
  obtain ⟨places, hordered, hplaces, hcommas⟩ :=
    htrimmed.commas (lexical_of_mem_beneath condensed sql n.toLine hline) hcode s.commaPosition
  refine ⟨places, hordered, hplaces, ?_⟩
  rw [← hcommas]
  refine filter_flatMap_number _ (fun line => ?_) _ (pairwise_beneath condensed sql) n.toLine hline
  exact (isLineRule_commas s.commaPosition).line_eq line _ rfl

/-- A line whose code is a call and a name, with comments around them. -/
def itemsOfCall : String :=
  "select a\n  /* b */ f(c, d), e,  -- g"

def codeOfCall : List Token :=
  [⟨.identifier, "f", none⟩, ⟨.leftBracket, "(", none⟩, ⟨.identifier, "c", none⟩, ⟨.comma, ",", none⟩,
    ⟨.whitespace, " ", none⟩, ⟨.identifier, "d", none⟩, ⟨.rightBracket, ")", none⟩, ⟨.comma, ",", none⟩,
    ⟨.whitespace, " ", none⟩, ⟨.identifier, "e", none⟩, ⟨.comma, ",", none⟩]

/-- Of the three commas one is in brackets, and one stands at the end of the code. -/
theorem run_commas_of_call :
    let s : Settings := ⟨88, .tail, .lower, 4⟩
    let front : List Token := [⟨.whitespace, "  ", none⟩, ⟨.comment, "/*", none⟩, ⟨.comment, " b ", none⟩,
      ⟨.comment, "*/", none⟩, ⟨.whitespace, " ", none⟩]
    let back : List Token := [⟨.whitespace, "  ", none⟩, ⟨.comment, "-- g", none⟩]
    let n : Node := ⟨⟨2, front ++ (codeOfCall ++ back)⟩, 2, false, none⟩
    n ∈ (Tree.ofSql false itemsOfCall).beneath ∧ Trimmed n.tokens front codeOfCall back ∧
      Balanced Token.level codeOfCall ∧
      ∃ vs, Check.commas.run s (Tree.ofSql false itemsOfCall) = .ok vs ∧
        ∃ places : List Nat, places.Pairwise (· < ·) ∧ (∀ k, k ∈ places ↔ Misplaced .tail codeOfCall k) ∧
          (vs.filter fun v => v.line == 2) = places.map fun k =>
            ⟨.commaNotEnd, 2, (charsOf (front ++ codeOfCall.take k)).length + 1, {}⟩ := by
  intro s front back n
  have hn : n ∈ (Tree.ofSql false itemsOfCall).beneath := by decide +kernel
  have htrimmed : Trimmed n.tokens front codeOfCall back :=
    ⟨rfl, by decide +kernel, by decide +kernel, by decide +kernel⟩
  have hcode : Balanced Token.level codeOfCall := by decide +kernel
  obtain ⟨vs, hvs, hlines⟩ := run_commas s false itemsOfCall
  exact ⟨hn, htrimmed, hcode, vs, hvs, hlines n hn front codeOfCall back htrimmed hcode⟩

end SqlStyle.Lint
