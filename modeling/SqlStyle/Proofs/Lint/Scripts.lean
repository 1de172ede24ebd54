import SqlStyle.Proofs.Lint.Lines
import SqlStyle.Proofs.Tree.ReadBack

/-! Two scripts, one after the other. The lines of both are scanned as they are alone if the first script leaves
no comment open, and each line is checked by itself. So the report on both together is the report on the
first, followed by the report on the second with its lines counted on from the first
(`report_append`); only the findings on runs of blank lines can be others. -/
namespace SqlStyle
set_option autoImplicit false

/-! ## Lines -/

namespace Text

theorem lines_append_newline (a b : List Char) (h : ¬ ['\r'] <:+ a) :
    lines (a ++ '\n' :: b) = lines a ++ lines b := by
  fun_induction lines a with
  | case1 => rfl
  | case2 rest ih =>
    have hrest : ¬ ['\r'] <:+ rest := fun hs => h (hs.trans (List.suffix_append ['\r', '\n'] rest))
    rw [List.cons_append, List.cons_append, lines, ih hrest, List.cons_append]
  | case3 rest hn ih =>
    have hrest : ¬ ['\r'] <:+ rest := fun hs => h (hs.trans (List.suffix_cons '\r' rest))
    rw [List.cons_append, lines, ih hrest, List.cons_append]
    intro after he
    cases rest with
    | nil => exact h List.suffix_rfl
    | cons c rest =>
      obtain rfl := (List.cons.inj he).1
      exact hn rest rfl
  | case4 rest ih =>
    have hrest : ¬ ['\r'] <:+ rest := fun hs => h (hs.trans (List.suffix_cons '\n' rest))
    rw [List.cons_append, lines, ih hrest, List.cons_append]
  | case5 c rest hp hr hn ih =>
    have hrest : ¬ ['\r'] <:+ rest := fun hs => h (hs.trans (List.suffix_cons c rest))
    have hc : c ≠ '\r' := fun he => hr he
    rw [List.cons_append, lines, ih hrest]
    · obtain ⟨first, others, hlines⟩ := List.exists_cons_of_ne_nil (lines_ne_nil rest)
      rw [hlines]
      rfl
    · exact fun _ he => absurd he hc
    · exact hr
    · exact hn

end Text

namespace Scan

/-- A block comment is open behind the lines, of which the first begins in one if `inComment`. -/
def isOpenAfter (inComment : Bool) (ls : List (List Char)) : Bool :=
  ls.foldl (fun inside line => (scanLine inside line).2) inComment

theorem scanLines_append (inComment : Bool) (ls ks : List (List Char)) :
    scanLines inComment (ls ++ ks) =
      scanLines inComment ls ++ scanLines (isOpenAfter inComment ls) ks := by
  induction ls generalizing inComment with
  | nil => rfl
  | cons line ls ih =>
    show _ :: scanLines (scanLine inComment line).2 (ls ++ ks) = _ :: (scanLines _ ls ++ scanLines _ ks)
    rw [ih]
    rfl

def endsInComment (sql : String) : Bool :=
  isOpenAfter false (Text.lines sql.toList)

theorem scan_append_newline (a b : String) (hclosed : endsInComment a = false) (hend : ¬ ['\r'] <:+ a.toList) :
    scan (a ++ "\n" ++ b) = scan a ++ scan b := by
  have htext : (a ++ "\n" ++ b).toList = a.toList ++ '\n' :: b.toList := by simp
  rw [endsInComment] at hclosed
  rw [scan, htext, Text.lines_append_newline _ _ hend, scanLines_append, hclosed]
  rfl

end Scan

/-! ## Order of reports -/

namespace Violation

theorem before_iff (a b : Violation) :
    a.before b = true ↔ a.line < b.line ∨ a.line = b.line ∧ a.column < b.column := by
  simp [before]

theorem before_trans (a b c : Violation) (hab : (!b.before a) = true) (hbc : (!c.before b) = true) :
    (!c.before a) = true := by
  rw [Bool.not_eq_true', ← Bool.not_eq_true, before_iff] at hab hbc ⊢
  omega

theorem before_total (a b : Violation) : ((!b.before a) || (!a.before b)) = true := by
  rw [Bool.or_eq_true, Bool.not_eq_true', Bool.not_eq_true', ← Bool.not_eq_true, ← Bool.not_eq_true,
    before_iff, before_iff]
  omega

theorem pairwise_sorted (vs : List Violation) : (sorted vs).Pairwise fun a b => (!b.before a) = true :=
  List.pairwise_mergeSort before_trans before_total vs

theorem sorted_cons (v : Violation) (vs : List Violation) :
    ∃ front rest, sorted (v :: vs) = front ++ v :: rest ∧ sorted vs = front ++ rest ∧
      front = (sorted vs).filter (fun u => u.before v) ∧ rest = (sorted vs).filter fun u => !u.before v := by
  obtain ⟨front, rest, hcons, htail, hfront⟩ := List.mergeSort_cons before_trans before_total v vs
  have hpairs := pairwise_sorted (v :: vs)
  rw [sorted, hcons, List.pairwise_append, List.pairwise_cons] at hpairs
  have hrest : ∀ u ∈ rest, (!u.before v) = true := hpairs.2.1.1
  have hsorted : sorted vs = front ++ rest := htail
  simp only [Bool.not_not] at hfront
  have hnot : ∀ u ∈ front, ¬ (!u.before v) = true := by
    intro u hu
    rw [hfront u hu]
    decide
  have hnone : ∀ u ∈ rest, ¬ u.before v = true := by
    intro u hu
    simpa using hrest u hu
  refine ⟨front, rest, hcons, hsorted, ?_, ?_⟩
  · rw [hsorted, List.filter_append, List.filter_eq_self.2 hfront, List.filter_eq_nil_iff.2 hnone,
      List.append_nil]
  · rw [hsorted, List.filter_append, List.filter_eq_nil_iff.2 hnot, List.filter_eq_self.2 hrest,
      List.nil_append]

theorem filter_sorted (p : Violation → Bool) (vs : List Violation) :
    (sorted vs).filter p = sorted (vs.filter p) := by
  induction vs with
  | nil => simp [sorted]
  | cons v vs ih =>
    obtain ⟨front, rest, hcons, htail, hfront, hrest⟩ := sorted_cons v vs
    rw [hcons, List.filter_append]
    cases hv : p v with
    | false =>
      rw [List.filter_cons_of_neg (by simp [hv]), List.filter_cons_of_neg (by simp [hv]), ← List.filter_append,
        ← htail, ih]
    | true =>
      obtain ⟨front', rest', hcons', -, hfront', hrest'⟩ := sorted_cons v (vs.filter p)
      have hcomm (q : Violation → Bool) :
          ((sorted vs).filter q).filter p = (sorted (vs.filter p)).filter q := by
        rw [← ih, List.filter_filter, List.filter_filter]
        exact List.filter_congr fun u _ => Bool.and_comm _ _
      rw [List.filter_cons_of_pos hv, List.filter_cons_of_pos hv, hcons', hfront, hrest, hcomm, hcomm,
        ← hfront', ← hrest']

theorem filter_append_of_pairwise (p : Violation → Bool)
    (h : ∀ u v, p u = true → p v = false → u.before v = true) (vs : List Violation)
    (hvs : vs.Pairwise fun a b => (!b.before a) = true) :
    vs = vs.filter p ++ vs.filter fun v => !p v := by
  induction hvs with
  | nil => rfl
  | @cons v vs hv _ ih =>
    cases hp : p v with
    | true =>
      rw [List.filter_cons_of_pos hp, List.filter_cons_of_neg (by simp [hp]), List.cons_append, ← ih]
    | false =>
      have hnone : ∀ u ∈ vs, p u = false := by
        intro u hu
        rw [← Bool.not_eq_true]
        intro hpu
        have hbefore := h u v hpu hp
        have hlater := hv u hu
        simp [hbefore] at hlater
      rw [List.filter_cons_of_neg (by simp [hp]), List.filter_cons_of_pos (by simp [hp]),
        List.filter_eq_nil_iff.2 fun u hu => by simp [hnone u hu],
        List.filter_eq_self.2 fun u hu => by simp [hnone u hu], List.nil_append]

theorem sorted_eq_append (p : Violation → Bool) (h : ∀ u v, p u = true → p v = false → u.before v = true)
    (vs : List Violation) : sorted vs = sorted (vs.filter p) ++ sorted (vs.filter fun v => !p v) := by
  rw [← filter_sorted, ← filter_sorted]
  exact filter_append_of_pairwise p h (sorted vs) (pairwise_sorted vs)

def shift (n : Nat) (v : Violation) : Violation :=
  { v with line := v.line + n }

theorem sorted_map_shift (n : Nat) (vs : List Violation) :
    sorted (vs.map (shift n)) = (sorted vs).map (shift n) := by
  refine (List.map_mergeSort fun a _ b _ => ?_).symm
  have hsame : b.before a = (b.shift n).before (a.shift n) := by
    rw [Bool.eq_iff_iff, before_iff, before_iff]
    show _ ↔ b.line + n < a.line + n ∨ b.line + n = a.line + n ∧ b.column < a.column
    omega
  rw [hsame]

end Violation

/-! ## Lines of both scripts -/

namespace Lint
open Violation (shift sorted filter_sorted sorted_eq_append sorted_map_shift)

def shiftLine (n : Nat) (line : Line) : Line :=
  { line with number := line.number + n }

theorem numbered_append (ls ks : List (List Token)) :
    Tree.numbered (ls ++ ks) = Tree.numbered ls ++ (Tree.numbered ks).map (shiftLine ls.length) := by
  simp only [Tree.numbered, List.zipIdx_append, List.map_append, List.map_map, Nat.zero_add]
  congr 1
  rw [List.zipIdx_eq_map_add, List.map_map]
  apply List.map_congr_left
  rintro ⟨ts, i⟩ -
  simp only [Function.comp_apply, shiftLine, Line.mk.injEq, and_true]
  omega

theorem getElem?_numbered (lines : List (List Token)) (n : Nat) :
    (Tree.numbered lines)[n]? = lines[n]?.map fun ts => ⟨n + 1, ts⟩ := by
  rw [Tree.numbered, List.getElem?_map, List.getElem?_zipIdx, Option.map_map]
  simp only [Nat.zero_add]
  rfl

theorem number_le_of_mem_numbered (ls : List (List Token)) :
    ∀ line ∈ Tree.numbered ls, 1 ≤ line.number ∧ line.number ≤ ls.length := by
  intro line hline
  obtain ⟨⟨ts, i⟩, hmem, rfl⟩ := List.mem_map.1 hline
  have hi := (List.mem_zipIdx hmem).2.1
  show 1 ≤ i + 1 ∧ i + 1 ≤ ls.length
  omega

section LineRule
variable {rule : Line → Except Fault (List Violation)} (h : IsLineRule rule)
include h

theorem IsLineRule.line_eq (line : Line) (found : List Violation) (hfound : rule line = .ok found) :
    ∀ v ∈ found, v.line = line.number := by
  have hstamp := (h line.number line).eq
  have hsame : { line with number := line.number } = line := rfl
  rw [hsame, hfound] at hstamp
  have hmap : found = found.map (stamp line.number) := Except.ok.inj hstamp
  rw [hmap, List.forall_mem_map]
  exact fun v _ => rfl

theorem IsLineRule.shift (n : Nat) (line : Line) :
    rule (shiftLine n line) = (rule line).map (List.map (Violation.shift n)) := by
  rw [shiftLine, (h (line.number + n) line).eq]
  cases hfound : rule line with
  | error fault => rfl
  | ok found =>
    refine congrArg Except.ok (List.map_congr_left fun v hv => ?_)
    rw [stamp, Violation.shift, h.line_eq line found hfound v hv]

end LineRule

theorem applyRules_shift (n : Nat) (rules : List (Line → Except Fault (List Violation)))
    (hrules : ∀ rule ∈ rules, IsLineRule rule) (lines : List Line) :
    applyRules rules (lines.map (shiftLine n)) = (applyRules rules lines).map (List.map (shift n)) := by
  unfold applyRules
  rw [map_gather _ (List.map (shift n)) rfl fun _ _ => List.map_append]
  refine gather_congr fun rule hrule => ?_
  rw [gather_map, map_gather _ (List.map (shift n)) rfl fun _ _ => List.map_append]
  exact gather_congr fun line _ => (hrules rule hrule).shift n line

theorem line_of_mem_applyRules (rules : List (Line → Except Fault (List Violation)))
    (hrules : ∀ rule ∈ rules, IsLineRule rule) (lines : List Line) (found : List Violation)
    (h : applyRules rules lines = .ok found) : ∀ v ∈ found, ∃ line ∈ lines, v.line = line.number := by
  intro v hv
  obtain ⟨rule, hrule, some, hsome, hv⟩ := mem_gather _ h v hv
  obtain ⟨line, hline, own, hown, hv⟩ := mem_gather _ hsome v hv
  exact ⟨line, hline, (hrules rule hrule).line_eq line own hown v hv⟩

/-- The findings on some lines and on others, made at once, are told apart by what tells the lines apart. -/
theorem applyRules_append (p : Violation → Bool) (rules : List (Line → Except Fault (List Violation)))
    (as bs : List Line) (xs ys : List Violation) (hx : applyRules rules as = .ok xs)
    (hy : applyRules rules bs = .ok ys) (hxs : ∀ v ∈ xs, p v = true) (hys : ∀ v ∈ ys, p v = false) :
    ∃ found, applyRules rules (as ++ bs) = .ok found ∧ found.filter p = xs ∧
      (found.filter fun v => !p v) = ys := by
  induction rules generalizing xs ys with
  | nil =>
    cases hx
    cases hy
    exact ⟨[], rfl, rfl, rfl⟩
  | cons rule rules ih =>
    obtain ⟨first, xs, hfirst, hrestx, rfl⟩ := gather_cons_eq_ok _ hx
    obtain ⟨second, ys, hsecond, hresty, rfl⟩ := gather_cons_eq_ok _ hy
    obtain ⟨hp, hxs⟩ := List.forall_mem_append.1 hxs
    obtain ⟨hn, hys⟩ := List.forall_mem_append.1 hys
    obtain ⟨found, hfound, rfl, rfl⟩ := ih xs ys hrestx hresty hxs hys
    have hrule : gather rule (as ++ bs) = .ok (first ++ second) := by
      rw [gather_append, hfirst, hsecond]
      rfl
    refine ⟨first ++ second ++ found, ?_, ?_, ?_⟩
    · rw [applyRules] at hfound ⊢
      rw [gather_cons_ok _ rule _ rules hrule, hfound]
      rfl
    · rw [List.filter_append, List.filter_append, List.filter_eq_self.2 hp,
        List.filter_eq_nil_iff.2 fun v hv => by simp [hn v hv], List.append_nil]
    · rw [List.filter_append, List.filter_append, List.filter_eq_nil_iff.2 fun v hv => by simp [hp v hv],
        List.filter_eq_self.2 fun v hv => by simp [hn v hv], List.nil_append]

/-! ## Reports -/

theorem report_eq_ok_iff (s : Settings) (t : Tree) (vs : List Violation) :
    report s t = .ok vs ↔ ∃ found, findings s t = .ok found ∧ vs = sorted found := by
  unfold report
  cases findings s t with
  | error fault => simp [Except.map]
  | ok found => simp [Except.map, eq_comm]

theorem local_of_report (s : Settings) (sql : String) (vs : List Violation)
    (h : report s (Tree.ofSql false sql) = .ok vs) :
    ∃ found, applyRules (lineRules s) (Tree.numbered (Scan.scan sql)) = .ok found ∧
      vs.filter isLocal = sorted found := by
  obtain ⟨found, hfound, rfl⟩ := (report_eq_ok_iff s _ vs).1 h
  have hlocal := local_findings s (Tree.ofSql false sql)
  rw [hfound, Tree.beneath_ofSql] at hlocal
  exact ⟨_, hlocal.symm, filter_sorted isLocal found⟩

theorem report_of_local (s : Settings) (sql : String) (found : List Violation)
    (h : applyRules (lineRules s) (Tree.numbered (Scan.scan sql)) = .ok found) :
    ∃ vs, report s (Tree.ofSql false sql) = .ok vs ∧ vs.filter isLocal = sorted found := by
  have hlocal := local_findings s (Tree.ofSql false sql)
  rw [Tree.beneath_ofSql, h] at hlocal
  cases hfound : findings s (Tree.ofSql false sql) with
  | error fault =>
    rw [hfound] at hlocal
    cases hlocal
  | ok all =>
    rw [hfound] at hlocal
    refine ⟨sorted all, (report_eq_ok_iff s _ _).2 ⟨all, hfound, rfl⟩, ?_⟩
    rw [filter_sorted]
    exact congrArg sorted (Except.ok.inj hlocal)

/-- The report on two scripts with a line feed between them is the report on the first, followed by the report
on the second with its lines counted on from the first, but for the findings on runs of blank lines. -/
theorem report_append (s : Settings) (a b : String) (va vb : List Violation)
    (hclosed : Scan.endsInComment a = false) (hend : ¬ ['\r'] <:+ a.toList)
    (ha : report s (Tree.ofSql false a) = .ok va) (hb : report s (Tree.ofSql false b) = .ok vb) :
    ∃ vs, report s (Tree.ofSql false (a ++ "\n" ++ b)) = .ok vs ∧
      vs.filter (fun v => v.code.number != "E601") =
        va.filter (fun v => v.code.number != "E601") ++
          (vb.filter fun v => v.code.number != "E601").map
            fun v => { v with line := v.line + (Text.lines a.toList).length } := by
  have hnumber : (fun v : Violation => v.code.number != "E601") = isLocal := by
    funext v
    rw [isLocal]
    cases v.code <;> rfl
  have hlength : (Text.lines a.toList).length = (Scan.scan a).length := by
    rw [← Scan.chars_scan, List.length_map]
  rw [hnumber, hlength]
  have hrules := isLineRule_of_mem s
  obtain ⟨xs, hxs, hva⟩ := local_of_report s a va ha
  obtain ⟨ys, hys, hvb⟩ := local_of_report s b vb hb
  let n := (Scan.scan a).length
  have hshifted : applyRules (lineRules s) ((Tree.numbered (Scan.scan b)).map (shiftLine n)) =
      .ok (ys.map (shift n)) := by
    rw [applyRules_shift n _ hrules, hys]
    rfl
  have hfirst : ∀ v ∈ xs, decide (v.line ≤ n) = true := by
    intro v hv
    obtain ⟨line, hline, hv⟩ := line_of_mem_applyRules _ hrules _ xs hxs v hv
    have hle := (number_le_of_mem_numbered _ line hline).2
    exact decide_eq_true (hv ▸ hle)
  have hsecond : ∀ v ∈ ys.map (shift n), decide (v.line ≤ n) = false := by
    rw [List.forall_mem_map]
    intro v hv
    obtain ⟨line, hline, hv⟩ := line_of_mem_applyRules _ hrules _ ys hys v hv
    have hpos := (number_le_of_mem_numbered _ line hline).1
    rw [decide_eq_false_iff_not]
    show ¬ v.line + n ≤ n
    omega
  obtain ⟨found, hfound, hleft, hright⟩ := applyRules_append (fun v => decide (v.line ≤ n)) _ _ _ _ _
    hxs hshifted hfirst hsecond
  rw [← numbered_append, ← Scan.scan_append_newline a b hclosed hend] at hfound
  obtain ⟨vs, hvs, hlocal⟩ := report_of_local s _ found hfound
  refine ⟨vs, hvs, ?_⟩
  have hbefore : ∀ u v : Violation, decide (u.line ≤ n) = true → decide (v.line ≤ n) = false →
      u.before v = true := by
    intro u v hu hv
    rw [decide_eq_true_eq] at hu
    rw [decide_eq_false_iff_not] at hv
    rw [Violation.before_iff]
    omega
  rw [hlocal, sorted_eq_append (fun v => decide (v.line ≤ n)) hbefore, hleft, hright, sorted_map_shift,
    hva, hvb]
  rfl

/-- The first script ends with a blank line and the second begins with one: what only their run breaks is left
out. -/
theorem report_append_of_clause :
    let s : Settings := ⟨128, .head, .lower, 4⟩
    let a := "select a\n    from  t\n"
    let b := "\n        WHERE x = 1\n    and b = 2"
    Scan.endsInComment a = false ∧ ¬ ['\r'] <:+ a.toList ∧
      report s (Tree.ofSql false a) = .ok [⟨.multipleSpaces, 2, 5, {}⟩] ∧
      report s (Tree.ofSql false b) =
        .ok [⟨.keywordNotLower, 2, 9, { actual? := some "WHERE", expected? := some "where" }⟩] ∧
      ∃ vs, report s (Tree.ofSql false (a ++ "\n" ++ b)) = .ok vs ∧
        vs.filter (fun v => v.code.number != "E601") =
          [⟨.multipleSpaces, 2, 5, {}⟩,
            ⟨.keywordNotLower, 5, 9, { actual? := some "WHERE", expected? := some "where" }⟩] := by
  intro s a b
  have hclosed : Scan.endsInComment a = false := by decide +kernel
  have hend : ¬ ['\r'] <:+ a.toList := by decide +kernel
  have ha : report s (Tree.ofSql false a) = .ok [⟨.multipleSpaces, 2, 5, {}⟩] := by decide +kernel
  have hb : report s (Tree.ofSql false b) =
      .ok [⟨.keywordNotLower, 2, 9, { actual? := some "WHERE", expected? := some "where" }⟩] := by
    decide +kernel
  obtain ⟨vs, hvs, hfilter⟩ := report_append s a b _ _ hclosed hend ha hb
  refine ⟨hclosed, hend, ha, hb, vs, hvs, hfilter.trans ?_⟩
  decide +kernel

end Lint
end SqlStyle
