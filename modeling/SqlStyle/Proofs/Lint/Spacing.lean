import Mathlib.Data.List.Chain
import Mathlib.Data.List.Perm.Basic
import SqlStyle.Proofs.Lint.Layouts

/-! A line with gaps under the check for whitespace. The gaps are chosen by the kinds of the tokens on either side, and
the check looks at the tokens of the line by their places, so the two differ where a gap is left out for the
sake of one token while the other one asks for it. These places are the only ones that are reported
(`run_spacing_spaceOut`). -/
namespace SqlStyle.Lint
set_option autoImplicit false
open Layout
open Token (code)

/-! ## Windows on a line with gaps -/

/-- What stands before the token `t` on the line with gaps, from the nearest token on, if the tokens `before` stand
before it without them. -/
def gapsBefore (t : Token) : List Token → List Token
  | [] => []
  | prev :: before => gap prev t ++ prev :: gapsBefore prev before

/-- What stands behind the token `t` on the line with gaps, if the tokens `after` stand behind it without them. -/
def gapsAfter (t : Token) : List Token → List Token
  | [] => []
  | next :: after => gap t next ++ next :: gapsAfter next after

def withGaps (w : Window) : Window :=
  ⟨gapsBefore w.token w.before, w.token, gapsAfter w.token w.after⟩

theorem spaceOut_cons (t : Token) (ts : List Token) : spaceOut (t :: ts) = t :: gapsAfter t ts := by
  induction ts generalizing t with
  | nil => rfl
  | cons next ts ih => rw [spaceOut, ih, gapsAfter, List.cons_append]

theorem gap_cases (t next : Token) :
    (isTight t next = true ∧ gap t next = []) ∨
      (isTight t next = false ∧ ∃ g, gap t next = [g] ∧ g.kind = .whitespace) := by
  cases htight : isTight t next with
  | true => exact .inl ⟨rfl, by rw [gap, htight]; rfl⟩
  | false => exact .inr ⟨rfl, _, by rw [gap, htight]; rfl, rfl⟩

/-- The windows on a line with gaps, but for those on the gaps, are the windows on its tokens. -/
theorem along_gaps (before : List Token) (t : Token) (ts : List Token)
    (hts : ∀ u ∈ t :: ts, u.kind ≠ .whitespace) :
    (Window.along (gapsBefore t before) (t :: gapsAfter t ts)).filter (fun w => !isSpace w.token) =
      (Window.along before (t :: ts)).map withGaps := by
  induction ts generalizing t before with
  | nil =>
    have ht : isSpace t = false := by simpa [isSpace] using hts t List.mem_cons_self
    simp [Window.along, gapsAfter, withGaps, ht]
  | cons next ts ih =>
    obtain ⟨hkind, hrest⟩ := List.forall_mem_cons.1 hts
    have ht : isSpace t = false := by simpa [isSpace] using hkind
    have hnext := ih (t :: before) next hrest
    rw [Window.along, List.filter_cons_of_pos (by simp [ht]), Window.along, List.map_cons, ← hnext, gapsBefore]
    refine congrArg (withGaps ⟨before, t, next :: ts⟩ :: ·) ?_
    rcases gap_cases t next with ⟨-, hgap⟩ | ⟨-, g, hgap, hg⟩
    · rw [gapsAfter, hgap, List.nil_append, List.nil_append]
    · rw [gapsAfter, hgap, List.singleton_append, List.singleton_append, Window.along,
        List.filter_cons_of_neg (by simp [isSpace, hg])]

theorem windows_spaceOut (ts : List Token) (hts : ∀ t ∈ ts, t.kind ≠ .whitespace) :
    (windows (spaceOut ts)).filter (fun w => !isSpace w.token) = (windows ts).map withGaps := by
  cases ts with
  | nil => rfl
  | cons t ts =>
    rw [spaceOut_cons]
    exact along_gaps [] t ts hts

/-! ## Gaps that are left out -/

/-- There is no gap before the token: it is a comma, a dot or a right bracket. -/
def closes (t : Token) : Bool :=
  [.comma, .dot, .rightBracket].contains t.kind

/-- There is no gap behind the token: it is a dot, a left bracket or a function. -/
def opens (t : Token) : Bool :=
  [.dot, .leftBracket, .function].contains t.kind

def atToken (number : Nat) (w : Window) (c : Code) (target : String) : Violation :=
  ⟨c, number, Token.width (gapsBefore w.token w.before).reverse + 1, { target? := some target }⟩

/-- The gap that is missing behind a token, if one is left out for the next token. -/
def missingAfter (c : Code) (number : Nat) (w : Window) : List Violation :=
  ((w.after.head?.filter closes).map fun next => atToken number w c (w.token.word ++ next.word)).toList

/-- The gap that is missing before a token, if one is left out for the token before it. None is missed at the end of a
line, nor before the first two of its tokens. -/
def missingBefore (c : Code) (number : Nat) (w : Window) : List Violation :=
  if w.after ≠ [] ∧ 2 ≤ (gapsBefore w.token w.before).length then
    ((w.before.head?.filter opens).map fun prev => atToken number w c (prev.word ++ w.token.word)).toList
  else []

def missingAtCommas (number : Nat) (ts : List Token) : List Violation :=
  (windows ts).flatMap fun w =>
    if w.token.kind = .comma then missingAfter .noSpaceAfterComma number w else []

def missingAtOperators (number : Nat) (ts : List Token) : List Violation :=
  (windows ts).flatMap fun w =>
    if w.token.kind = .operator then
      missingBefore .noSpaceBeforeOperator number w ++ missingAfter .noSpaceAfterOperator number w
    else []

/-! ## Rules on a line with gaps -/

theorem inner?_eq (w : Window) : inner? w = if 2 ≤ w.before.length then w.before.head? else none := by
  obtain ⟨before, t, after⟩ := w
  rcases before with _ | ⟨b, _ | ⟨c, before⟩⟩ <;> simp [inner?]

theorem gapsAfter_eq_nil_iff (t : Token) (after : List Token) : gapsAfter t after = [] ↔ after = [] := by
  cases after <;> simp [gapsAfter]

theorem isTight_of_next {t : Token} (next : Token) (ht : t.kind = .comma ∨ t.kind = .operator) :
    isTight t next = closes next := by
  rcases ht with ht | ht <;> simp [isTight, closes, ht]

theorem isTight_of_prev {prev t : Token} (ht : t.kind = .operator) (hprev : prev.kind ≠ .whitespace) :
    isTight prev t = opens prev := by
  simp [isTight, opens, ht, hprev]

theorem missingBefore_of_none (number : Nat) (c : Code) {w : Window} (hinner : inner? (withGaps w) = none) :
    missingBefore c number w = [] := by
  rw [inner?_eq] at hinner
  rw [missingBefore]
  split
  · next hfar =>
    rw [if_pos (show 2 ≤ (withGaps w).before.length from hfar.2), List.head?_eq_none_iff] at hinner
    rw [show gapsBefore w.token w.before = [] from hinner] at hfar
    simp at hfar
  · rfl

section
variable {ts : List Token} (hts : ∀ t ∈ ts, t.kind ≠ .whitespace) {w : Window} (hw : w ∈ windows ts)
include hts hw

theorem withGaps_mem : withGaps w ∈ windows (spaceOut ts) := by
  have hmem : withGaps w ∈ (windows ts).map withGaps := List.mem_map_of_mem hw
  rw [← windows_spaceOut ts hts] at hmem
  exact List.mem_of_mem_filter hmem

theorem ofLine_withGaps (number : Nat) (c : Code) (target : String) :
    Violation.ofLine ⟨number, spaceOut ts⟩ c (withGaps w).index { target? := some target } =
      atToken number w c target := by
  have htake : (spaceOut ts).take (withGaps w).index = (gapsBefore w.token w.before).reverse := by
    rw [(mem_windows _ _).1 (withGaps_mem hts hw), Window.index, ← List.length_reverse, List.take_left]
    rfl
  rw [Violation.ofLine, Line.column, Int.toNat_natCast, htake, atToken]

theorem missingAfter_eq (number : Nat) (c : Code) (hkind : w.token.kind = .comma ∨ w.token.kind = .operator)
    {first : Token} {rest : List Token} (hafter : gapsAfter w.token w.after = first :: rest) :
    (if isSpace first then [] else [.ofLine ⟨number, spaceOut ts⟩ c (withGaps w).index
      { target? := some (w.token.word ++ first.word) }]) = missingAfter c number w := by
  rw [ofLine_withGaps hts hw, missingAfter]
  have hmem := (mem_windows ts w).1 hw
  cases hnexts : w.after with
  | nil => simp [hnexts, gapsAfter] at hafter
  | cons next after =>
    have hnext : next.kind ≠ .whitespace := hts next (by simp [hmem, hnexts])
    have hclose := isTight_of_next next hkind
    rw [hnexts, gapsAfter] at hafter
    rcases gap_cases w.token next with ⟨htight, hgap⟩ | ⟨htight, g, hgap, hg⟩
    · rw [hgap, List.nil_append] at hafter
      obtain ⟨rfl, -⟩ := List.cons.inj hafter
      simp [isSpace, hnext, Option.filter_some, ← hclose, htight]
    · rw [hgap, List.singleton_append] at hafter
      obtain ⟨rfl, -⟩ := List.cons.inj hafter
      simp [isSpace, hg, Option.filter_some, ← hclose, htight]

theorem missingBefore_eq (number : Nat) (c : Code) (hkind : w.token.kind = .operator) (hafter : w.after ≠ [])
    {prev : Token} (hinner : inner? (withGaps w) = some prev) :
    (if isSpace prev then [] else [.ofLine ⟨number, spaceOut ts⟩ c (withGaps w).index
      { target? := some (prev.word ++ w.token.word) }]) = missingBefore c number w := by
  rw [ofLine_withGaps hts hw, missingBefore]
  have hmem := (mem_windows ts w).1 hw
  obtain ⟨hfar, hhead⟩ : 2 ≤ (gapsBefore w.token w.before).length ∧
      (gapsBefore w.token w.before).head? = some prev := by
    rw [inner?_eq] at hinner
    split at hinner
    · next hfar => exact ⟨hfar, hinner⟩
    · cases hinner
  have hmissed : w.after ≠ [] ∧ 2 ≤ (gapsBefore w.token w.before).length := ⟨hafter, hfar⟩
  rw [if_pos hmissed]
  cases hprevs : w.before with
  | nil => simp [hprevs, gapsBefore] at hhead
  | cons last before =>
    have hlast : last.kind ≠ .whitespace := hts last (by simp [hmem, hprevs])
    have hopen := isTight_of_prev hkind hlast
    rw [hprevs, gapsBefore] at hhead
    rcases gap_cases last w.token with ⟨htight, hgap⟩ | ⟨htight, g, hgap, hg⟩
    · rw [hgap] at hhead
      obtain rfl : last = prev := Option.some.inj hhead
      simp [isSpace, hlast, Option.filter_some, ← hopen, htight]
    · rw [hgap] at hhead
      obtain rfl : g = prev := Option.some.inj hhead
      simp [isSpace, hg, Option.filter_some, ← hopen, htight]

theorem commaSpaces_withGaps (number : Nat) :
    commaSpaces ⟨number, spaceOut ts⟩ (withGaps w) =
      if w.token.kind = .comma then missingAfter .noSpaceAfterComma number w else [] := by
  unfold commaSpaces
  split
  · next hafter =>
    have hnil : w.after = [] := (gapsAfter_eq_nil_iff _ _).1 hafter
    simp [missingAfter, hnil]
  · next first rest hafter =>
    by_cases hkind : w.token.kind = .comma
    · have hinner : (inner? (withGaps w)).any isSpace = false := by
        cases hb : inner? (withGaps w) with
        | none => rfl
        | some b =>
          exact isSpace_inner (isGapped_spaceOut ts fun t ht => hts t (List.mem_of_mem_tail ht))
            (withGaps_mem hts hw) (by simp [withGaps, hkind]) hb
      have hcomma : ((withGaps w).token.kind == .comma) = true := beq_iff_eq.2 hkind
      rw [if_pos hcomma, hinner, if_neg Bool.false_ne_true, List.nil_append, if_pos hkind]
      exact missingAfter_eq hts hw number _ (.inl hkind) hafter
    · rw [if_neg (by simpa [withGaps] using hkind), if_neg hkind]

theorem operatorSpaces_withGaps (number : Nat) :
    operatorSpaces ⟨number, spaceOut ts⟩ (withGaps w) =
      if w.token.kind = .operator then
        missingBefore .noSpaceBeforeOperator number w ++ missingAfter .noSpaceAfterOperator number w
      else [] := by
  unfold operatorSpaces
  split
  · next hafter =>
    have hnil : w.after = [] := (gapsAfter_eq_nil_iff _ _).1 hafter
    simp [missingAfter, missingBefore, hnil]
  · next first rest hafter =>
    by_cases hkind : w.token.kind = .operator
    · have hoperator : ((withGaps w).token.kind == .operator) = true := beq_iff_eq.2 hkind
      rw [if_pos hoperator, if_pos hkind]
      refine congrArg₂ _ ?_ (missingAfter_eq hts hw number _ (.inr hkind) hafter)
      split
      · next prev hinner =>
        have hne : w.after ≠ [] := by
          intro hnil
          have hgaps : (withGaps w).after = [] := (gapsAfter_eq_nil_iff _ _).2 hnil
          rw [hgaps] at hafter
          cases hafter
        exact missingBefore_eq hts hw number _ hkind hne hinner
      · next hinner => exact (missingBefore_of_none number _ hinner).symm
    · rw [if_neg (by simpa [withGaps] using hkind), if_neg hkind]

end

/-! ## Findings on a line with gaps -/

theorem flatMap_filter_of_nil {α β : Type} (p : α → Bool) (f : α → List β) (as : List α)
    (h : ∀ a ∈ as, p a = false → f a = []) : (as.filter p).flatMap f = as.flatMap f := by
  induction as with
  | nil => rfl
  | cons a as ih =>
    obtain ⟨ha, has⟩ := List.forall_mem_cons.1 h
    rw [List.filter_cons, List.flatMap_cons, ← ih has]
    cases hp : p a with
    | true => rfl
    | false => rw [ha hp]; rfl

theorem commaSpaces_of_space (line : Line) (w : Window) (h : isSpace w.token = true) : commaSpaces line w = [] := by
  have hkind : w.token.kind = .whitespace := by simpa [isSpace] using h
  unfold commaSpaces
  split
  · rfl
  · rw [hkind]; rfl

theorem operatorSpaces_of_space (line : Line) (w : Window) (h : isSpace w.token = true) : operatorSpaces line w = [] := by
  have hkind : w.token.kind = .whitespace := by simpa [isSpace] using h
  unfold operatorSpaces
  split
  · rfl
  · rw [hkind]; rfl

theorem onWindows_spaceOut (rule : Line → Window → List Violation) (line : Line) (ts : List Token)
    (hline : line.tokens = spaceOut ts) (hts : ∀ t ∈ ts, t.kind ≠ .whitespace)
    (hrule : ∀ w, isSpace w.token = true → rule line w = []) :
    onWindows rule line = (windows ts).flatMap fun w => rule line (withGaps w) := by
  rw [onWindows, hline, ← flatMap_filter_of_nil (fun w => !isSpace w.token) (rule line), windows_spaceOut ts hts,
    List.flatMap_map]
  intro w _ hspace
  exact hrule w (by simpa using hspace)

/-- On a line with gaps nothing is reported but gaps that are missing at its commas and its operators. -/
theorem spacing_spaceOut (number : Nat) (ts : List Token) (hts : ∀ t ∈ ts, t.kind ≠ .whitespace) :
    spacing [⟨number, spaceOut ts⟩] = missingAtCommas number ts ++ missingAtOperators number ts := by
  let line : Line := ⟨number, spaceOut ts⟩
  have hgapped : IsGapped line.tokens := isGapped_spaceOut ts fun t ht => hts t (List.mem_of_mem_tail ht)
  have hcommas : onWindows commaSpaces line = missingAtCommas number ts := by
    rw [onWindows_spaceOut commaSpaces line ts rfl hts (commaSpaces_of_space line)]
    exact List.flatMap_congr fun w hw => commaSpaces_withGaps hts hw number
  have hoperators : onWindows operatorSpaces line = missingAtOperators number ts := by
    rw [onWindows_spaceOut operatorSpaces line ts rfl hts (operatorSpaces_of_space line)]
    exact List.flatMap_congr fun w hw => operatorSpaces_withGaps hts hw number
  calc spacing [line]
      = multipleSpaces line ++ (onWindows commaSpaces line ++ (onWindows bracketSpaces line ++
          onWindows operatorSpaces line)) := by simp [spacing, spacingRules]
    _ = missingAtCommas number ts ++ missingAtOperators number ts := by
      rw [multipleSpaces_of_gapped line hgapped, bracketSpaces_of_gapped line hgapped, hcommas, hoperators]
      rfl

theorem apart_spaceOut (ts : List Token) (hts : ∀ t ∈ ts, t.kind ≠ .whitespace) :
    (spaceOut ts).IsChain fun a b => ¬ (a.kind = .whitespace ∧ b.kind = .whitespace) := by
  rw [List.isChain_iff_forall_rel_of_append_cons_cons]
  rintro a b front back hcut ⟨ha, hb⟩
  have hgapped : IsGapped (spaceOut ts) := isGapped_spaceOut ts fun t ht => hts t (List.mem_of_mem_tail ht)
  obtain ⟨t, ht, next, -, hgap⟩ := hgapped (front ++ [a]) b back (by simpa using hcut) (by simp) hb
  rw [List.getLast?_concat] at ht
  obtain rfl := Option.some.inj ht
  have htight := (eq_blanks_of_gap hgap).1
  simp [isTight, ha] at htight

theorem perm_spacing (line : Line) (front back : List Line) :
    (spacing (front ++ line :: back)).Perm (spacing [line] ++ spacing (front ++ back)) := by
  have hone (rule : Line → List Violation) : ((front ++ line :: back).flatMap rule).Perm
      ([line].flatMap rule ++ (front ++ back).flatMap rule) := by
    rw [← List.flatMap_append]
    exact List.perm_middle.flatMap_right rule
  refine (List.Perm.flatMap_left _ fun rule _ => hone rule).trans ?_
  exact (List.flatMap_append_perm _ _ _).symm

/-- Gaps put between tokens without whitespace can be taken out again and never come side by side. On a line that
is made so, the check for whitespace reports a comma directly before a comma, a dot or a right bracket, an operator
directly before one of these, and an operator directly behind a dot, a left bracket or a function, if it is neither
the last token of the line nor one of the first two; and nothing else. -/
theorem run_spacing_spaceOut (s : Settings) (number : Nat) (ts : List Token) (hts : ∀ t ∈ ts, t.kind ≠ .whitespace) :
    code (spaceOut ts) = ts ∧
      ((spaceOut ts).IsChain fun a b => ¬ (a.kind = .whitespace ∧ b.kind = .whitespace)) ∧
      (∀ t : Tree, t.beneath.map Node.toLine = [⟨number, spaceOut ts⟩] →
        Check.spacing.run s t = .ok (missingAtCommas number ts ++ missingAtOperators number ts)) ∧
      ∀ (t : Tree) (front back : List Line), t.beneath.map Node.toLine = front ++ ⟨number, spaceOut ts⟩ :: back →
        ∃ vs, Check.spacing.run s t = .ok vs ∧
          vs.Perm (missingAtCommas number ts ++ missingAtOperators number ts ++ spacing (front ++ back)) := by
  have hcode : code ts = ts := List.filter_eq_self.2 fun t ht => by simpa using hts t ht
  refine ⟨by rw [code_spaceOut, hcode], apart_spaceOut ts hts, ?_, ?_⟩
  · intro t hlines
    rw [← spacing_spaceOut number ts hts, ← hlines]
    rfl
  · intro t front back hlines
    refine ⟨spacing (front ++ ⟨number, spaceOut ts⟩ :: back), by rw [← hlines]; rfl, ?_⟩
    rw [← spacing_spaceOut number ts hts]
    exact perm_spacing _ front back

/-- A line with a comma before a right bracket, an operator behind a function and one before a dot. -/
def lineOfSigns : List Token :=
  [⟨.identifier, "x", none⟩, ⟨.comma, ",", none⟩, ⟨.rightBracket, ")", none⟩, ⟨.function, "abs", none⟩,
    ⟨.operator, "-", none⟩, ⟨.identifier, "1", none⟩, ⟨.operator, "=", none⟩, ⟨.dot, ".", none⟩]

/-- The line reads `x,) abs- 1 =.` and is reported three times. -/
theorem run_spacing_spaceOut_of_signs :
    (∀ t ∈ lineOfSigns, t.kind ≠ .whitespace) ∧
      Check.spacing.run ({} : Values).settings
          (.node (Tree.top true) [.node ⟨⟨1, spaceOut lineOfSigns⟩, 1, true, none⟩ []]) =
        .ok [⟨.noSpaceAfterComma, 1, 2, { target? := some ",)" }⟩,
          ⟨.noSpaceBeforeOperator, 1, 8, { target? := some "abs-" }⟩,
          ⟨.noSpaceAfterOperator, 1, 12, { target? := some "=." }⟩] := by
  have hts : ∀ t ∈ lineOfSigns, t.kind ≠ .whitespace := by decide
  refine ⟨hts, ?_⟩
  rw [(run_spacing_spaceOut ({} : Values).settings 1 lineOfSigns hts).2.2.1 _ rfl]
  decide +kernel

end SqlStyle.Lint
