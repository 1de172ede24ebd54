import SqlStyle.Layout
import SqlStyle.Session.Shared

/-! Breaking a run of tokens into a tree of lines, where one token may stand at several places of the run.
A reserved word that is read as the name of a table expression is a name from then on, wherever it
stands: in what is left of the run, and at the head of a line above. -/
namespace SqlStyle.Session
set_option autoImplicit false
open Clause Layout

/-! ## Names -/

/-- The token, which is a name if it bears one of the marks `names`. -/
def asName (names : List Nat) (t : Token) : Token :=
  if t.mark.any names.contains then { t with kind := .identifier } else t

/-- The marks of the names once the run has been read. -/
def namesAfter (names : List Nat) (ts : List Token) : List Nat :=
  let ts := ts.map (asName names)
  ((ts.zip (nameAfterWith ts)).filter fun (old, new) => old.kind != new.kind).filterMap
    (fun (old, _) => old.mark) ++ names

def readRun (names : List Nat) (ts : List Token) : List Token :=
  (nameAfterWith (ts.map (asName names))).map (asName (namesAfter names ts))

theorem length_readRun (names : List Nat) (ts : List Token) :
    (readRun names ts).length = ts.length := by
  rw [readRun, List.length_map, length_nameAfterWith, List.length_map]

def namedPlace (names : List Nat) (place : Place) : Place :=
  { place with parent? := place.parent?.map fun p => { p with head? := p.head?.map (asName names) } }

/-! ## Growth -/

/-- The split of a run in its place. The rule is chosen before the run is read: a `WITH` that is its own
name begins a table expression all the same. -/
def splitRun (names : List Nat) (place : Place) (ts : List Token) : Except Fault Split :=
  if ((ts.map (asName names)).head?.any fun t => t.kind.isReserved && t.key == "WITH") then
    splitWith (readRun names ts)
  else split (namedPlace names place) (readRun names ts)

theorem splitRun_fits (names : List Nat) (place : Place) (ts : List Token) (short : Split)
    (h : splitRun names place ts = .ok short) : short = .whole [] ∨ short.Fits ts.length := by
  rw [← length_readRun names ts]
  unfold splitRun at h
  split at h
  · cases hr : readRun names ts with
    | nil =>
      rw [hr] at h
      exact .inl (Except.ok.inj h).symm
    | cons t rest => exact .inr (splitWith_fits t rest short (hr ▸ h))
  · exact split_nil_or_fits _ _ short h

/-- What grows from each member of a list, one after the other, up to the first fault, with a state that
is passed on. -/
def collectWith {α β σ : Type} (f : α → σ → Edit (List β) × σ) :
    List α → σ → Edit (List β) × σ
  | [], state => (⟨[], none⟩, state)
  | a :: as, state =>
    let (e, state) := f a state
    match e.fault? with
    | some fault => (⟨e.value, some fault⟩, state)
    | none =>
      let (rest, state) := collectWith f as state
      (rest.map (e.value ++ ·), state)

/-- The trees that a run grows into, and the marks of all names that were read. -/
def grow (s : Settings) (place : Place) (number : Nat) (ts : List Token) (names : List Nat) :
    Edit (List Tree) × List Nat :=
  let p := planFrom s place.depth (readRun names ts) (splitRun names place ts)
  let names := namesAfter names ts
  match p.fault? with
  | some fault => (⟨[sprout place number p.value.own []], some fault⟩, names)
  | none =>
    let (leaves, names) := collectWith
      (fun run names => grow s (placeBelow place p.value.own) 0 run.1 names)
      p.value.children.attach names
    let tree := sprout place number p.value.own leaves.value
    match leaves.fault? with
    | some fault => (⟨[tree], some fault⟩, names)
    | none =>
      if place.parent?.isNone && !p.value.siblings.isEmpty then (⟨[tree], some .noParent⟩, names)
      else
        let (next, names) := collectWith (fun run names => grow s place 0 run.1 names)
          p.value.siblings.attach names
        (next.map (tree :: ·), names)
termination_by ts.length
decreasing_by
  · exact planFrom_fits s _ _ _ run.1 _ (splitRun_fits _ place ts) (.inl run.2)
  · exact planFrom_fits s _ _ _ run.1 _ (splitRun_fits _ place ts) (.inr run.2)

/-! ## Runs that stay whole -/

def firstPlace : Place :=
  ⟨1, some ⟨0, none⟩⟩

def leavesWhole (ts : List Token) : Except Fault Split → Bool
  | .ok c => c == .whole ts
  | .error _ => false

/-- The run is cut behind a comma or a comment, be it the last token. -/
def cutsBehind (ts : List Token) : Bool :=
  (cutTop (fun t => t.kind == .comma || t.kind == .comment) 0 ts).isSome

/-- The run is copied even if nothing is cut off: a join, and a run that begins with a bracket or an
operator and ends where it would be cut. -/
def copies (head : Token) (ts : List Token) : Bool :=
  (head.kind.isReserved && joinWords.contains head.key) ||
    ((head.kind == .leftBracket || head.kind == .operator) && cutsBehind ts)

/-- The run is laid out as the line that it is. A branch of a case that is too long is copied even if
nothing is cut off. -/
def staysWhole (s : Settings) (ts : List Token) : Bool :=
  match ts with
  | [] => false
  | head :: _ =>
    !copies head ts && leavesWhole ts (split firstPlace ts) &&
      (width s 1 ts ≤ s.maxLineLength || (head.key != "WHEN" && leavesWhole ts (splitLong ts)))

end SqlStyle.Session
