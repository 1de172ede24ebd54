import SqlStyle.Clause.Shrink
import SqlStyle.Layout.Spaces
import SqlStyle.Settings
import SqlStyle.Tree

/-! Breaking a run of tokens into a tree of lines: the run is split into a line, the runs below it and
the runs after it, and these are broken in turn. A line that comes out too long is split once more. -/
namespace SqlStyle.Layout
set_option autoImplicit false
open Clause

/-! ## One line -/

structure Plan where
  own : List Token
  children : List (List Token) := []
  siblings : List (List Token) := []

def width (s : Settings) (depth : Int) (ts : List Token) : Int :=
  spacedLength ts + s.indentSteps * (depth - 1)

def filled (runs : List (List Token)) : List (List Token) :=
  runs.filter fun ts => !ts.isEmpty

/-- The plan for a run at a given depth, once it is split: a line that is too long is split once more. A
run that cannot be split is kept as `ts`. -/
def planFrom (s : Settings) (depth : Int) (ts : List Token) : Except Fault Split → Edit Plan
  | .error fault => ⟨{ own := ts }, some fault⟩
  | .ok short =>
    if width s depth short.own ≤ s.maxLineLength then
      ⟨⟨short.own, filled short.children, filled [short.sibling]⟩, none⟩
    else
      match splitLong short.own with
      | .error fault => ⟨{ own := short.own }, some fault⟩
      | .ok long =>
        ⟨⟨long.own, filled (long.children ++ short.children),
          filled [long.sibling, short.sibling]⟩, none⟩

def plan (s : Settings) (place : Place) (ts : List Token) : Edit Plan :=
  planFrom s place.depth (nameAfterWith ts) (split place ts)

theorem mem_of_mem_filled {runs : List (List Token)} {run : List Token} (h : run ∈ filled runs) :
    run ∈ runs :=
  (List.mem_filter.1 h).1

theorem planFrom_nil (s : Settings) (depth : Int) (ts : List Token) :
    (planFrom s depth ts (.ok (.whole []))).value.children = [] ∧
      (planFrom s depth ts (.ok (.whole []))).value.siblings = [] := by
  by_cases hw : width s depth [] ≤ s.maxLineLength <;>
    simp [planFrom, Split.whole, splitLong, filled, hw]

theorem planFrom_fits (s : Settings) (depth : Int) (n : Nat) (ts run : List Token)
    (result : Except Fault Split)
    (hfit : ∀ short, result = .ok short → short = .whole [] ∨ short.Fits n)
    (h : run ∈ (planFrom s depth ts result).value.children ∨
      run ∈ (planFrom s depth ts result).value.siblings) : run.length < n := by
  cases result with
  | error fault => simp [planFrom] at h
  | ok short =>
    rcases hfit short rfl with rfl | fits
    · rw [(planFrom_nil s depth ts).1, (planFrom_nil s depth ts).2] at h
      simp at h
    · simp only [planFrom] at h
      split at h
      · rcases h with h | h
        · exact fits.children run (mem_of_mem_filled h)
        · have := mem_of_mem_filled h
          rw [List.mem_singleton] at this
          exact this ▸ fits.sibling
      · split at h
        · simp at h
        · next long hl =>
          have longFits := splitLong_fits short.own long hl
          have hown := fits.own
          rcases h with h | h
          · rcases List.mem_append.1 (mem_of_mem_filled h) with h | h
            · exact Nat.lt_of_lt_of_le (longFits.children run h) hown
            · exact fits.children run h
          · have := mem_of_mem_filled h
            simp only [List.mem_cons, List.not_mem_nil, or_false] at this
            rcases this with rfl | rfl
            · exact Nat.lt_of_lt_of_le longFits.sibling hown
            · exact fits.sibling

theorem split_nil_or_fits (place : Place) (ts : List Token) (short : Split)
    (h : split place ts = .ok short) : short = .whole [] ∨ short.Fits ts.length := by
  by_cases hne : ts = []
  · subst hne
    exact .inl (Except.ok.inj h).symm
  · exact .inr (split_fits place ts short hne h)

theorem plan_fits (s : Settings) (place : Place) (ts run : List Token)
    (h : run ∈ (plan s place ts).value.children ∨ run ∈ (plan s place ts).value.siblings) :
    run.length < ts.length :=
  planFrom_fits s place.depth ts.length _ run _ (split_nil_or_fits place ts) h

/-! ## The whole tree -/

/-- What grows from each member of a list, one after the other, up to the first fault. -/
def collect {α β : Type} (f : α → Edit (List β)) : List α → Edit (List β)
  | [] => ⟨[], none⟩
  | a :: as =>
    let e := f a
    match e.fault? with
    | some fault => ⟨e.value, some fault⟩
    | none => (collect f as).map (e.value ++ ·)

def sprout (place : Place) (number : Nat) (own : List Token) (leaves : List Tree) : Tree :=
  .node ⟨⟨number, own⟩, place.depth, true, none⟩ leaves

def placeBelow (place : Place) (own : List Token) : Place :=
  ⟨place.depth + 1, some ⟨place.depth, own.head?⟩⟩

/-- The trees that a run grows into: the tree of its first line, and the trees that follow it under the
same parent. The first line bears the given number. -/
def grow (s : Settings) (place : Place) (number : Nat) (ts : List Token) : Edit (List Tree) :=
  let p := plan s place ts
  match p.fault? with
  | some fault => ⟨[sprout place number p.value.own []], some fault⟩
  | none =>
    let leaves := collect (fun run => grow s (placeBelow place p.value.own) 0 run.1)
      p.value.children.attach
    let tree := sprout place number p.value.own leaves.value
    match leaves.fault? with
    | some fault => ⟨[tree], some fault⟩
    | none =>
      if place.parent?.isNone && !p.value.siblings.isEmpty then ⟨[tree], some .noParent⟩
      else (collect (fun run => grow s place 0 run.1) p.value.siblings.attach).map (tree :: ·)
termination_by ts.length
decreasing_by
  · exact plan_fits s place ts run.1 (.inl run.2)
  · exact plan_fits s place ts run.1 (.inr run.2)

theorem collect_attach {α β : Type} (f : α → Edit (List β)) (as : List α) :
    collect (fun a => f a.1) as.attach = collect f as := by
  suffices h : ∀ (bs : List α) (g : α → Edit (List β)) (P : α → Prop) (hP : ∀ b ∈ bs, P b),
      collect (fun a : { x // P x } => g a.1) (bs.attachWith P hP) = collect g bs from
    h as f (· ∈ as) (fun _ hb => hb)
  intro bs g P hP
  induction bs with
  | nil => rfl
  | cons b bs ih => simp only [List.attachWith_cons, collect, ih]

/-- One step of growth: the first line of a run, if `next` tells how the runs below and after it grow. -/
def growStep (s : Settings) (next : Place → Nat → List Token → Edit (List Tree)) (place : Place)
    (number : Nat) (ts : List Token) : Edit (List Tree) :=
  let p := plan s place ts
  match p.fault? with
  | some fault => ⟨[sprout place number p.value.own []], some fault⟩
  | none =>
    let leaves := collect (next (placeBelow place p.value.own) 0) p.value.children
    let tree := sprout place number p.value.own leaves.value
    match leaves.fault? with
    | some fault => ⟨[tree], some fault⟩
    | none =>
      if place.parent?.isNone && !p.value.siblings.isEmpty then ⟨[tree], some .noParent⟩
      else (collect (next place 0) p.value.siblings).map (tree :: ·)

theorem grow_eq (s : Settings) (place : Place) (number : Nat) (ts : List Token) :
    grow s place number ts = growStep s (grow s) place number ts := by
  rw [grow]
  simp only [growStep, collect_attach (grow s (placeBelow place (plan s place ts).value.own) 0),
    collect_attach (grow s place 0)]

end SqlStyle.Layout
