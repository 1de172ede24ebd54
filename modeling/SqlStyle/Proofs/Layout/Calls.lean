import Mathlib.Logic.ExistsUnique
import SqlStyle.Layout.Growth
import SqlStyle.Proofs.Clause.Begin

/-! Growth, call by call. A call of growth grows one run in one place, and calls growth for the runs
below and after its first line (`callees`). All these are shorter, so the calls of a whole run are
finitely many (`calls`), and growth is the one function that satisfies its own equation
(`eq_grow_of_eq_growStep`). A call without a fault makes calls without a fault, and puts together what they
return (`grow_ok`). -/
namespace SqlStyle.Layout
set_option autoImplicit false
open Clause

/-! ## Calls -/

/-- A call of growth: a run, and the place where it grows. -/
structure Call where
  place : Place
  run : List Token

/-- The calls that a call makes itself: for the runs below its line, then for the runs after it. -/
def callees (s : Settings) (c : Call) : List Call :=
  let p := (plan s c.place c.run).value
  p.children.map (Call.mk (placeBelow c.place p.own)) ++ p.siblings.map (Call.mk c.place)

theorem mem_callees_below (s : Settings) (c : Call) (run : List Token)
    (h : run ∈ (plan s c.place c.run).value.children) :
    ⟨placeBelow c.place (plan s c.place c.run).value.own, run⟩ ∈ callees s c :=
  List.mem_append_left _ (List.mem_map_of_mem h)

theorem mem_callees_after (s : Settings) (c : Call) (run : List Token)
    (h : run ∈ (plan s c.place c.run).value.siblings) : ⟨c.place, run⟩ ∈ callees s c :=
  List.mem_append_right _ (List.mem_map_of_mem h)

theorem length_lt_of_mem_callees (s : Settings) (c d : Call) (h : d ∈ callees s c) :
    d.run.length < c.run.length := by
  rcases List.mem_append.1 h with h | h
  · obtain ⟨run, hr, rfl⟩ := List.mem_map.1 h
    exact plan_fits s c.place c.run run (.inl hr)
  · obtain ⟨run, hr, rfl⟩ := List.mem_map.1 h
    exact plan_fits s c.place c.run run (.inr hr)

theorem callees_wellFounded (s : Settings) : WellFounded fun d c : Call => d ∈ callees s c := by
  have hlt : WellFounded fun d c : Call => d.run.length < c.run.length :=
    (measure fun c : Call => c.run.length).wf
  exact Subrelation.wf (fun {d c} h => length_lt_of_mem_callees s c d h) hlt

/-- The calls of a whole run of growth, in the order in which they are made. -/
def calls (s : Settings) (c : Call) : List Call :=
  c :: (callees s c).attach.flatMap fun d => calls s d.1
termination_by c.run.length
decreasing_by exact length_lt_of_mem_callees s c d.1 d.2

theorem calls_eq (s : Settings) (c : Call) : calls s c = c :: (callees s c).flatMap (calls s) := by
  have h := List.flatMap_map Subtype.val (calls s) (callees s c).attach
  rw [List.attach_map_subtype_val] at h
  rw [calls, h]

theorem mem_calls_self (s : Settings) (c : Call) : c ∈ calls s c := by
  rw [calls_eq]
  exact List.mem_cons_self

theorem mem_calls_of_callee (s : Settings) (c d e : Call) (hd : d ∈ callees s c)
    (he : e ∈ calls s d) : e ∈ calls s c := by
  rw [calls_eq]
  exact List.mem_cons_of_mem c (List.mem_flatMap.2 ⟨d, hd, he⟩)

/-! ## The equation of growth -/

theorem collect_congr {α β : Type} (f g : α → Edit (List β)) (as : List α)
    (h : ∀ a ∈ as, f a = g a) : collect f as = collect g as := by
  induction as with
  | nil => rfl
  | cons a as ih =>
    have ha : f a = g a := h a List.mem_cons_self
    have has : collect f as = collect g as := ih fun b hb => h b (List.mem_cons_of_mem a hb)
    simp only [collect, ha, has]

theorem growStep_congr (s : Settings) (f g : Place → Nat → List Token → Edit (List Tree))
    (place : Place) (number : Nat) (ts : List Token)
    (h : ∀ d ∈ callees s ⟨place, ts⟩, f d.place 0 d.run = g d.place 0 d.run) :
    growStep s f place number ts = growStep s g place number ts := by
  have below : collect (f (placeBelow place (plan s place ts).value.own) 0)
        (plan s place ts).value.children =
      collect (g (placeBelow place (plan s place ts).value.own) 0)
        (plan s place ts).value.children := by
    apply collect_congr
    intro run hr
    exact h _ (mem_callees_below s ⟨place, ts⟩ run hr)
  have after : collect (f place 0) (plan s place ts).value.siblings =
      collect (g place 0) (plan s place ts).value.siblings := by
    apply collect_congr
    intro run hr
    exact h _ (mem_callees_after s ⟨place, ts⟩ run hr)
  simp only [growStep, below, after]

/-- Growth is the only function that satisfies its equation. -/
theorem eq_grow_of_eq_growStep (s : Settings)
    (f : Place → Nat → List Token → Edit (List Tree)) (hf : f = growStep s f) : f = grow s := by
  suffices h : ∀ (c : Call) (number : Nat), f c.place number c.run = grow s c.place number c.run by
    funext place number ts
    exact h ⟨place, ts⟩ number
  intro c
  induction c using (callees_wellFounded s).induction with
  | _ c ih =>
    intro number
    calc f c.place number c.run
      _ = growStep s f c.place number c.run := congrFun (congrFun (congrFun hf c.place) number) c.run
      _ = growStep s (grow s) c.place number c.run :=
        growStep_congr s f (grow s) c.place number c.run fun d hd => ih d hd 0
      _ = grow s c.place number c.run := (grow_eq s c.place number c.run).symm

/-- Growth ends. A split keeps a part of the run that is not empty on its line, and what it puts below and
after the line is shorter than the run; so is what a line that is too long is broken into. Hence the calls
of growth are well-founded, those of a run are finitely many, and its equation has one solution. -/
theorem growth_wellFounded :
    (∀ (place : Place) (ts : List Token) (short : Split), ts ≠ [] → split place ts = .ok short →
        short.own ≠ [] ∧ short.own <+: nameAfterWith ts ∧
          (∀ child ∈ short.children, child.length < ts.length) ∧
          short.sibling.length < ts.length) ∧
      (∀ (own : List Token) (long : Split), own ≠ [] → splitLong own = .ok long →
        long.own ≠ [] ∧ (∀ child ∈ long.children, child.length < own.length) ∧
          long.sibling.length < own.length) ∧
      (∀ s : Settings, WellFounded fun d c : Call => d ∈ callees s c) ∧
      (∀ (s : Settings) (c : Call), calls s c = c :: (callees s c).flatMap (calls s)) ∧
      (∀ s : Settings, ∃! f, f = growStep s f) := by
  refine ⟨?_, ?_, callees_wellFounded, calls_eq, ?_⟩
  · intro place ts short hne h
    have begins := split_begins place ts short hne h
    have fits := split_fits place ts short hne h
    exact ⟨begins.own_ne_nil, begins.own_prefix, fits.children, fits.sibling⟩
  · intro own long hne h
    have begins := splitLong_begins own long h
    have fits := splitLong_fits own long h
    exact ⟨begins.own_ne_nil, fits.children, fits.sibling⟩
  · intro s
    refine ⟨grow s, ?_, fun f hf => eq_grow_of_eq_growStep s f hf⟩
    funext place number ts
    exact grow_eq s place number ts

/-! ## Growth without a fault -/

/-- What becomes of a line: it stays as it is if it fits, and is split once more if it is too long. -/
def breakLine (s : Settings) (depth : Int) (own : List Token) : Except Fault Split :=
  if width s depth own ≤ s.maxLineLength then .ok (.whole own) else splitLong own

theorem breakLine_cases (s : Settings) (depth : Int) (own : List Token) (long : Split)
    (h : breakLine s depth own = .ok long) : long = .whole own ∨ splitLong own = .ok long := by
  unfold breakLine at h
  split at h
  · cases h
    exact .inl rfl
  · exact .inr h

theorem plan_ok (s : Settings) (place : Place) (ts : List Token)
    (h : (plan s place ts).fault? = none) :
    ∃ short long, split place ts = .ok short ∧ breakLine s place.depth short.own = .ok long ∧
      (plan s place ts).value = ⟨long.own, filled (long.children ++ short.children),
        filled [long.sibling, short.sibling]⟩ := by
  unfold plan at h ⊢
  cases hs : split place ts with
  | error fault => simp [hs, planFrom] at h
  | ok short =>
    rw [hs] at h
    simp only [planFrom] at h ⊢
    by_cases hw : width s place.depth short.own ≤ s.maxLineLength
    · refine ⟨short, .whole short.own, rfl, by rw [breakLine, if_pos hw], ?_⟩
      simp [hw, Split.whole, filled]
    · rw [if_neg hw] at h ⊢
      cases hl : splitLong short.own with
      | error fault => simp [hl] at h
      | ok long => exact ⟨short, long, rfl, by rw [breakLine, if_neg hw, hl], rfl⟩

theorem collect_ok {α β : Type} (f : α → Edit (List β)) (as : List α)
    (h : (collect f as).fault? = none) :
    (∀ a ∈ as, (f a).fault? = none) ∧ (collect f as).value = as.flatMap fun a => (f a).value := by
  induction as with
  | nil => exact ⟨by simp, rfl⟩
  | cons a as ih =>
    simp only [collect] at h ⊢
    cases hf : (f a).fault? with
    | some fault => simp [hf] at h
    | none =>
      simp only [hf, Edit.map] at h ⊢
      obtain ⟨hall, hvalue⟩ := ih h
      exact ⟨List.forall_mem_cons.2 ⟨hf, hall⟩, by rw [hvalue, List.flatMap_cons]⟩

/-- A call without a fault makes calls without a fault, and puts together what they return. -/
theorem grow_ok (s : Settings) (place : Place) (number : Nat) (ts : List Token)
    (h : (grow s place number ts).fault? = none) :
    (plan s place ts).fault? = none ∧
      (∀ d ∈ callees s ⟨place, ts⟩, (grow s d.place 0 d.run).fault? = none) ∧
      (grow s place number ts).value =
        sprout place number (plan s place ts).value.own
            ((plan s place ts).value.children.flatMap fun run =>
              (grow s (placeBelow place (plan s place ts).value.own) 0 run).value) ::
          (plan s place ts).value.siblings.flatMap fun run => (grow s place 0 run).value := by
  rw [grow_eq] at h ⊢
  simp only [growStep] at h ⊢
  cases hp : (plan s place ts).fault? with
  | some fault => simp [hp] at h
  | none =>
    simp only [hp] at h ⊢
    cases hc : (collect (grow s (placeBelow place (plan s place ts).value.own) 0)
        (plan s place ts).value.children).fault? with
    | some fault => simp [hc] at h
    | none =>
      simp only [hc] at h ⊢
      split at h
      · simp at h
      · next hparent =>
        rw [if_neg hparent]
        simp only [Edit.map] at h ⊢
        obtain ⟨below, hbelow⟩ := collect_ok _ _ hc
        obtain ⟨after, hafter⟩ := collect_ok _ _ h
        refine ⟨trivial, ?_, by rw [hbelow, hafter]⟩
        intro d hd
        rcases List.mem_append.1 hd with hd | hd
        · obtain ⟨run, hr, rfl⟩ := List.mem_map.1 hd
          exact below run hr
        · obtain ⟨run, hr, rfl⟩ := List.mem_map.1 hd
          exact after run hr

end SqlStyle.Layout
