import SqlStyle.Proofs.Tree.Tokens

/-! The shape of trees. Changing every node keeps the shape (`mapForest`), and so does a pass that moves
tokens between the lines of a list of trees, whose result is `Paired` with the trees it started from. What
the shape and the nodes one by one tell carries over: the depth of each node under its parent
(`Stepped`), and what holds of every line. -/
namespace SqlStyle.Tree
set_option autoImplicit false

/-! ## Changing every node -/

mutual

def mapTree (g : Node → Node) : Tree → Tree
  | node n ts => node (g n) (mapForest g ts)

def mapForest (g : Node → Node) : List Tree → List Tree
  | [] => []
  | t :: ts => mapTree g t :: mapForest g ts

end

@[simp] theorem mapForest_nil (g : Node → Node) : mapForest g [] = [] := by
  rw [mapForest]

@[simp] theorem mapForest_cons (g : Node → Node) (n : Node) (ls rest : List Tree) :
    mapForest g (node n ls :: rest) = node (g n) (mapForest g ls) :: mapForest g rest := by
  rw [mapForest, mapTree]

theorem mapForest_mapForest (f g : Node → Node) (ts : List Tree) :
    mapForest g (mapForest f ts) = mapForest (fun n => g (f n)) ts := by
  induction ts using forestInduction with
  | nil => simp only [mapForest_nil]
  | cons n ls rest ihl ihr => simp only [mapForest_cons, ihl, ihr]

theorem mapForest_append (g : Node → Node) (ts us : List Tree) :
    mapForest g (ts ++ us) = mapForest g ts ++ mapForest g us := by
  induction ts with
  | nil => rw [mapForest_nil, List.nil_append, List.nil_append]
  | cons t ts ih => rw [List.cons_append, mapForest, mapForest, ih, List.cons_append]

theorem mapForest_flatMap {α : Type} (f : Node → Node) (as : List α) (h : α → List Tree) :
    mapForest f (as.flatMap h) = as.flatMap fun a => mapForest f (h a) := by
  induction as with
  | nil => rw [List.flatMap_nil, mapForest_nil, List.flatMap_nil]
  | cons a as ih => rw [List.flatMap_cons, mapForest_append, ih, List.flatMap_cons]

theorem forestNodes_node_cons (n : Node) (ls rest : List Tree) :
    forestNodes (node n ls :: rest) = n :: (forestNodes ls ++ forestNodes rest) := by
  rw [forestNodes, nodes, List.cons_append]

theorem forall_mem_forestNodes_cons (p : Node → Prop) (n : Node) (ls rest : List Tree) :
    (∀ m ∈ forestNodes (node n ls :: rest), p m) ↔
      p n ∧ (∀ m ∈ forestNodes ls, p m) ∧ ∀ m ∈ forestNodes rest, p m := by
  rw [forestNodes_node_cons, List.forall_mem_cons, List.forall_mem_append]

theorem mapForest_congr {f g : Node → Node} {ts : List Tree} (h : ∀ n ∈ forestNodes ts, f n = g n) :
    mapForest f ts = mapForest g ts := by
  induction ts using forestInduction with
  | nil => simp only [mapForest_nil]
  | cons n ls rest ihl ihr =>
    obtain ⟨hn, hl, hr⟩ := (forall_mem_forestNodes_cons _ n ls rest).1 h
    simp only [mapForest_cons, hn, ihl hl, ihr hr]

theorem forestNodes_append (ts us : List Tree) :
    forestNodes (ts ++ us) = forestNodes ts ++ forestNodes us := by
  induction ts with
  | nil => rfl
  | cons t ts ih => rw [List.cons_append, forestNodes_cons, forestNodes_cons, ih, List.append_assoc]

theorem forestNodes_flatMap {α : Type} (f : α → List Tree) (as : List α) :
    forestNodes (as.flatMap f) = as.flatMap fun a => forestNodes (f a) := by
  induction as with
  | nil => rw [List.flatMap_nil, List.flatMap_nil, forestNodes]
  | cons a as ih => rw [List.flatMap_cons, List.flatMap_cons, forestNodes_append, ih]

theorem forall_mem_forestSubtrees_root (p : Node → Prop) (ts : List Tree) :
    (∀ t ∈ forestSubtrees ts, p t.root) ↔ ∀ n ∈ forestNodes ts, p n := by
  induction ts using forestInduction with
  | nil => simp [forestSubtrees, forestNodes]
  | cons n ls rest ihl ihr =>
    rw [forall_mem_forestSubtrees_cons, forall_mem_forestNodes_cons, ihl, ihr]
    rfl

theorem forestNodes_mapForest (g : Node → Node) (ts : List Tree) :
    forestNodes (mapForest g ts) = (forestNodes ts).map g := by
  induction ts using forestInduction with
  | nil => rfl
  | cons n ls rest ihl ihr =>
    rw [mapForest_cons, forestNodes_node_cons, forestNodes_node_cons, ihl, ihr, List.map_cons,
      List.map_append]

theorem forall_mem_roots {p : Node → Prop} {ts : List Tree} (h : ∀ n ∈ forestNodes ts, p n) :
    ∀ t ∈ ts, p t.root := by
  induction ts with
  | nil => simp
  | cons t ts ih =>
    obtain ⟨n, ls⟩ := t
    rw [forall_mem_forestNodes_cons] at h
    exact List.forall_mem_cons.2 ⟨h.1, ih h.2.2⟩

/-! ## Trees of the same shape -/

/-- Trees of the same shape whose nodes are related one by one. -/
inductive Paired (R : Node → Node → Prop) : List Tree → List Tree → Prop where
  | nil : Paired R [] []
  | cons {n m : Node} {ls ks rest others : List Tree} (root : R n m) (below : Paired R ls ks)
      (after : Paired R rest others) : Paired R (node n ls :: rest) (node m ks :: others)

theorem paired_self {R : Node → Node → Prop} (ts : List Tree) (h : ∀ n ∈ forestNodes ts, R n n) :
    Paired R ts ts := by
  induction ts using forestInduction with
  | nil => exact .nil
  | cons n ls rest ihl ihr =>
    rw [forall_mem_forestNodes_cons] at h
    exact .cons h.1 (ihl h.2.1) (ihr h.2.2)

theorem paired_mapForest (g : Node → Node) (ts : List Tree) :
    Paired (fun n m => m = g n) ts (mapForest g ts) := by
  induction ts using forestInduction with
  | nil => exact .nil
  | cons n ls rest ihl ihr =>
    rw [mapForest_cons]
    exact .cons rfl ihl ihr

theorem Paired.imp {R S : Node → Node → Prop} {ts us : List Tree} (h : Paired R ts us)
    (himp : ∀ n m, R n m → S n m) : Paired S ts us := by
  induction h with
  | nil => exact .nil
  | cons root _ _ below after => exact .cons (himp _ _ root) below after

theorem Paired.forall_nodes {R : Node → Node → Prop} {ts us : List Tree} (h : Paired R ts us)
    {P Q : Node → Prop} (step : ∀ n m, R n m → P n → Q m) (hp : ∀ n ∈ forestNodes ts, P n) :
    ∀ m ∈ forestNodes us, Q m := by
  induction h with
  | nil => simp [forestNodes]
  | cons root _ _ ihBelow ihAfter =>
    rw [forall_mem_forestNodes_cons] at hp ⊢
    exact ⟨step _ _ root hp.1, ihBelow hp.2.1, ihAfter hp.2.2⟩

/-! ## Depths -/

/-- The trees have the given depth at their tops, and every node lies one deeper than the node above. -/
inductive Stepped : Int → List Tree → Prop where
  | nil (depth : Int) : Stepped depth []
  | cons {n : Node} {ls rest : List Tree} (below : Stepped (n.depth + 1) ls)
      (after : Stepped n.depth rest) : Stepped n.depth (node n ls :: rest)

theorem stepped_cons (depth : Int) (n : Node) (ls rest : List Tree) :
    Stepped depth (node n ls :: rest) ↔
      n.depth = depth ∧ Stepped (depth + 1) ls ∧ Stepped depth rest := by
  constructor
  · rintro ⟨⟩
    exact ⟨rfl, ‹_›, ‹_›⟩
  · rintro ⟨rfl, below, after⟩
    exact .cons below after

theorem stepped_append (depth : Int) (ts us : List Tree) :
    Stepped depth (ts ++ us) ↔ Stepped depth ts ∧ Stepped depth us := by
  induction ts with
  | nil => simp [Stepped.nil]
  | cons t ts ih =>
    obtain ⟨n, ls⟩ := t
    simp only [List.cons_append, stepped_cons, ih, and_assoc]

theorem stepped_flatMap {α : Type} (depth : Int) (f : α → List Tree) (as : List α)
    (h : ∀ a ∈ as, Stepped depth (f a)) : Stepped depth (as.flatMap f) := by
  induction as with
  | nil => exact .nil depth
  | cons a as ih =>
    obtain ⟨ha, has⟩ := List.forall_mem_cons.1 h
    rw [List.flatMap_cons, stepped_append]
    exact ⟨ha, ih has⟩

theorem Paired.stepped {R : Node → Node → Prop} {ts us : List Tree} (h : Paired R ts us)
    (hdepth : ∀ n m, R n m → m.depth = n.depth) (depth : Int) (hs : Stepped depth ts) :
    Stepped depth us := by
  induction h generalizing depth with
  | nil => exact .nil depth
  | cons root _ _ ihBelow ihAfter =>
    rw [stepped_cons] at hs ⊢
    exact ⟨(hdepth _ _ root).trans hs.1, ihBelow _ hs.2.1, ihAfter _ hs.2.2⟩

theorem Stepped.root_depth {depth : Int} {ts : List Tree} (h : Stepped depth ts) :
    ∀ t ∈ ts, t.root.depth = depth := by
  induction ts with
  | nil => simp
  | cons t ts ih =>
    obtain ⟨n, ls⟩ := t
    rw [stepped_cons] at h
    exact List.forall_mem_cons.2 ⟨h.1, ih h.2.2⟩

theorem Stepped.leaf_depth {depth : Int} {ts : List Tree} (h : Stepped depth ts) :
    ∀ t ∈ forestSubtrees ts, ∀ leaf ∈ t.leaves, leaf.root.depth = t.root.depth + 1 := by
  induction ts using forestInduction generalizing depth with
  | nil => simp [forestSubtrees]
  | cons n ls rest ihl ihr =>
    obtain ⟨hn, hbelow, hafter⟩ := (stepped_cons _ _ _ _).1 h
    rw [forall_mem_forestSubtrees_cons]
    refine ⟨?_, ihl hbelow, ihr hafter⟩
    intro leaf hleaf
    rw [root, hn]
    exact hbelow.root_depth leaf hleaf

theorem Stepped.le_depth {depth : Int} {ts : List Tree} (h : Stepped depth ts) :
    ∀ n ∈ forestNodes ts, depth ≤ n.depth := by
  induction ts using forestInduction generalizing depth with
  | nil => simp [forestNodes]
  | cons n ls rest ihl ihr =>
    obtain ⟨hn, hbelow, hafter⟩ := (stepped_cons _ _ _ _).1 h
    rw [forall_mem_forestNodes_cons]
    refine ⟨Int.le_of_eq hn.symm, ?_, ihr hafter⟩
    intro m hm
    have := ihl hbelow m hm
    omega

end SqlStyle.Tree
