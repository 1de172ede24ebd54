import SqlStyle.Tree

/-! Building a tree line by line. The vertices are numbered in the order in which they are made, and each knows
the vertex above it and the vertices below it. A new line climbs from the line before it, parent after
parent, past all vertices that are not indented less (`climb`), and becomes a leaf where it stops (`add`). -/
namespace SqlStyle
set_option autoImplicit false

/-- A node, the number of its parent and the numbers of its leaves. -/
structure Vertex where
  node : Node
  parent? : Option Nat
  leaves : List Nat

def Vertex.withLeaf (l : Nat) (v : Vertex) : Vertex :=
  { v with leaves := v.leaves ++ [l] }

/-- The vertices made so far, and the one from which the next line climbs. Numbers grow from a vertex to its
leaves. -/
structure Vertices where
  all : List Vertex
  current : Fin all.length
  parent_lt : ∀ (i : Nat) (v : Vertex) (p : Nat), all[i]? = some v → v.parent? = some p → p < i
  lt_leaf : ∀ (i : Nat) (v : Vertex), all[i]? = some v → ∀ l ∈ v.leaves, i < l ∧ l < all.length

namespace Vertices

/-! ## One line -/

/-- The vertex at which a line with the given indent stops if it climbs from the vertex `i`. -/
def climb (vs : Vertices) (indent : Nat) (i : Fin vs.all.length) :
    Except Fault (Fin vs.all.length) :=
  if indent ≤ (vs.all.get i).node.indent ∧ 0 < (vs.all.get i).node.depth then
    match h : (vs.all.get i).parent? with
    | none => .error .noParent
    | some p => climb vs indent ⟨p, Nat.lt_trans (vs.parent_lt i _ p (List.getElem?_eq_getElem i.2) h) i.2⟩
  else .ok i
termination_by i.val
decreasing_by exact vs.parent_lt i _ p (List.getElem?_eq_getElem i.2) h

/-- The vertices with one more, which is a leaf of the vertex `p`. -/
def attach (all : List Vertex) (p : Nat) (node : Node) : List Vertex :=
  all.modify p (Vertex.withLeaf all.length) ++ [⟨node, some p, []⟩]

theorem length_attach (all : List Vertex) (p : Nat) (node : Node) :
    (attach all p node).length = all.length + 1 := by
  simp [attach]

theorem getElem?_attach (all : List Vertex) (p i : Nat) (node : Node) (v : Vertex)
    (h : (attach all p node)[i]? = some v) :
    (i = all.length ∧ v = ⟨node, some p, []⟩) ∨
      ∃ u, all[i]? = some u ∧ v = if p = i then u.withLeaf all.length else u := by
  rcases Nat.lt_or_ge i all.length with hi | hi
  · rw [attach, List.getElem?_append_left (by simpa using hi), List.getElem?_modify,
      Option.map_eq_map, Option.map_eq_some_iff] at h
    obtain ⟨u, hu, rfl⟩ := h
    exact .inr ⟨u, hu, rfl⟩
  · have hlt : i < (attach all p node).length := (List.getElem?_eq_some_iff.1 h).1
    rw [length_attach] at hlt
    have he : i = all.length := by omega
    subst he
    rw [attach, List.getElem?_append_right (by simp)] at h
    exact .inl ⟨rfl, by simpa using h.symm⟩

/-- A line as a new leaf of the vertex `p`. The next line climbs from it. -/
def add (condensed : Bool) (vs : Vertices) (line : Line) (p : Fin vs.all.length) : Vertices where
  all := attach vs.all p ⟨line, (vs.all.get p).node.depth + 1, condensed, none⟩
  current := ⟨vs.all.length, by rw [length_attach]; omega⟩
  parent_lt := by
    intro i v q hv hq
    obtain ⟨rfl, rfl⟩ | ⟨u, hu, rfl⟩ := getElem?_attach _ _ _ _ _ hv
    · obtain rfl := Option.some.inj hq
      exact p.2
    · refine vs.parent_lt i u q hu ?_
      split at hq <;> exact hq
  lt_leaf := by
    intro i v hv l hl
    rw [length_attach]
    obtain ⟨rfl, rfl⟩ | ⟨u, hu, rfl⟩ := getElem?_attach _ _ _ _ _ hv
    · simp at hl
    · have hi : i < vs.all.length := (List.getElem?_eq_some_iff.1 hu).1
      have hold := vs.lt_leaf i u hu l
      split at hl
      · rcases List.mem_append.1 hl with hl | hl
        · have := hold hl
          omega
        · rw [List.mem_singleton] at hl
          omega
      · have := hold hl
        omega

def step (condensed : Bool) (vs : Vertices) (line : Line) : Except Fault Vertices :=
  (vs.climb line.indent vs.current).map (vs.add condensed line)

/-! ## All lines -/

def start (condensed : Bool) : Vertices where
  all := [⟨Tree.top condensed, none, []⟩]
  current := ⟨0, Nat.one_pos⟩
  parent_lt := by
    intro i v p hv hp
    rw [List.getElem?_singleton] at hv
    split at hv
    · obtain rfl := Option.some.inj hv
      cases hp
    · cases hv
  lt_leaf := by
    intro i v hv l hl
    rw [List.getElem?_singleton] at hv
    split at hv
    · obtain rfl := Option.some.inj hv
      cases hl
    · cases hv

def plant (condensed : Bool) (lines : List Line) : Except Fault Vertices :=
  lines.foldlM (step condensed) (start condensed)

/-- The tree that the leaves of the vertex `i`, their leaves and so on make. -/
def treeAt (vs : Vertices) (i : Fin vs.all.length) : Tree :=
  .node (vs.all.get i).node ((vs.all.get i).leaves.attach.map fun l =>
    treeAt vs ⟨l.1, (vs.lt_leaf i _ (List.getElem?_eq_getElem i.2) l.1 l.2).2⟩)
termination_by vs.all.length - i.val
decreasing_by
  have := vs.lt_leaf i _ (List.getElem?_eq_getElem i.2) l.1 l.2
  show vs.all.length - l.1 < vs.all.length - i.val
  omega

def tree (vs : Vertices) : Tree :=
  vs.treeAt ⟨0, Nat.zero_lt_of_lt vs.current.2⟩

end Vertices
end SqlStyle
