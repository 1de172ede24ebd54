import SqlStyle.Proofs.Tree.Shape

/-! The tree of a statement is the tree of nearest smaller indents. Built line by line, it never happens that a line
climbs past the top: the vertices of the path from the last line to the top are exactly those that a new line
may come to lie below (`climb_ok`). So each line lies below the nearest line before it that is indented less
(`Nearest`), and read off the leaves the vertices make the tree that `Tree.nest` makes (`tree_built`). -/
namespace SqlStyle
set_option autoImplicit false

namespace Vertices

/-! ## Climbing -/

/-- The top has no parent. The parent of any other vertex is the nearest vertex before it that is indented less,
or the top if there is none, and lies one step less deep. -/
structure Nearest (vs : Vertices) : Prop where
  top : ∀ v, vs.all[0]? = some v → v.parent? = none ∧ v.node.depth = 0
  parent : ∀ (i : Nat) (v : Vertex), vs.all[i]? = some v → 0 < i →
    ∃ p u, v.parent? = some p ∧ p < i ∧ vs.all[p]? = some u ∧ v.node.depth = u.node.depth + 1 ∧
      (p = 0 ∨ u.node.indent < v.node.indent) ∧
      ∀ j w, p < j → j < i → vs.all[j]? = some w → v.node.indent ≤ w.node.indent

theorem getElem?_get (vs : Vertices) (i : Fin vs.all.length) : vs.all[i.val]? = some (vs.all.get i) :=
  List.getElem?_eq_getElem i.2

theorem Nearest.depth_nonneg {vs : Vertices} (h : vs.Nearest) (i : Nat) (v : Vertex)
    (hv : vs.all[i]? = some v) : 0 ≤ v.node.depth := by
  induction i using Nat.strongRecOn generalizing v with
  | ind i ih =>
    by_cases hi : i = 0
    · subst hi
      exact Int.le_of_eq (h.top v hv).2.symm
    · obtain ⟨p, u, -, hp, hu, hdepth, -⟩ := h.parent i v hv (Nat.pos_of_ne_zero hi)
      have := ih p hp u hu
      omega

/-- A line never climbs past the top. If the vertices behind `i` are all indented as far as the line, it stops at
the last vertex up to `i` that is not, or at the top. -/
theorem climb_ok {vs : Vertices} (h : vs.Nearest) (indent : Nat) (i : Fin vs.all.length)
    (hpast : ∀ j w, i.val < j → vs.all[j]? = some w → indent ≤ w.node.indent) :
    ∃ p : Fin vs.all.length, vs.climb indent i = .ok p ∧
      (p.val = 0 ∨ (vs.all.get p).node.indent < indent) ∧
      ∀ j w, p.val < j → vs.all[j]? = some w → indent ≤ w.node.indent := by
  have htop (i : Fin vs.all.length) (hi : ¬ 0 < i.val) :
      (vs.all.get i).parent? = none ∧ (vs.all.get i).node.depth = 0 := by
    apply h.top
    rw [← vs.getElem?_get i, Nat.eq_zero_of_not_pos hi]
  fun_induction climb vs indent i with
  | case1 i hclimbs hnone =>
    exfalso
    by_cases hi : 0 < i.val
    · obtain ⟨p, u, hp, -⟩ := h.parent i _ (vs.getElem?_get i) hi
      rw [hnone] at hp
      cases hp
    · have := (htop i hi).2
      omega
  | case2 i hclimbs p hp ih =>
    apply ih
    intro j w hj hw
    by_cases hi : 0 < i.val
    · obtain ⟨q, u, hq, -, -, -, -, hbetween⟩ := h.parent i _ (vs.getElem?_get i) hi
      obtain rfl : p = q := Option.some.inj (hp.symm.trans hq)
      rcases Nat.lt_trichotomy j i.val with hlt | rfl | hgt
      · exact Nat.le_trans hclimbs.1 (hbetween j w hj hlt hw)
      · rw [vs.getElem?_get i, Option.some.injEq] at hw
        exact hw ▸ hclimbs.1
      · exact hpast j w hgt hw
    · rw [(htop i hi).1] at hp
      cases hp
  | case3 i hstops =>
    refine ⟨i, rfl, ?_, hpast⟩
    by_cases hi : 0 < i.val
    · obtain ⟨p, u, -, -, hu, hdepth, -⟩ := h.parent i _ (vs.getElem?_get i) hi
      have := h.depth_nonneg p u hu
      omega
    · omega

/-! ## Adding a line -/

section Attach
variable (all : List Vertex) (p : Nat) (node : Node)

theorem withLeaf_cases (n : Nat) (u v : Vertex) (i : Nat) (h : v = if p = i then u.withLeaf n else u) :
    v.node = u.node ∧ v.parent? = u.parent? ∧
      v.leaves = u.leaves ++ if p = i then [n] else [] := by
  subst h
  split <;> simp [Vertex.withLeaf]

theorem getElem?_attach_last : (attach all p node)[all.length]? = some ⟨node, some p, []⟩ := by
  rw [attach, List.getElem?_append_right (by simp)]
  simp

theorem getElem?_attach_of_some (i : Nat) (u : Vertex) (h : all[i]? = some u) :
    (attach all p node)[i]? = some (if p = i then u.withLeaf all.length else u) := by
  have hi : i < all.length := (List.getElem?_eq_some_iff.1 h).1
  rw [attach, List.getElem?_append_left (by simpa using hi), List.getElem?_modify, h]
  rfl

theorem map_node_attach : (attach all p node).map Vertex.node = all.map Vertex.node ++ [node] := by
  have hmodify : (all.modify p (Vertex.withLeaf all.length)).map Vertex.node = all.map Vertex.node := by
    apply List.ext_getElem?
    intro i
    rw [List.getElem?_map, List.getElem?_modify, List.getElem?_map]
    cases all[i]? with
    | none => rfl
    | some u =>
      show some (if p = i then u.withLeaf all.length else u).node = some u.node
      split <;> rfl
  rw [attach, List.map_append, hmodify]
  rfl

end Attach

def nodes (vs : Vertices) : List Node :=
  vs.all.map Vertex.node

def parentOf (vs : Vertices) (i : Nat) : Option Nat :=
  vs.all[i]?.bind Vertex.parent?

/-- The numbers, among the `m` numbers from `a` on, of the vertices whose parent is `i`. -/
def leavesIn (vs : Vertices) (i a m : Nat) : List Nat :=
  (List.range' a m).filter fun l => vs.parentOf l == some i

/-- The vertices are those of the given lines: the last line is the one from which the next line climbs, and each
vertex has for its leaves the vertices whose parent it is. -/
structure Built (condensed : Bool) (lines : List Line) (vs : Vertices) : Prop extends vs.Nearest where
  lines : vs.nodes.map Node.toLine = (Tree.top condensed).toLine :: lines
  made : ∀ n ∈ vs.nodes, n.condensed = condensed ∧ n.mark = none
  last : vs.current.val + 1 = vs.all.length
  leaves : ∀ i v, vs.all[i]? = some v → v.leaves = vs.leavesIn i 0 vs.all.length

theorem nearest_add {vs : Vertices} (h : vs.Nearest) (condensed : Bool) (line : Line) (p : Fin vs.all.length)
    (hstops : p.val = 0 ∨ (vs.all.get p).node.indent < line.indent)
    (hpast : ∀ j w, p.val < j → vs.all[j]? = some w → line.indent ≤ w.node.indent) :
    (vs.add condensed line p).Nearest := by
  have hpos : 0 < vs.all.length := Nat.zero_lt_of_lt p.2
  refine ⟨?_, ?_⟩
  · intro v hv
    obtain ⟨hi, -⟩ | ⟨u, hu, hold⟩ := getElem?_attach _ _ _ _ _ hv
    · omega
    · obtain ⟨hnode, hparent, -⟩ := withLeaf_cases _ _ _ _ _ hold
      rw [hnode, hparent]
      exact h.top u hu
  · intro i v hv hi
    obtain ⟨rfl, rfl⟩ | ⟨u, hu, hold⟩ := getElem?_attach _ _ _ _ _ hv
    · have hp := getElem?_attach_of_some vs.all p
        ⟨line, (vs.all.get p).node.depth + 1, condensed, none⟩ p _ (vs.getElem?_get p)
      obtain ⟨hnode, -⟩ := withLeaf_cases p.val vs.all.length (vs.all.get p) _ p rfl
      refine ⟨p, _, rfl, p.2, hp, by rw [hnode], by rwa [hnode], ?_⟩
      intro j w hj hlt hw
      obtain ⟨rfl, -⟩ | ⟨x, hx, hold⟩ := getElem?_attach _ _ _ _ _ hw
      · omega
      · rw [(withLeaf_cases _ _ _ _ _ hold).1]
        exact hpast j x hj hx
    · obtain ⟨hnode, hparent, -⟩ := withLeaf_cases _ _ _ _ _ hold
      obtain ⟨q, x, hq, hlt, hx, hdepth, hsmaller, hbetween⟩ := h.parent i u hu hi
      obtain ⟨hxnode, -⟩ := withLeaf_cases p.val vs.all.length x _ q rfl
      refine ⟨q, _, hparent.trans hq, hlt, getElem?_attach_of_some _ _ _ _ _ hx, ?_, ?_, ?_⟩
      · rw [hnode, hxnode]
        exact hdepth
      · rw [hnode, hxnode]
        exact hsmaller
      · intro j w hj hji hw
        obtain ⟨rfl, -⟩ | ⟨y, hy, hold⟩ := getElem?_attach _ _ _ _ _ hw
        · have := (List.getElem?_eq_some_iff.1 hu).1
          omega
        · rw [hnode, (withLeaf_cases _ _ _ _ _ hold).1]
          exact hbetween j y hj hji hy

theorem parentOf_add {vs : Vertices} (condensed : Bool) (line : Line) (p : Fin vs.all.length) (i : Nat)
    (hi : i < vs.all.length) : (vs.add condensed line p).parentOf i = vs.parentOf i := by
  have hu : vs.all[i]? = some (vs.all.get ⟨i, hi⟩) := List.getElem?_eq_getElem hi
  have hnew := getElem?_attach_of_some vs.all p
    ⟨line, (vs.all.get p).node.depth + 1, condensed, none⟩ i _ hu
  show ((attach _ _ _)[i]?).bind _ = _
  rw [parentOf, hnew, hu]
  exact (withLeaf_cases _ _ _ _ _ rfl).2.1

theorem leavesIn_add {vs : Vertices} (condensed : Bool) (line : Line) (p : Fin vs.all.length) (i : Nat) :
    (vs.add condensed line p).leavesIn i 0 (vs.add condensed line p).all.length =
      vs.leavesIn i 0 vs.all.length ++ if p.val = i then [vs.all.length] else [] := by
  have hlength : (vs.add condensed line p).all.length = vs.all.length + 1 := length_attach _ _ _
  have hlast : (vs.add condensed line p).parentOf vs.all.length = some p.val := by
    show ((attach _ _ _)[_]?).bind _ = _
    rw [getElem?_attach_last]
    rfl
  rw [leavesIn, leavesIn, hlength, List.range'_concat, List.filter_append]
  congr 1
  · apply List.filter_congr
    intro l hl
    rw [List.mem_range'_1] at hl
    rw [parentOf_add condensed line p l (by omega)]
  · rw [Nat.one_mul, Nat.zero_add, List.filter_cons, List.filter_nil, hlast]
    by_cases he : p.val = i <;> simp [he]

theorem parentOf_lt (vs : Vertices) (i p : Nat) (h : vs.parentOf i = some p) : p < i ∧ i < vs.all.length := by
  obtain ⟨v, hv, hp⟩ := Option.bind_eq_some_iff.1 h
  exact ⟨vs.parent_lt i v p hv hp, (List.getElem?_eq_some_iff.1 hv).1⟩

theorem leavesIn_eq_nil (vs : Vertices) (i a m : Nat)
    (h : ∀ l, a ≤ l → l < a + m → vs.parentOf l ≠ some i) : vs.leavesIn i a m = [] := by
  rw [leavesIn, List.filter_eq_nil_iff]
  intro l hl
  rw [List.mem_range'_1] at hl
  simpa using h l hl.1 hl.2

theorem built_add {vs : Vertices} {condensed : Bool} {lines : List Line} (h : Built condensed lines vs)
    (line : Line) (p : Fin vs.all.length)
    (hstops : p.val = 0 ∨ (vs.all.get p).node.indent < line.indent)
    (hpast : ∀ j w, p.val < j → vs.all[j]? = some w → line.indent ≤ w.node.indent) :
    Built condensed (lines ++ [line]) (vs.add condensed line p) := by
  have hnodes : (vs.add condensed line p).nodes =
      vs.nodes ++ [⟨line, (vs.all.get p).node.depth + 1, condensed, none⟩] := map_node_attach _ _ _
  refine ⟨nearest_add h.toNearest condensed line p hstops hpast, ?_, ?_, ?_, ?_⟩
  · rw [hnodes, List.map_append, h.lines]
    rfl
  · rw [hnodes, List.forall_mem_append, List.forall_mem_singleton]
    exact ⟨h.made, rfl, rfl⟩
  · exact (length_attach _ _ _).symm
  · intro i v hv
    rw [leavesIn_add]
    obtain ⟨rfl, rfl⟩ | ⟨u, hu, hold⟩ := getElem?_attach _ _ _ _ _ hv
    · have hnone : ∀ l, 0 ≤ l → l < 0 + vs.all.length → vs.parentOf l ≠ some vs.all.length := by
        intro l _ hl hp
        have := vs.parentOf_lt l _ hp
        omega
      have hp : p.val ≠ vs.all.length := Nat.ne_of_lt p.2
      rw [leavesIn_eq_nil vs _ _ _ hnone, if_neg hp]
      rfl
    · rw [(withLeaf_cases _ _ _ _ _ hold).2.2, h.leaves i u hu]

/-! ## Adding all lines -/

theorem built_start (condensed : Bool) : Built condensed [] (start condensed) := by
  have hall : (start condensed).all = [⟨Tree.top condensed, none, []⟩] := rfl
  refine ⟨⟨?_, ?_⟩, rfl, ?_, rfl, ?_⟩
  · rintro v ⟨⟩
    exact ⟨rfl, rfl⟩
  · intro i v hv hi
    rw [hall, List.getElem?_singleton, if_neg (by omega)] at hv
    cases hv
  · intro n hn
    obtain rfl : n = Tree.top condensed := List.mem_singleton.1 hn
    exact ⟨rfl, rfl⟩
  · intro i v hv
    rw [hall, List.getElem?_singleton] at hv
    split at hv
    · obtain rfl := Option.some.inj hv
      rfl
    · cases hv

theorem step_ok {vs : Vertices} {condensed : Bool} {lines : List Line} (h : Built condensed lines vs)
    (line : Line) : ∃ next, vs.step condensed line = .ok next ∧ Built condensed (lines ++ [line]) next := by
  have hpast : ∀ j w, vs.current.val < j → vs.all[j]? = some w → line.indent ≤ w.node.indent := by
    intro j w hj hw
    have := (List.getElem?_eq_some_iff.1 hw).1
    have := h.last
    omega
  obtain ⟨p, hclimb, hstops, hpast⟩ := climb_ok h.toNearest line.indent vs.current hpast
  refine ⟨vs.add condensed line p, ?_, built_add h line p hstops hpast⟩
  rw [step, hclimb]
  rfl

/-- Whatever the lines are, all of them find their place. -/
theorem plant_ok (condensed : Bool) (lines : List Line) :
    ∃ vs, plant condensed lines = .ok vs ∧ Built condensed lines vs := by
  suffices h : ∀ (done : List Line) (vs : Vertices), Built condensed done vs →
      ∃ next, lines.foldlM (step condensed) vs = .ok next ∧ Built condensed (done ++ lines) next from
    h [] _ (built_start condensed)
  induction lines with
  | nil =>
    intro done vs hvs
    exact ⟨vs, rfl, by rwa [List.append_nil]⟩
  | cons line lines ih =>
    intro done vs hvs
    obtain ⟨next, hnext, hbuilt⟩ := step_ok hvs line
    obtain ⟨last, hlast, hall⟩ := ih _ next hbuilt
    refine ⟨last, ?_, by rwa [List.append_assoc] at hall⟩
    rw [List.foldlM_cons, hnext]
    exact hlast

/-! ## Segments -/

def segment (vs : Vertices) (a m : Nat) : List Node :=
  (vs.nodes.drop a).take m

theorem segment_succ (vs : Vertices) (a m : Nat) (x : Node) (h : vs.nodes[a]? = some x) :
    vs.segment a (m + 1) = x :: vs.segment (a + 1) m := by
  obtain ⟨ha, rfl⟩ := List.getElem?_eq_some_iff.1 h
  rw [segment, List.drop_eq_getElem_cons ha, List.take_succ_cons, segment]

/-- What a condition on nodes holds of first in a segment, and the rest, are segments. -/
theorem exists_cut (vs : Vertices) (q : Node → Bool) (a m : Nat) (hm : a + m ≤ vs.nodes.length) :
    ∃ k ≤ m, (vs.segment a m).takeWhile q = vs.segment a k ∧
      (vs.segment a m).dropWhile q = vs.segment (a + k) (m - k) ∧
      (∀ j x, a ≤ j → j < a + k → vs.nodes[j]? = some x → q x = true) ∧
      (k < m → ∀ x, vs.nodes[a + k]? = some x → q x = false) := by
  induction m generalizing a with
  | zero => exact ⟨0, Nat.le_refl 0, by simp [segment], by simp [segment], by omega, by omega⟩
  | succ m ih =>
    have hx : vs.nodes[a]? = some (vs.nodes.get ⟨a, by omega⟩) := List.getElem?_eq_getElem _
    generalize vs.nodes.get ⟨a, by omega⟩ = x at hx
    rw [segment_succ vs a m x hx]
    cases hq : q x with
    | false =>
      refine ⟨0, Nat.zero_le _, ?_, ?_, by omega, ?_⟩
      · rw [List.takeWhile_cons_of_neg (by simp [hq]), segment, List.take_zero]
      · rw [List.dropWhile_cons_of_neg (by simp [hq])]
        exact (segment_succ vs a m x hx).symm
      · intro _ y hy
        rw [Nat.add_zero, hx, Option.some.injEq] at hy
        exact hy ▸ hq
    | true =>
      obtain ⟨k, hk, htake, hdrop, hall, hnext⟩ := ih (a + 1) (by omega)
      refine ⟨k + 1, by omega, ?_, ?_, ?_, ?_⟩
      · rw [List.takeWhile_cons_of_pos hq, htake, segment_succ vs a k x hx]
      · rw [List.dropWhile_cons_of_pos hq, hdrop]
        congr 1 <;> omega
      · intro j y hj hjk hy
        by_cases he : j = a
        · rw [he, hx, Option.some.injEq] at hy
          exact hy ▸ hq
        · exact hall j y (by omega) (by omega) hy
      · intro hlt y hy
        exact hnext (by omega) y (by rwa [Nat.add_right_comm])

/-- The `m` vertices from `a` on lie below the vertex `i`, and no later vertex lies below one of them. -/
structure Below (vs : Vertices) (i a m : Nat) : Prop where
  lt : i < a
  le : a + m ≤ vs.all.length
  inside : ∀ j p, a ≤ j → j < a + m → vs.parentOf j = some p → p = i ∨ a ≤ p
  outside : ∀ j p, a + m ≤ j → vs.parentOf j = some p → p < a ∨ a + m ≤ p

theorem getElem?_nodes (vs : Vertices) (i : Nat) : vs.nodes[i]? = vs.all[i]?.map Vertex.node :=
  List.getElem?_map

theorem Nearest.parentOf {vs : Vertices} (h : vs.Nearest) (j : Nat) (hj : 0 < j) (hlt : j < vs.all.length) :
    ∃ p x y, vs.parentOf j = some p ∧ p < j ∧ vs.nodes[j]? = some y ∧ vs.nodes[p]? = some x ∧
      y.depth = x.depth + 1 ∧ (p = 0 ∨ x.indent < y.indent) ∧
      ∀ k z, p < k → k < j → vs.nodes[k]? = some z → y.indent ≤ z.indent := by
  have hv : vs.all[j]? = some (vs.all.get ⟨j, hlt⟩) := List.getElem?_eq_getElem hlt
  obtain ⟨p, u, hp, hpj, hu, hdepth, hsmaller, hbetween⟩ := h.parent j _ hv hj
  refine ⟨p, u.node, _, ?_, hpj, ?_, ?_, hdepth, hsmaller, ?_⟩
  · rw [Vertices.parentOf, hv]
    exact hp
  · rw [getElem?_nodes, hv]
    rfl
  · rw [getElem?_nodes, hu]
    rfl
  · intro k z hk hkj hz
    rw [getElem?_nodes, Option.map_eq_some_iff] at hz
    obtain ⟨w, hw, rfl⟩ := hz
    exact hbetween k w hk hkj hw

theorem length_nodes (vs : Vertices) : vs.nodes.length = vs.all.length :=
  List.length_map _

theorem leavesIn_append (vs : Vertices) (i a m k : Nat) (hk : k ≤ m) :
    vs.leavesIn i a m = vs.leavesIn i a k ++ vs.leavesIn i (a + k) (m - k) := by
  have hrange := List.range'_append_1 (s := a) (m := k) (n := m - k)
  rw [Nat.add_sub_cancel' hk] at hrange
  rw [leavesIn, ← hrange, List.filter_append]
  rfl

theorem leavesIn_all (vs : Vertices) (i a m : Nat) (hm : a + m ≤ vs.all.length)
    (hbefore : ∀ l < a, vs.parentOf l ≠ some i)
    (hafter : ∀ l, a + m ≤ l → l < vs.all.length → vs.parentOf l ≠ some i) :
    vs.leavesIn i 0 vs.all.length = vs.leavesIn i a m := by
  have hfront : vs.leavesIn i 0 a = [] :=
    leavesIn_eq_nil vs i 0 a fun l _ hl => hbefore l (by omega)
  have hback : vs.leavesIn i (a + m) (vs.all.length - a - m) = [] :=
    leavesIn_eq_nil vs i (a + m) _ fun l hl hlt => hafter l hl (by omega)
  rw [leavesIn_append vs i 0 _ a (by omega), hfront, Nat.zero_add, leavesIn_append vs i a _ m (by omega), hback,
    List.nil_append, List.append_nil]

theorem leavesIn_cons (vs : Vertices) (i a m k : Nat) (hk : k ≤ m) (ha : vs.parentOf a = some i)
    (hnone : ∀ l, a + 1 ≤ l → l < a + 1 + k → vs.parentOf l ≠ some i) :
    vs.leavesIn i a (m + 1) = a :: vs.leavesIn i (a + 1 + k) (m - k) := by
  rw [leavesIn_append vs i a (m + 1) 1 (by omega), leavesIn_append vs i (a + 1) (m + 1 - 1) k hk,
    leavesIn_eq_nil vs i (a + 1) k hnone, leavesIn, List.range'_one, List.filter_cons_of_pos (by simp [ha])]
  rfl

/-- A vertex that is indented further than `a`, like all vertices in between, has no parent before `a`. -/
theorem Nearest.le_parentOf {vs : Vertices} (h : vs.Nearest) {a b : Nat} {x : Node} (hx : vs.nodes[a]? = some x)
    (hb : b ≤ vs.all.length)
    (hfurther : ∀ j y, a < j → j < b → vs.nodes[j]? = some y → x.indent < y.indent) :
    ∀ j q, a < j → j < b → vs.parentOf j = some q → a ≤ q := by
  intro j q hj hjb hq
  obtain ⟨q', -, y, hq', -, hy, -, -, -, hbetween⟩ := h.parentOf j (by omega) (by omega)
  obtain rfl : q = q' := Option.some.inj (hq.symm.trans hq')
  have := hfurther j y hj hjb hy
  have := fun hqa => hbetween a x hqa hj hx
  omega

/-- Behind a vertex that is indented no further than those from `a` on, no vertex has one of these as its parent. -/
theorem Nearest.parentOf_behind {vs : Vertices} (h : vs.Nearest) {a b : Nat} {c : Node} (ha : 0 < a)
    (hc : vs.nodes[b]? = some c)
    (hfurther : ∀ j y, a ≤ j → j < b → vs.nodes[j]? = some y → c.indent ≤ y.indent) :
    ∀ j q, b ≤ j → j < vs.all.length → vs.parentOf j = some q → q < a ∨ b ≤ q := by
  intro j q hj hlt hq
  have hqj := vs.parentOf_lt j q hq
  obtain ⟨q', w, y, hq', -, hy, hw, -, hsmaller, hbetween⟩ := h.parentOf j (by omega) hlt
  obtain rfl : q = q' := Option.some.inj (hq.symm.trans hq')
  by_contra hnot
  have hcw : c.indent ≤ w.indent := hfurther q w (by omega) (by omega) hw
  have hyc : y.indent ≤ c.indent := by
    by_cases he : j = b
    · rw [← he, hy, Option.some.injEq] at hc
      exact hc ▸ Nat.le_refl _
    · exact hbetween b c (by omega) (by omega) hc
  omega

/-- The first vertex of a segment below `i` is a leaf of `i`. The vertices behind it that are indented further are
those below it, and the rest of the segment lies below `i` again. -/
theorem Below.cut {vs : Vertices} (h : vs.Nearest) {i a m : Nat} (hb : vs.Below i a (m + 1)) :
    ∃ x z k, vs.nodes[a]? = some x ∧ vs.nodes[i]? = some z ∧ x.depth = z.depth + 1 ∧ k ≤ m ∧
      vs.Below a (a + 1) k ∧ vs.Below i (a + 1 + k) (m - k) ∧
      vs.leavesIn i a (m + 1) = a :: vs.leavesIn i (a + 1 + k) (m - k) ∧
      vs.leavesIn a 0 vs.all.length = vs.leavesIn a (a + 1) k ∧
      (vs.segment (a + 1) m).takeWhile (fun n => x.indent < n.indent) = vs.segment (a + 1) k ∧
      (vs.segment (a + 1) m).dropWhile (fun n => x.indent < n.indent) =
        vs.segment (a + 1 + k) (m - k) := by
  obtain ⟨hlt, hle, hinside, houtside⟩ := hb
  obtain ⟨p, z, x, hp, hpa, hx, hz, hdepth, -⟩ := h.parentOf a (by omega) (by omega)
  obtain rfl : p = i := by
    have := hinside a p (Nat.le_refl a) (by omega) hp
    omega
  obtain ⟨k, hk, htake, hdrop, hinner, hnext⟩ :=
    exists_cut vs (fun n => x.indent < n.indent) (a + 1) m (by rw [length_nodes]; omega)
  have hfurther : ∀ j y, a < j → j < a + 1 + k → vs.nodes[j]? = some y → x.indent < y.indent := by
    intro j y hj hjk hy
    simpa using hinner j y (by omega) hjk hy
  have hbelow := h.le_parentOf hx (by omega) hfurther
  -- behind the vertices below `a`, within the segment and after it, no vertex lies below `a`
  have hbehind : ∀ j q, a + 1 + k ≤ j → vs.parentOf j = some q → q < a ∨ a + 1 + k ≤ q := by
    intro j q hj hq
    by_cases hjm : a + (m + 1) ≤ j
    · have := houtside j q hjm hq
      omega
    obtain ⟨c, hc⟩ : ∃ c, vs.nodes[a + 1 + k]? = some c :=
      ⟨_, List.getElem?_eq_getElem (by rw [length_nodes]; omega)⟩
    have hca : c.indent ≤ x.indent := by simpa using hnext (by omega) c hc
    refine h.parentOf_behind (by omega) hc (fun l y hl hlk hy => ?_) j q hj (by omega) hq
    by_cases he : l = a
    · rw [he, hx, Option.some.injEq] at hy
      exact hy ▸ hca
    · have := hfurther l y (by omega) hlk hy
      omega
  refine ⟨x, z, k, hx, hz, hdepth, hk, ⟨by omega, by omega, ?_, ?_⟩, ⟨by omega, by omega, ?_, ?_⟩, ?_, ?_,
    htake, hdrop⟩
  · intro j q hj hjk hq
    have := hbelow j q hj hjk hq
    omega
  · intro j q hj hq
    have := hbehind j q hj hq
    omega
  · intro j q hj hjm hq
    have := hbehind j q hj hq
    have := hinside j q (by omega) (by omega) hq
    omega
  · intro j q hj hq
    have := houtside j q (by omega) hq
    omega
  · refine leavesIn_cons vs p a m k hk hp fun l hl hlk hq => ?_
    have := hbelow l p hl hlk hq
    omega
  · refine leavesIn_all vs a (a + 1) k (by omega) (fun l hl hq => ?_) (fun l hl _ hq => ?_)
    · have := vs.parentOf_lt l a hq
      omega
    · have := hbehind l a hl hq
      omega

/-! ## The tree -/

def treesOf (vs : Vertices) (ls : List Nat) : List Tree :=
  ls.filterMap fun l => if h : l < vs.all.length then some (vs.treeAt ⟨l, h⟩) else none

theorem treeAt_eq {vs : Vertices} {condensed : Bool} {lines : List Line} (h : Built condensed lines vs)
    (i : Fin vs.all.length) :
    vs.treeAt i = .node (vs.all.get i).node (vs.treesOf (vs.leavesIn i 0 vs.all.length)) := by
  rw [treeAt, ← h.leaves i _ (vs.getElem?_get i), treesOf]
  congr 1
  rw [← List.filterMap_eq_map]
  conv => rhs; rw [← List.attach_map_subtype_val (vs.all.get i).leaves, List.filterMap_map]
  congr 1
  funext l
  have hl := (vs.lt_leaf i _ (vs.getElem?_get i) l.1 l.2).2
  show some (vs.treeAt ⟨l.1, hl⟩) = if h : l.1 < vs.all.length then some (vs.treeAt ⟨l.1, h⟩) else none
  rw [dif_pos hl]

/-- A segment below a vertex makes the trees that nesting its lines makes, and these are read in its order. -/
theorem treesOf_below {vs : Vertices} {condensed : Bool} {lines : List Line} (h : Built condensed lines vs)
    (i a m : Nat) (hb : vs.Below i a m) (z : Node) (hz : vs.nodes[i]? = some z) :
    vs.treesOf (vs.leavesIn i a m) =
        Tree.nest condensed (z.depth + 1) ((vs.segment a m).map Node.toLine) ∧
      Tree.forestNodes (vs.treesOf (vs.leavesIn i a m)) = vs.segment a m := by
  induction m using Nat.strongRecOn generalizing i a z with
  | ind m ih =>
    cases m with
    | zero =>
      exact ⟨by simp [segment, leavesIn, treesOf, Tree.nest], by simp [segment, leavesIn, treesOf, Tree.forestNodes]⟩
    | succ m =>
      obtain ⟨x, z', k, hx, hz', hdepth, hk, hinner, houter, hleaves, hown, htake, hdrop⟩ := hb.cut h.toNearest
      obtain rfl : z = z' := Option.some.inj (hz.symm.trans hz')
      obtain ⟨hnestInner, hreadInner⟩ := ih k (by omega) a (a + 1) hinner x hx
      obtain ⟨hnestOuter, hreadOuter⟩ := ih (m - k) (by omega) i (a + 1 + k) houter z hz
      have ha : a < vs.all.length := by
        have := hb.le
        omega
      have hnode : (vs.all.get ⟨a, ha⟩).node = x := by
        have hget := vs.getElem?_get ⟨a, ha⟩
        rw [getElem?_nodes, hget] at hx
        exact Option.some.inj hx
      have hmade : x = ⟨x.toLine, z.depth + 1, condensed, none⟩ := by
        obtain ⟨hcondensed, hmark⟩ := h.made x (List.mem_of_getElem? hx)
        rw [← hdepth, ← hcondensed, ← hmark]
      have htrees : vs.treesOf (vs.leavesIn i a (m + 1)) =
          .node x (vs.treesOf (vs.leavesIn a (a + 1) k)) ::
            vs.treesOf (vs.leavesIn i (a + 1 + k) (m - k)) := by
        rw [hleaves, treesOf, List.filterMap_cons, dif_pos ha, treeAt_eq h ⟨a, ha⟩, hnode, hown]
        rfl
      rw [htrees, segment_succ vs a m x hx]
      constructor
      · rw [List.map_cons, Tree.nest, List.takeWhile_map, List.dropWhile_map]
        have hcomp : (fun l : Line => decide (x.toLine.indent < l.indent)) ∘ Node.toLine =
            fun n : Node => decide (x.indent < n.indent) := rfl
        rw [hcomp, htake, hdrop, hnestInner, hnestOuter, hdepth, ← hmade]
      · rw [Tree.forestNodes_node_cons, hreadInner, hreadOuter, ← htake, ← hdrop,
          List.takeWhile_append_dropWhile]

/-- Read off their leaves, the vertices of lines make the tree of the lines, and the vertices are numbered in reading
order. -/
theorem tree_built {vs : Vertices} {condensed : Bool} {lines : List Line} (h : Built condensed lines vs) :
    vs.tree = .node (Tree.top condensed) (Tree.nest condensed 1 lines) ∧ vs.tree.nodes = vs.nodes := by
  have hpos : 0 < vs.all.length := Nat.zero_lt_of_lt vs.current.2
  obtain ⟨z, hz⟩ : ∃ z, vs.nodes = z :: vs.segment 1 (vs.all.length - 1) := by
    have hseg := segment_succ vs 0 (vs.all.length - 1) _ (List.getElem?_eq_getElem (by rwa [length_nodes]))
    rw [Nat.sub_add_cancel hpos, segment, List.drop_zero, List.take_of_length_le (by rw [length_nodes])] at hseg
    exact ⟨_, hseg⟩
  have hfirst : vs.nodes[0]? = some z := by rw [hz]; rfl
  have hlines : z.toLine = (Tree.top condensed).toLine ∧
      (vs.segment 1 (vs.all.length - 1)).map Node.toLine = lines := by
    have := h.lines
    rw [hz, List.map_cons, List.cons.injEq] at this
    exact this
  have hnode : (vs.all.get ⟨0, hpos⟩).node = z := by
    rw [getElem?_nodes, vs.getElem?_get ⟨0, hpos⟩] at hfirst
    exact Option.some.inj hfirst
  have hdepth : z.depth = 0 := hnode ▸ (h.top _ (vs.getElem?_get ⟨0, hpos⟩)).2
  have htop : z = Tree.top condensed := by
    obtain ⟨hcondensed, hmark⟩ := h.made z (List.mem_of_getElem? hfirst)
    calc z = ⟨z.toLine, z.depth, z.condensed, z.mark⟩ := rfl
      _ = Tree.top condensed := by rw [hlines.1, hdepth, hcondensed, hmark]; rfl
  have hb : vs.Below 0 1 (vs.all.length - 1) := by
    refine ⟨Nat.one_pos, by omega, fun j p _ _ _ => by omega, ?_⟩
    intro j p hj hp
    have := vs.parentOf_lt j p hp
    omega
  have hleaves : vs.leavesIn 0 0 vs.all.length = vs.leavesIn 0 1 (vs.all.length - 1) := by
    refine leavesIn_all vs 0 1 _ (by omega) (fun l hl hp => ?_) (fun l hl hlt => by omega)
    have := vs.parentOf_lt l 0 hp
    omega
  obtain ⟨hnest, hread⟩ := treesOf_below h 0 1 _ hb z hfirst
  have htree : vs.tree = .node z (vs.treesOf (vs.leavesIn 0 1 (vs.all.length - 1))) := by
    rw [tree, treeAt_eq h, hnode, ← hleaves]
  rw [htree]
  constructor
  · rw [hnest, hlines.2, hdepth, htop]
    rfl
  · rw [Tree.nodes, hread, hz]

/-- The leaves of a vertex, in the order of their numbers, are the vertices whose parent it is. -/
theorem leaves_built {vs : Vertices} {condensed : Bool} {lines : List Line} (h : Built condensed lines vs)
    (i : Nat) (v : Vertex) (hv : vs.all[i]? = some v) :
    v.leaves.Pairwise (· < ·) ∧ ∀ l, l ∈ v.leaves ↔ ∃ u, vs.all[l]? = some u ∧ u.parent? = some i := by
  rw [h.leaves i v hv]
  refine ⟨List.Pairwise.filter _ List.pairwise_lt_range', fun l => ?_⟩
  rw [leavesIn, List.mem_filter, List.mem_range'_1, beq_iff_eq]
  constructor
  · exact fun hl => Option.bind_eq_some_iff.1 hl.2
  · intro hl
    have hparent : vs.parentOf l = some i := Option.bind_eq_some_iff.2 hl
    have := vs.parentOf_lt l i hparent
    exact ⟨by omega, hparent⟩

end Vertices

namespace Tree

/-! ## The lines of a statement -/

/-- The lines that the tree of a statement holds, with their numbers in the statement: all of them, or if the tree is
condensed those with a token that is not whitespace, without their whitespace. -/
def keptLines (condensed : Bool) (sql : String) : List Line :=
  (((Scan.scan sql).zipIdx 1).filter fun (ts, _) =>
      !condensed || ts.any fun t => t.kind != .whitespace).map
    fun (ts, number) => ⟨number, if condensed then Token.code ts else ts⟩

theorem linesOf_eq (condensed : Bool) (sql : String) : linesOf condensed sql = keptLines condensed sql := by
  have hnumbered : numbered (Scan.scan sql) =
      ((Scan.scan sql).zipIdx 1).map fun (ts, number) => ⟨number, ts⟩ := by
    rw [numbered, List.zipIdx_succ, List.map_map]
    rfl
  cases condensed with
  | false =>
    have hall : ((Scan.scan sql).zipIdx 1).filter (fun (ts, _) =>
        !false || ts.any fun t => t.kind != .whitespace) = (Scan.scan sql).zipIdx 1 :=
      List.filter_eq_self.2 fun _ _ => rfl
    rw [keptLines, hall]
    exact hnumbered
  | true =>
    have hfilled (ts : List Token) :
        (!(Token.code ts).isEmpty) = ts.any fun t => t.kind != .whitespace := by
      rw [Bool.eq_iff_iff, Bool.not_eq_true', List.isEmpty_eq_false_iff_exists_mem, List.any_eq_true]
      simp only [Token.code, List.mem_filter]
    show condense (numbered (Scan.scan sql)) = _
    rw [condense, hnumbered, List.map_map, List.filter_map, keptLines]
    congr 1
    apply List.filter_congr
    rintro ⟨ts, number⟩ -
    exact hfilled ts

theorem pairwise_keptLines (condensed : Bool) (sql : String) :
    ((keptLines condensed sql).map Line.number).Pairwise (· < ·) := by
  have hsub : ((keptLines condensed sql).map Line.number).Sublist (((Scan.scan sql).zipIdx 1).map Prod.snd) := by
    rw [keptLines, List.map_map]
    exact List.filter_sublist.map Prod.snd
  rw [List.zipIdx_map_snd] at hsub
  exact List.Pairwise.sublist hsub List.pairwise_lt_range'

theorem indent_keptLines (sql : String) : ∀ l ∈ keptLines true sql, l.indent = 0 := by
  intro l hl
  obtain ⟨⟨ts, number⟩, -, rfl⟩ := List.mem_map.1 hl
  show Line.indent ⟨number, Token.code ts⟩ = 0
  rw [Line.indent]
  split
  · next t us ht =>
    have hmem : t ∈ Token.code ts := by
      rw [show Token.code ts = t :: us from ht]
      exact List.mem_cons_self
    have hkind : t.kind ≠ .whitespace := by simpa using (List.mem_filter.1 hmem).2
    rw [if_neg hkind]
  · rfl

theorem nest_of_flat (condensed : Bool) (depth : Int) (ls : List Line) (h : ∀ l ∈ ls, l.indent = 0) :
    nest condensed depth ls = ls.map fun l => node ⟨l, depth, condensed, none⟩ [] := by
  induction ls with
  | nil => rw [nest, List.map_nil]
  | cons l ls ih =>
    obtain ⟨hl, hls⟩ := List.forall_mem_cons.1 h
    have hnone : ∀ k ∈ ls, ¬ decide (l.indent < k.indent) = true := by
      intro k hk
      rw [decide_eq_true_eq, hl, hls k hk]
      omega
    have htake : ls.takeWhile (fun k => l.indent < k.indent) = [] := by
      cases ls with
      | nil => rfl
      | cons k ks => exact List.takeWhile_cons_of_neg (hnone k List.mem_cons_self)
    have hdrop := List.takeWhile_append_dropWhile (p := fun k => decide (l.indent < k.indent)) (l := ls)
    rw [htake, List.nil_append] at hdrop
    rw [nest, htake, hdrop, ih hls, nest, List.map_cons]

/-- The tree of a statement, built line by line. No line climbs past the top. The vertices are numbered in reading
order, and they are the top and the lines that the tree keeps, in order. The parent of a line is the nearest
line before it that is indented less, or the top; the line lies one deeper, and the leaves of a vertex
are the vertices whose parent it is. In a condensed tree every line is a leaf of the top. -/
theorem ofDialect_nearest (condensed : Bool) (sql : String) :
    ∃ vs : Vertices,
      Vertices.plant condensed (linesOf condensed sql) = .ok vs ∧
      ofDialect standardSql condensed sql = .ok vs.tree ∧ vs.tree = ofSql condensed sql ∧
      vs.tree.nodes = vs.all.map Vertex.node ∧
      vs.tree.beneath.map Node.toLine = keptLines condensed sql ∧
      ((keptLines condensed sql).map Line.number).Pairwise (· < ·) ∧
      vs.Nearest ∧
      (∀ (i : Nat) (v : Vertex), vs.all[i]? = some v → v.leaves.Pairwise (· < ·) ∧
        ∀ l, l ∈ v.leaves ↔ ∃ u : Vertex, vs.all[l]? = some u ∧ u.parent? = some i) ∧
      (condensed = true →
        vs.tree.leaves = (keptLines true sql).map fun l => node ⟨l, 1, true, none⟩ []) := by
  obtain ⟨vs, hplant, hbuilt⟩ := Vertices.plant_ok condensed (linesOf condensed sql)
  obtain ⟨htree, hnodes⟩ := Vertices.tree_built hbuilt
  refine ⟨vs, hplant, ?_, htree, hnodes, ?_, pairwise_keptLines condensed sql, hbuilt.toNearest,
    Vertices.leaves_built hbuilt, ?_⟩
  · rw [ofDialect, if_pos rfl, hplant]
    rfl
  · rw [htree, ← linesOf_eq]
    exact toLine_forestNodes_nest condensed 1 _
  · rintro rfl
    rw [htree, linesOf_eq]
    exact nest_of_flat true 1 _ (indent_keptLines sql)

end Tree
end SqlStyle
