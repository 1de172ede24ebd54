import SqlStyle.Proofs.Tree.Tokens
import SqlStyle.Session

/-! Gathering in place. The nodes of a tree keep their tokens in lists, and gathering extends the list of each node by
the lists of its leaves, each as it has been left by the gathering of the leaf. If no two nodes share a list, each list
ends with the tokens of its own subtree in reading order, and nothing else is changed (`Linked.gather_tree`): read from
its lists, the tree is then the gathered one. -/
namespace SqlStyle
set_option autoImplicit false

namespace Tree

/-! ## Gathered trees -/

/-- The tree under the node that is reached by the leaves with the given indices. -/
def at? (t : Tree) : List Nat → Option Tree
  | [] => some t
  | i :: path => t.leaves[i]?.bind fun leaf => leaf.at? path

theorem gatheredForest_eq_map (ts : List Tree) : gatheredForest ts = ts.map gathered := by
  induction ts with
  | nil => rfl
  | cons t ts ih => rw [gatheredForest, ih, List.map_cons]

theorem leaves_gathered (t : Tree) : t.gathered.leaves = t.leaves.map gathered := by
  cases t with
  | node n ts => rw [gathered, leaves, leaves, gatheredForest_eq_map]

theorem root_gathered (t : Tree) : t.gathered.root = { t.root with tokens := t.tokens } := by
  rw [← tokens_root_gathered t]
  cases t with
  | node n ts => rw [gathered, root, root]

theorem at?_gathered (t : Tree) (path : List Nat) : t.gathered.at? path = (t.at? path).map gathered := by
  induction path generalizing t with
  | nil => rfl
  | cons i path ih =>
    rw [at?, at?, leaves_gathered, List.getElem?_map, Option.bind_map, Option.map_bind]
    congr 1
    funext leaf
    exact ih leaf

/-- Each node of a gathered tree stands where it stood, and holds the tokens of its own subtree. -/
theorem root_at?_gathered (t : Tree) (path : List Nat) :
    (t.gathered.at? path).map root = (t.at? path).map fun u => { u.root with tokens := u.tokens } := by
  rw [at?_gathered, Option.map_map]
  congr 1
  funext u
  exact root_gathered u

mutual

/-- A changed tree is found where the tree was, if its top can still be told. -/
theorem find?_update (p : Node → Bool) (f : Tree → Tree) (hf : ∀ t, p t.root = true → p (f t).root = true)
    (t : Tree) : find? p (update p f t) = (find? p t).map f := by
  match t with
  | node n ts =>
    rw [update, find?]
    split
    · next hn =>
      have htop := hf (node n ts) hn
      cases hchanged : f (node n ts) with
      | node m us =>
        rw [hchanged, root] at htop
        rw [find?, if_pos htop, Option.map_some, hchanged]
    · next hn => rw [find?, if_neg hn, findForest?_updateForest p f hf ts]

theorem findForest?_updateForest (p : Node → Bool) (f : Tree → Tree)
    (hf : ∀ t, p t.root = true → p (f t).root = true) (ts : List Tree) :
    findForest? p (updateForest p f ts) = (findForest? p ts).map f := by
  match ts with
  | [] => rfl
  | t :: ts =>
    rw [updateForest, findForest?, findForest?, find?_update p f hf t, findForest?_updateForest p f hf ts,
      Option.map_or]

end

end Tree

/-! ## Lists in a store -/

/-- Lists of tokens, by their addresses. -/
abbrev Store := Nat → List Token

def Store.extend (store : Store) (address : Nat) (ts : List Token) : Store := fun other =>
  if other = address then store address ++ ts else store other

/-- A node that keeps its tokens in the list with the given address. -/
structure Slot where
  number : Nat
  depth : Int
  condensed : Bool
  mark : Option Nat
  address : Nat

/-- A tree whose nodes keep their tokens in lists. -/
inductive Linked where
  | node (slot : Slot) (leaves : List Linked)

namespace Linked

def read (store : Store) (slot : Slot) : Node :=
  ⟨⟨slot.number, store slot.address⟩, slot.depth, slot.condensed, slot.mark⟩

mutual

def tree (store : Store) : Linked → Tree
  | node slot ts => .node (read store slot) (forest store ts)

def forest (store : Store) : List Linked → List Tree
  | [] => []
  | t :: ts => tree store t :: forest store ts

end

mutual

def addresses : Linked → List Nat
  | node slot ts => slot.address :: forestAddresses ts

def forestAddresses : List Linked → List Nat
  | [] => []
  | t :: ts => addresses t ++ forestAddresses ts

end

mutual

/-- Gather in place. The answer is the list of the top. -/
def gather : Linked → StateM Store (List Token)
  | node slot ts => do
    gatherLeaves slot.address ts
    let store ← get
    return store slot.address

/-- Extend a list by what each of the trees gathers, one after the other. -/
def gatherLeaves (address : Nat) : List Linked → StateM Store Unit
  | [] => return
  | t :: ts => do
    let children ← gather t
    modify fun store => store.extend address children
    gatherLeaves address ts

end

theorem gather_node (slot : Slot) (ts : List Linked) (store : Store) :
    (gather (node slot ts)).run store =
      (((gatherLeaves slot.address ts).run store).2 slot.address, ((gatherLeaves slot.address ts).run store).2) := by
  rw [gather]
  rfl

theorem gatherLeaves_cons (address : Nat) (t : Linked) (ts : List Linked) (store : Store) :
    (gatherLeaves address (t :: ts)).run store =
      (gatherLeaves address ts).run (((gather t).run store).2.extend address ((gather t).run store).1) := by
  rw [gatherLeaves]
  rfl

/-! ## What gathering changes -/

mutual

theorem gather_frame (t : Linked) (store : Store) {a : Nat} (ha : a ∉ t.addresses) :
    ((gather t).run store).2 a = store a := by
  match t with
  | node slot ts =>
    rw [addresses, List.mem_cons, not_or] at ha
    rw [gather_node]
    exact gatherLeaves_frame slot.address ts store ha.1 ha.2

theorem gatherLeaves_frame (address : Nat) (ts : List Linked) (store : Store) {a : Nat} (hne : a ≠ address)
    (ha : a ∉ forestAddresses ts) : ((gatherLeaves address ts).run store).2 a = store a := by
  match ts with
  | [] => rw [gatherLeaves]; rfl
  | t :: ts =>
    rw [forestAddresses, List.mem_append, not_or] at ha
    rw [gatherLeaves_cons, gatherLeaves_frame address ts _ hne ha.2, Store.extend, if_neg hne,
      gather_frame t store ha.1]

end

mutual

theorem tree_congr (t : Linked) {store other : Store} (h : ∀ a ∈ t.addresses, store a = other a) :
    tree store t = tree other t := by
  match t with
  | node slot ts =>
    rw [addresses, List.forall_mem_cons] at h
    rw [tree, tree, read, read, h.1, forest_congr ts h.2]

theorem forest_congr (ts : List Linked) {store other : Store}
    (h : ∀ a ∈ forestAddresses ts, store a = other a) : forest store ts = forest other ts := by
  match ts with
  | [] => rfl
  | t :: ts =>
    rw [forestAddresses, List.forall_mem_append] at h
    rw [forest, forest, tree_congr t h.1, forest_congr ts h.2]

end

mutual

/-- Gathering in place answers with the tokens in reading order, and leaves the gathered tree. -/
theorem gather_tree (t : Linked) (store : Store) (h : t.addresses.Nodup) :
    ((gather t).run store).1 = (tree store t).tokens ∧
      tree ((gather t).run store).2 t = (tree store t).gathered := by
  match t with
  | node slot ts =>
    obtain ⟨hown, hleaves⟩ := gatherLeaves_forest slot.address ts store h
    rw [gather_node, tree, tree, Tree.tokens_node, hleaves]
    refine ⟨hown, ?_⟩
    rw [Tree.gathered]
    simp only
    rw [Tree.tokens_gatheredForest, read, hown]
    rfl

theorem gatherLeaves_forest (address : Nat) (ts : List Linked) (store : Store)
    (h : (address :: forestAddresses ts).Nodup) :
    ((gatherLeaves address ts).run store).2 address = store address ++ Tree.forestTokens (forest store ts) ∧
      forest ((gatherLeaves address ts).run store).2 ts = Tree.gatheredForest (forest store ts) := by
  match ts with
  | [] =>
    rw [gatherLeaves, forest, Tree.forestTokens_nil, List.append_nil]
    exact ⟨rfl, rfl⟩
  | t :: ts =>
    rw [forestAddresses, List.nodup_cons, List.mem_append, not_or, List.nodup_append] at h
    obtain ⟨⟨haddress, hbelow⟩, htree, hrest, hapart⟩ := h
    obtain ⟨hanswer, hgathered⟩ := gather_tree t store htree
    let first := (gather t).run store
    let extended := first.2.extend address first.1
    have hkept {a : Nat} (hne : a ≠ address) : extended a = first.2 a := if_neg hne
    have howner : extended address = store address ++ first.1 := by
      rw [← gather_frame t store haddress]
      exact if_pos rfl
    have hothers : forest extended ts = forest store ts := by
      refine forest_congr ts fun a ha => ?_
      rw [hkept fun he => hbelow (he ▸ ha)]
      exact gather_frame t store fun hmem => hapart a hmem a ha rfl
    obtain ⟨hown, hforest⟩ := gatherLeaves_forest address ts extended (List.nodup_cons.2 ⟨hbelow, hrest⟩)
    have hfirst : tree ((gatherLeaves address ts).run extended).2 t = tree first.2 t := by
      refine tree_congr t fun a ha => ?_
      have hne : a ≠ address := fun he => haddress (he ▸ ha)
      rw [gatherLeaves_frame address ts extended hne fun hmem => hapart a ha a hmem rfl, hkept hne]
    rw [gatherLeaves_cons, forest, forest, Tree.forestTokens_cons, Tree.gatheredForest]
    constructor
    · rw [hown, howner, hothers, hanswer, List.append_assoc]
    · rw [hforest, hothers, hfirst, hgathered]

end

end Linked

/-! ## Gathering on request -/

theorem Session.tree?_gather {s : Session} {n : Nat} {t : Tree} (h : s.tree? n = some t) :
    (s.gather n).2 = t.tokens ∧ (s.gather n).1.tree? n = some t.gathered := by
  rw [gather, h]
  refine ⟨Tree.tokens_root_gathered t, ?_⟩
  have hfound := Tree.findForest?_updateForest (hasNumber n) Tree.gathered
    (fun u hu => by rwa [Tree.root_gathered]) s.trees
  rw [tree?] at h
  rwa [h, Option.map_some] at hfound

namespace Linked

/-- If no two nodes of a tree share a list, gathering in place answers with the tokens of the tree in reading order. Each
node then stands where it stood, with its depth and its line number, and its list holds the tokens of its own
subtree in reading order; no other list is changed. This is the gathered tree, and what a session that is asked to gather
answers and keeps. -/
theorem gather_distinct (t : Linked) (store : Store) (h : t.addresses.Nodup) :
    ((gather t).run store).1 = (tree store t).tokens ∧
    (∀ path, ((tree ((gather t).run store).2 t).at? path).map Tree.root =
      ((tree store t).at? path).map fun u => { u.root with tokens := u.tokens }) ∧
    (∀ a, a ∉ t.addresses → ((gather t).run store).2 a = store a) ∧
    tree ((gather t).run store).2 t = (tree store t).gathered ∧
    ∀ (s : Session) (n : Nat), s.tree? n = some (tree store t) →
      (s.gather n).2 = ((gather t).run store).1 ∧
        (s.gather n).1.tree? n = some (tree ((gather t).run store).2 t) := by
  obtain ⟨hanswer, htree⟩ := gather_tree t store h
  refine ⟨hanswer, fun path => ?_, fun a ha => gather_frame t store ha, htree, fun s n hs => ?_⟩
  · rw [htree]
    exact Tree.root_at?_gathered _ path
  · rw [hanswer, htree]
    exact Session.tree?_gather hs

/-- A tree of four nodes: below the first are the second, with the third below it, and the fourth. -/
def treeOfFour : Linked :=
  .node ⟨0, 0, true, some 0, 3⟩
    [.node ⟨1, 1, true, none, 1⟩ [.node ⟨2, 2, true, none, 0⟩ []], .node ⟨3, 1, true, none, 2⟩ []]

def listsOfLetters : Store := fun a =>
  [⟨.identifier, String.singleton (Char.ofNat (97 + a)), none⟩]

def sessionOfFour : Session :=
  ⟨[tree listsOfLetters treeOfFour], 1, 0, {}⟩

/-- The second node, with `b` in its list, takes over the `a` of the third. -/
theorem gather_distinct_of_four :
    treeOfFour.addresses.Nodup ∧
      ((gather treeOfFour).run listsOfLetters).1.map Token.word = ["d", "b", "a", "c"] ∧
      ((tree ((gather treeOfFour).run listsOfLetters).2 treeOfFour).at? [0]).map (fun u => u.root.tokens.map Token.word) =
        some ["b", "a"] ∧
      ((gather treeOfFour).run listsOfLetters).2 4 = listsOfLetters 4 ∧
      sessionOfFour.tree? 0 = some (tree listsOfLetters treeOfFour) ∧
      (sessionOfFour.gather 0).2.map Token.word = ["d", "b", "a", "c"] := by
  have hdistinct : treeOfFour.addresses.Nodup := by decide
  have hfound : sessionOfFour.tree? 0 = some (tree listsOfLetters treeOfFour) := rfl
  obtain ⟨hanswer, hnodes, hframe, -, hsession⟩ := gather_distinct treeOfFour listsOfLetters hdistinct
  have hwords : ((tree listsOfLetters treeOfFour).tokens).map Token.word = ["d", "b", "a", "c"] := by decide +kernel
  refine ⟨hdistinct, by rw [hanswer, hwords], ?_, hframe 4 (by decide), hfound, ?_⟩
  · have hsecond := congrArg (Option.map fun n : Node => n.tokens.map Token.word) (hnodes [0])
    rw [Option.map_map, Option.map_map] at hsecond
    exact hsecond.trans (by decide +kernel)
  · rw [(hsession sessionOfFour 0 hfound).1, hanswer, hwords]

end Linked
end SqlStyle
