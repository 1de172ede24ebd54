import SqlStyle.Tree

/-! Walks through a tree: gathering the tokens below each node, changing every node, and finding or
replacing the tree under a node. -/
namespace SqlStyle.Tree
set_option autoImplicit false

/-! ## Gathering -/

mutual

/-- Each node takes over, behind its own tokens, the tokens that its leaves have gathered. -/
def gathered : Tree → Tree
  | node n ts =>
    let leaves := gatheredForest ts
    node { n with tokens := n.tokens ++ leaves.flatMap fun t => t.root.tokens } leaves

def gatheredForest : List Tree → List Tree
  | [] => []
  | t :: ts => gathered t :: gatheredForest ts

end

mutual

theorem tokens_root_gathered (t : Tree) : (gathered t).root.tokens = t.tokens := by
  match t with
  | node n ts =>
    rw [gathered, tokens, nodes, List.flatMap_cons, ← tokens_gatheredForest ts]
    rfl

theorem tokens_gatheredForest (ts : List Tree) :
    ((gatheredForest ts).flatMap fun t => t.root.tokens) =
      (forestNodes ts).flatMap fun n => n.tokens := by
  match ts with
  | [] => rfl
  | t :: ts =>
    have ht : (gathered t).root.tokens = t.nodes.flatMap fun n => n.tokens := tokens_root_gathered t
    simp only [gatheredForest, forestNodes, List.flatMap_cons, List.flatMap_append, ht,
      tokens_gatheredForest ts]

end

/-! ## Changing every node -/

mutual

/-- The tree with every node changed, in reading order, with a state that is passed on. -/
def visit {σ : Type} (f : Node → σ → Node × σ) : Tree → σ → Tree × σ
  | node n ts, state =>
    let (n, state) := f n state
    let (ts, state) := visitForest f ts state
    (node n ts, state)

def visitForest {σ : Type} (f : Node → σ → Node × σ) : List Tree → σ → List Tree × σ
  | [], state => ([], state)
  | t :: ts, state =>
    let (t, state) := visit f t state
    let (ts, state) := visitForest f ts state
    (t :: ts, state)

end

def mapTokens (f : Token → Token) (t : Tree) : Tree :=
  (visit (fun n state => ({ n with tokens := n.tokens.map f }, state)) t ()).1

/-! ## Finding and replacing -/

mutual

/-- The first tree under a node with the property `p`. -/
def find? (p : Node → Bool) : Tree → Option Tree
  | node n ts => if p n then some (node n ts) else findForest? p ts

def findForest? (p : Node → Bool) : List Tree → Option Tree
  | [] => none
  | t :: ts => (find? p t).or (findForest? p ts)

end

mutual

/-- The first tree with a node with the property `p` directly below its top. -/
def above? (p : Node → Bool) : Tree → Option Tree
  | node n ts => if ts.any fun t => p t.root then some (node n ts) else aboveForest? p ts

def aboveForest? (p : Node → Bool) : List Tree → Option Tree
  | [] => none
  | t :: ts => (above? p t).or (aboveForest? p ts)

end

mutual

/-- The tree with `f` applied to the trees under the nodes with the property `p`. -/
def update (p : Node → Bool) (f : Tree → Tree) : Tree → Tree
  | node n ts => if p n then f (node n ts) else node n (updateForest p f ts)

def updateForest (p : Node → Bool) (f : Tree → Tree) : List Tree → List Tree
  | [] => []
  | t :: ts => update p f t :: updateForest p f ts

end

def mapLeaves (f : List Tree → List Tree) : Tree → Tree
  | node n ts => node n (f ts)

def mapRoot (f : Node → Node) : Tree → Tree
  | node n ts => node (f n) ts

end SqlStyle.Tree
