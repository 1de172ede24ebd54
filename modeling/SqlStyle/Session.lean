import SqlStyle.Lint
import SqlStyle.Session.Growth
import SqlStyle.Statement

/-! An editing session: trees whose nodes are numbered, and requests that name a node by its number.
A token that is shown at several places is one token: what changes it at one place changes it at all of
them, so each token bears a mark. A request that stops with a fault keeps what it has changed so far. -/
namespace SqlStyle
set_option autoImplicit false

/-- The trees that stand, the next numbers for a node and a token, and the values of the settings. -/
structure Session where
  trees : List Tree
  nextNode : Nat
  nextToken : Nat
  values : Values

namespace Session

/-- A session with one node, whose number is zero. -/
def start (condensed : Bool) (values : Values) : Session :=
  ⟨[.node { Tree.top condensed with mark := some 0 } []], 1, 0, values⟩

def marked (s : Session) : Session :=
  let (trees, next) := Tree.visitForest markNode s.trees s.nextToken
  { s with trees := trees, nextToken := next }

def mapTokens (s : Session) (f : Token → Token) : Session :=
  { s with trees := s.trees.map (Tree.mapTokens f) }

/-! ## Nodes by number -/

/-- Number the nodes of a tree in reading order, and mark its tokens. -/
def enroll (s : Session) (t : Tree) : Session × Tree :=
  let (t, node) := Tree.visit (fun n next => ({ n with mark := some next }, next + 1)) t s.nextNode
  let (t, token) := Tree.visit markNode t s.nextToken
  ({ s with nextNode := node, nextToken := token }, t)

def hasNumber (n : Nat) (node : Node) : Bool :=
  node.mark == some n

def tree? (s : Session) (n : Nat) : Option Tree :=
  Tree.findForest? (hasNumber n) s.trees

def update (s : Session) (n : Nat) (f : Tree → Tree) : Session :=
  { s with trees := Tree.updateForest (hasNumber n) f s.trees }

/-- The node directly above the node with the number `n`. A blank line that a pass put in has none;
no other leaf bears the number zero and is not condensed. -/
def parent? (s : Session) (n : Nat) : Option Node := do
  let above ← Tree.aboveForest? (hasNumber n) s.trees
  let leaf ← above.leaves.find? fun leaf => hasNumber n leaf.root
  if leaf.root.number == 0 && !leaf.root.condensed then none else some above.root

/-! ## Requests that make nodes -/

/-- Put a new node under the node with the number `above?`, where `arrange` says among its leaves, or
let it stand alone; the answer is its number. -/
def add (s : Session) (above? : Option Nat) (depth line : Int) (tokens : List Token)
    (arrange : Tree → List Tree → List Tree) : Session × Except Fault Nat :=
  match Line.ofInt? line tokens with
  | .error fault => (s, .error fault)
  | .ok l =>
    let (s', t) := s.enroll (.node ⟨l, depth, true, none⟩ [])
    (match above? with
      | some n => s'.update n (Tree.mapLeaves (arrange t))
      | none => { s' with trees := s'.trees ++ [t] }, .ok s.nextNode)

/-- Put a new node behind the last leaf of a node. -/
def addLeaf (s : Session) (above? : Option Nat) (depth line : Int) (tokens : List Token) :
    Session × Except Fault Nat :=
  s.add above? depth line tokens fun t ts => ts ++ [t]

/-- Put a new node at an index among the leaves of the node with the number `n`. -/
def insertLeaf (s : Session) (n : Nat) (index depth line : Int) (tokens : List Token) :
    Session × Except Fault Nat :=
  s.add (some n) depth line tokens fun t ts => Line.insertAt index t ts

/-- Let a tree stand; the answer is the number of its top. -/
def plant (s : Session) (t : Tree) : Session × Nat :=
  let (s', t) := s.enroll t
  ({ s' with trees := s'.trees ++ [t] }, s.nextNode)

def read (s : Session) (dialect : String) (condensed : Bool) (sql : String) :
    Session × Except Fault Nat :=
  match Tree.ofDialect dialect condensed sql with
  | .error fault => (s, .error fault)
  | .ok t =>
    let (s, n) := s.plant t
    (s, .ok n)

/-! ## Requests that change nodes -/

def setDepth (s : Session) (n : Nat) (depth : Int) : Session × Option Fault :=
  if depth < 0 then (s, some (.negativeDepth depth))
  else (s.update n (Tree.mapRoot fun node => { node with depth := depth }), none)

def setTokens (s : Session) (n : Nat) (tokens : List Token) : Session :=
  (s.update n (Tree.mapRoot fun node => { node with tokens := tokens })).marked

def pass (s : Session) (n : Nat) (p : Layout.Pass) : Session × Option Fault :=
  match s.tree? n with
  | none => (s, some .noToken)
  | some t =>
    let e := p.run s.values.settings t
    let changes := changesOf p s.values.settings t
    (((s.update n fun _ => e.value).mapTokens (current changes)).marked, e.fault?)

/-- Make passes over the tree under a node, one after the other up to the first fault. -/
def passesOn (s : Session) (n : Nat) : List Layout.Pass → Session × Option Fault
  | [] => (s, none)
  | p :: ps =>
    match s.pass n p with
    | (s, some fault) => (s, some fault)
    | (s, none) => s.passesOn n ps

def finish (s : Session) (n : Nat) : Session × Option Fault :=
  s.passesOn n Layout.passes

/-- Gather the tokens below each node of a tree; the answer is the tokens of its top. -/
def gather (s : Session) (n : Nat) : Session × List Token :=
  match s.tree? n with
  | none => (s, [])
  | some t => (s.update n Tree.gathered, t.gathered.root.tokens)

/-- Break the line of a node: new leaves go behind those it has, and the lines that follow it go behind
the last leaf of its parent. -/
def reshape (s : Session) (n : Nat) : Session × Option Fault :=
  match s.tree? n with
  | none => (s, some .noToken)
  | some t =>
    let above? := s.parent? n
    let place := ⟨t.root.depth, above?.map fun p => ⟨p.depth, p.tokens.head?⟩⟩
    let (e, names) := grow s.values.settings place t.root.number t.root.tokens []
    let grown := match e.value with
      | [] => s
      | first :: next =>
        let s := s.update n fun t => .node { t.root with tokens := first.root.tokens }
          (t.leaves ++ first.leaves)
        match above?.bind fun p => p.mark with
        | some above => s.update above (Tree.mapLeaves (· ++ next))
        | none => s
    (grown.mapTokens (asName names), e.fault?)

/-! ## The layout of a tree -/

def without (s : Session) (n : Nat) : Session :=
  { s with trees := s.trees.filter fun t => !hasNumber n t.root }

/-- Give the node with the number `n` the tokens of the first line below the node `top`. -/
def copyFirstLine (s : Session) (top n : Nat) : Session :=
  match (s.tree? top).bind fun t => t.leaves.head? with
  | some line => s.update n (Tree.mapRoot fun node => { node with tokens := line.root.tokens })
  | none => s

/-- Finish the layout of the run `ts`, gathered at the node `n`, in the tree under the node `top`. A run
that stays whole gets the words that complete its joins, but no whitespace. -/
def finishLayout (s : Session) (top n : Nat) (ts : List Token) : Session × Option Fault :=
  match s.passesOn top (Layout.passes.filter (· != .spaces)) with
  | (s, some fault) => (s, some fault)
  | (s', none) =>
    (if staysWhole s.values.settings ts then s'.copyFirstLine top n else s').pass top .spaces

/-- Lay out the tree under a node; the answer is the number of the top of the new tree. The tokens of
the tree are gathered for it. -/
def format (s : Session) (n : Nat) : Session × Except Fault Nat :=
  match s.tree? n with
  | none => (s, .error .noToken)
  | some t =>
    if !t.root.condensed then (s, .error .notCondensed)
    else
      let top := s.nextNode
      let run := t.gathered.root.tokens
      let (e, names) := grow s.values.settings firstPlace 1 run []
      let s := s.update n Tree.gathered
      let tree := Tree.node { Tree.top true with mark := some top } e.value
      let s := { s with trees := s.trees ++ [tree] }.mapTokens (asName names)
      match e.fault? with
      | some fault => (s.without top, .error fault)
      | none =>
        match s.finishLayout top n run with
        | (s, some fault) => (s.without top, .error fault)
        | (s, none) =>
          match s.tree? top with
          | none => (s, .error .noToken)
          | some tree =>
            let (s, n) := (s.without top).plant tree
            (s, .ok n)

end Session
end SqlStyle
