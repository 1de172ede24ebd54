import SqlStyle.Lint.Violation

/-! Blank lines: no two of them in a row, and no line that holds whitespace only. A tree is walked node by node,
and the walk carries along how many blank lines it has just passed. It finds what reading the lines one after the
other finds (`blankLines_eq`). -/
namespace SqlStyle.Lint
set_option autoImplicit false

def isOnlyWhitespace (line : Line) : Bool :=
  match line.tokens with
  | [t] => t.kind == .whitespace
  | _ => false

/-! ## Walking a tree -/

/-- What a walk has found, how many blank lines it has just passed, and the last line it has come to. -/
structure BlankWalk where
  found : List Violation
  blanks : Nat
  last : Line

/-- What is wrong at a line that follows `blanks` blank lines. A run of blank lines is reported at the line after
it. -/
def blanksAt (blanks : Nat) (line : Line) : List Violation :=
  (if isOnlyWhitespace line then [.ofLine line .onlyWhitespace 0] else []) ++
    if !line.tokens.isEmpty && 2 ≤ blanks then [.ofLine line .multipleBlankLines 0] else []

/-- How many blank lines have just been passed behind a line that follows `blanks` of them. -/
def blanksBehind (blanks : Nat) (line : Line) : Nat :=
  if line.tokens.isEmpty then blanks + 1 else 0

mutual

/-- The walk through a tree: the line at its top, and then what lies below. -/
def walkTree (blanks : Nat) : Tree → BlankWalk
  | .node n ts =>
    let below := walkForest (blanksBehind blanks n.toLine) n.toLine ts
    { below with found := blanksAt blanks n.toLine ++ below.found }

/-- The walk through several trees, which come after the line `last`. -/
def walkForest (blanks : Nat) (last : Line) : List Tree → BlankWalk
  | [] => ⟨[], blanks, last⟩
  | t :: ts =>
    let first := walkTree blanks t
    let rest := walkForest first.blanks first.last ts
    { rest with found := first.found ++ rest.found }

end

/-- What is wrong with the blank lines below the top of a tree. A run of blank lines at the end is reported at the
last line of all. -/
def blankLines (t : Tree) : List Violation :=
  let walk := walkForest 0 t.root.toLine t.leaves
  walk.found ++ if 2 ≤ walk.blanks then [.ofLine walk.last .multipleBlankLines 0] else []

/-! ## Line by line -/

/-- What is wrong with the blank lines among `lines`, which follow `blanks` blank lines, after the line
`last`. A run of blank lines is reported at the line after it, or at the last line of all. -/
def blankRuns (last : Line) (blanks : Nat) : List Line → List Violation
  | [] => if 2 ≤ blanks then [.ofLine last .multipleBlankLines 0] else []
  | line :: rest =>
    (if isOnlyWhitespace line then [.ofLine line .onlyWhitespace 0] else []) ++
    if line.tokens.isEmpty then blankRuns line (blanks + 1) rest
    else
      (if 2 ≤ blanks then [.ofLine line .multipleBlankLines 0] else []) ++ blankRuns line 0 rest

theorem blankRuns_cons (last line : Line) (blanks : Nat) (rest : List Line) :
    blankRuns last blanks (line :: rest) =
      blanksAt blanks line ++ blankRuns line (blanksBehind blanks line) rest := by
  rw [blankRuns, blanksAt, blanksBehind, List.append_assoc]
  cases line.tokens.isEmpty <;> simp

mutual

theorem blankRuns_nodes (last : Line) (blanks : Nat) (t : Tree) (rest : List Line) :
    blankRuns last blanks (t.nodes.map Node.toLine ++ rest) =
      (walkTree blanks t).found ++ blankRuns (walkTree blanks t).last (walkTree blanks t).blanks rest := by
  match t with
  | .node n ts =>
    rw [Tree.nodes, List.map_cons, List.cons_append, blankRuns_cons, blankRuns_forestNodes n.toLine _ ts rest,
      walkTree, List.append_assoc]

theorem blankRuns_forestNodes (last : Line) (blanks : Nat) (ts : List Tree) (rest : List Line) :
    blankRuns last blanks ((Tree.forestNodes ts).map Node.toLine ++ rest) =
      (walkForest blanks last ts).found ++
        blankRuns (walkForest blanks last ts).last (walkForest blanks last ts).blanks rest := by
  match ts with
  | [] => rfl
  | t :: ts =>
    rw [Tree.forestNodes, List.map_append, List.append_assoc, blankRuns_nodes last blanks t,
      blankRuns_forestNodes _ _ ts rest, walkForest, List.append_assoc]

end

/-- What a walk through the tree finds is found by reading its lines one by one, however they are nested. -/
theorem blankLines_eq (t : Tree) :
    blankLines t = blankRuns t.root.toLine 0 (t.beneath.map Node.toLine) := by
  have h := blankRuns_forestNodes t.root.toLine 0 t.leaves []
  rw [List.append_nil, blankRuns] at h
  exact h.symm

end SqlStyle.Lint
