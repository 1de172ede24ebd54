import SqlStyle.Line

/-! Trees of lines: each node holds a line and its depth, and its leaves are the nodes below it. The
view that most of the library works on is the list of nodes in reading order, a node before the nodes
below it. -/
namespace SqlStyle
set_option autoImplicit false

/-- A line in its place. A condensed node keeps no whitespace. Within an editing session a node bears
its number as its `mark`. -/
structure Node extends Line where
  depth : Int
  condensed : Bool
  mark : Option Nat := none
deriving DecidableEq, Repr

/-- A node and the trees below it. -/
inductive Tree where
  | node (root : Node) (leaves : List Tree)

namespace Tree

def root : Tree → Node
  | node n _ => n

def leaves : Tree → List Tree
  | node _ ts => ts

mutual

/-- The nodes of a tree in reading order. -/
def nodes : Tree → List Node
  | node n ts => n :: forestNodes ts

def forestNodes : List Tree → List Node
  | [] => []
  | t :: ts => nodes t ++ forestNodes ts

end

/-- The nodes below the top in reading order. -/
def beneath (t : Tree) : List Node :=
  forestNodes t.leaves

def tokens (t : Tree) : List Token :=
  t.nodes.flatMap fun n => n.tokens

/-- The text of the nodes below the top, each on a line of its own. -/
def text (t : Tree) : String :=
  String.intercalate "\n" (t.beneath.map fun n => n.text)

/-! ## From a text -/

/-- The lines that follow a line and lie below it, and so on: each line lies below the nearest line
before it whose indent is smaller. -/
def nest (condensed : Bool) (depth : Int) : List Line → List Tree
  | [] => []
  | line :: rest =>
    node ⟨line, depth, condensed, none⟩
        (nest condensed (depth + 1) (rest.takeWhile fun l => line.indent < l.indent)) ::
      nest condensed depth (rest.dropWhile fun l => line.indent < l.indent)
termination_by ls => ls.length
decreasing_by
  · have := (List.takeWhile_prefix (l := rest) fun l => decide (line.indent < l.indent)).length_le
    simp only [List.length_cons]
    omega
  · have := (List.dropWhile_suffix (l := rest) fun l => decide (line.indent < l.indent)).length_le
    simp only [List.length_cons]
    omega

def numbered (lines : List (List Token)) : List Line :=
  lines.zipIdx.map fun (ts, i) => ⟨i + 1, ts⟩

/-- The lines of a condensed tree: without whitespace, and without the lines that are then empty. -/
def condense (lines : List Line) : List Line :=
  (lines.map fun l => { l with tokens := l.tokens.filter fun t => t.kind != .whitespace }).filter
    fun l => !l.tokens.isEmpty

def top (condensed : Bool) : Node :=
  ⟨⟨0, []⟩, 0, condensed, none⟩

def ofLines (condensed : Bool) (lines : List (List Token)) : Tree :=
  let ls := numbered lines
  node (top condensed) (nest condensed 1 (if condensed then condense ls else ls))

end Tree
end SqlStyle
