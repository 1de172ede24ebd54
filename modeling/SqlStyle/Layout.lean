import SqlStyle.Layout.Growth
import SqlStyle.Layout.Passes

/-! Laying out a statement: its tokens are gathered into one run, the run is broken into a tree of
lines, and the passes give the tree its final form. -/
namespace SqlStyle.Layout
set_option autoImplicit false
open Clause

/-- The tree of lines that a run of tokens is broken into, under a new top. -/
def shape (s : Settings) (ts : List Token) : Edit Tree :=
  (grow s ⟨1, some ⟨0, none⟩⟩ 1 ts).map (.node (Tree.top true))

def arrange (s : Settings) (ts : List Token) : Edit Tree :=
  (shape s ts).andThen (finish s)

def format (s : Settings) (t : Tree) : Except Fault Tree :=
  if t.root.condensed then (arrange s t.tokens).toExcept else .error .notCondensed

end SqlStyle.Layout
