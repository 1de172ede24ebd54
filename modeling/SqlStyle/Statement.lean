import SqlStyle.Token.Scan
import SqlStyle.Tree.Vertices

/-! From the text of a statement to the tree of its lines. -/
namespace SqlStyle
set_option autoImplicit false

def Tree.ofSql (condensed : Bool) (sql : String) : Tree :=
  ofLines condensed (Scan.scan sql)

/-- The lines of a statement that have a place in its tree. -/
def Tree.linesOf (condensed : Bool) (sql : String) : List Line :=
  let ls := numbered (Scan.scan sql)
  if condensed then condense ls else ls

def standardSql : String :=
  "StandardSQL"

/-- The tree of a statement in a given dialect, built line by line. -/
def Tree.ofDialect (dialect : String) (condensed : Bool) (sql : String) : Except Fault Tree :=
  if dialect = standardSql then (Vertices.plant condensed (linesOf condensed sql)).map Vertices.tree
  else .error (.unknownDialect dialect)

end SqlStyle
