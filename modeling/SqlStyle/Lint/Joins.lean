import SqlStyle.Lint.Violation
import SqlStyle.Lint.Window

/-! Joins: the table stands on the line of the join, and the join is written in full. -/
namespace SqlStyle.Lint
set_option autoImplicit false

def joins (line : Line) : List Window :=
  (windows line.tokens).filter fun w => w.token.key == "JOIN"

/-! ## The table -/

/-- The table is the second token after the join; a join with one token after it is out of bounds. -/
def joinTable (line : Line) (w : Window) : Except Fault (List Violation) :=
  let missing := [Violation.ofLine line .joinWithoutTable w.index]
  match w.after with
  | [] => .ok missing
  | [_] => .error .noToken
  | _ :: table :: _ => .ok (if table.kind == .identifier then [] else missing)

/-! ## The words before the join -/

/-- The words that may come before a join, each with the join that it begins. -/
def joinForms : List (String × String) :=
  [("LEFT", "LEFT OUTER JOIN"), ("RIGHT", "RIGHT OUTER JOIN"), ("FULL", "FULL OUTER JOIN"),
    ("OUTER", "[LEFT|RIGHT|FULL] OUTER JOIN"), ("INNER", "INNER JOIN"), ("CROSS", "CROSS JOIN")]

/-- The join words directly before a join, from the nearest one on, in upper case. Whitespace and
comments between them do not count. -/
def joinWords (before : List Token) : List String :=
  ((before.filter fun t => !t.kind.isTrivia).map Token.key).takeWhile fun w =>
    (joinForms.lookup w).isSome

def writtenJoin (w : Window) : String :=
  String.intercalate " " ((joinWords w.before).reverse ++ [w.token.key])

/-- The join as it should be written: the first of its words tells. -/
def fullJoin (w : Window) : String :=
  ((joinWords w.before).getLast?.bind fun word => joinForms.lookup word).getD "INNER JOIN"

/-- A join that is not written in full. -/
def joinContext (line : Line) (w : Window) : List Violation :=
  if (joinForms.map Prod.snd).contains (writtenJoin w) then []
  else [.ofLine line .joinIncomplete w.index
    { actual? := some (writtenJoin w), expected? := some (fullJoin w) }]

end SqlStyle.Lint
