import SqlStyle.Clause.Parts
import SqlStyle.Fault

/-! One step of breaking a run of tokens into lines: the tokens that stay on the line itself, the runs
that go below it, and the run that follows it at the same depth. Each keyword that begins a clause has a
rule of its own. -/
namespace SqlStyle.Clause
set_option autoImplicit false

/-- The line that a run of tokens begins with, the runs below it, and the run after it. -/
structure Split where
  own : List Token
  children : List (List Token) := []
  sibling : List Token := []
deriving DecidableEq, Repr

def Split.whole (ts : List Token) : Split :=
  { own := ts }

/-- The first `n` tokens are the line, and the others follow it. -/
def Split.after (n : Nat) (ts : List Token) : Split :=
  { own := ts.take n, sibling := ts.drop n }

/-! ## Words -/

/-- The keywords that end a clause within a query. -/
def clauseWords : List String :=
  ["SELECT", "FROM", "WHERE", "ORDER", "GROUP", "HAVING", "LIMIT"]

/-- The keywords that end the clause which begins with the keyword `own`. -/
def stopsOf (own : String) (others : List String) : List String :=
  clauseWords.filter fun w => w != own && !others.contains w

def joinWords : List String :=
  ["INNER", "LEFT", "RIGHT", "FULL", "CROSS", "OUTER", "JOIN"]

def isJoinCondition (t : Token) : Bool :=
  t.isKeyword "ON" || (t.key == "USING" && t.kind == .function)

/-! ## Runs that begin with no keyword -/

/-- The run is cut after the first comma or comment outside all brackets. -/
def splitOther (ts : List Token) : Split :=
  match cutTop (fun t => t.kind == .comma || t.kind == .comment) 0 ts with
  | some (before, rest) => { own := before ++ rest.take 1, sibling := rest.drop 1 }
  | none => .whole ts

/-- The tables of a query: the run is cut before the first join, or else as any other. -/
def splitTables (ts : List Token) : Split :=
  match cutTop (fun t => t.isKeywordOf joinWords) 0 ts with
  | some (before, rest) => { own := before, sibling := rest }
  | none => splitOther ts

/-- A right bracket stands alone, or with a semicolon, if its line lies at the top. -/
def splitRightBracket (depth : Int) (ts : List Token) : Split :=
  if (ts.drop 1).head?.any fun t => t.word == ";" then .after 2 ts
  else if depth ≤ 1 then .after 1 ts
  else .whole ts

/-- A further item of a list goes on to the next comma outside all brackets. -/
def splitItem (ts : List Token) : Split :=
  match cutTop (fun t => t.kind == .comma) 0 (ts.drop 1) with
  | some (before, rest) => { own := ts.take 1 ++ before, sibling := rest }
  | none => .whole ts

/-! ## Table expressions -/

/-- A table expression has the given run as its body, behind the bracket that opens it. -/
def splitBody (head body : List Token) (missing : Split) : Split :=
  match cutClose body with
  | some (inside, rest) => { own := head, children := [inside], sibling := rest }
  | none => missing

/-- A further table expression: a comma, a name, `AS` and a query in brackets. -/
def splitTableExpression : List Token → Except Fault Split
  | head :: name :: as :: rest =>
    if head.kind ≠ .comma then .error (.commaExpected head)
    else if name.kind ≠ .identifier then .error (.commaName name)
    else if !as.isKeyword "AS" then .ok (.after 2 (head :: name :: as :: rest))
    else
      match rest with
      | [] => .error .noToken
      | bracket :: body =>
        if bracket.kind ≠ .leftBracket then .error (.commaBracket bracket)
        else .ok (splitBody [head, name, as, bracket] body
          (.after 1 (head :: name :: as :: bracket :: body)))
  | ts => .ok (.whole ts)

/-- The name of the first table expression may be a reserved word; it is a name all the same. -/
def nameAfterWith : List Token → List Token
  | head :: name :: next :: rest =>
    if head.kind.isReserved && head.key == "WITH" && name.kind.isReserved then
      head :: { name with kind := .identifier } :: next :: rest
    else head :: name :: next :: rest
  | ts => ts

/-- The first table expression: `WITH`, a name, `AS` and a query in brackets. The bracket that closes
the query goes below with it. -/
def splitWith : List Token → Except Fault Split
  | head :: name :: as :: rest =>
    if name.kind ≠ .identifier then .error (.withName name)
    else if !as.isKeyword "AS" then .ok (.after 2 (head :: name :: as :: rest))
    else
      match rest with
      | [] => .error .noToken
      | bracket :: body =>
        if bracket.kind ≠ .leftBracket then .error (.withBracket bracket)
        else .ok (match cutClose body with
          | some (inside, rest) =>
            { own := [head, name, as, bracket], children := [inside ++ rest.take 1],
              sibling := rest.drop 1 }
          | none => { own := [head], children := [name :: as :: bracket :: body] })
  | ts => .ok (.whole ts)

/-- The word `AS` with the name, or the bracket and the query, behind it. -/
def splitAs : List Token → Split
  | head :: next :: third :: rest =>
    let two := Split.after 2 (head :: next :: third :: rest)
    if next.kind = .leftBracket then splitBody [head, next] (third :: rest) two else two
  | ts => .whole ts

/-! ## Clauses of a definition -/

/-- A clause of a definition ends before the first of the keywords `stops`. -/
def splitDefinition (stops : List String) (ts : List Token) : Split :=
  match cutBefore stops (ts.drop 1) with
  | some (before, rest) => { own := ts.take 1 ++ before, sibling := rest }
  | none => .after 1 ts

/-! ## Clauses of a query -/

def splitSelect (ts : List Token) : Split :=
  match cutClause "SELECT" (stopsOf "SELECT" []) (ts.drop 1) with
  | some (before, rest) => { own := ts.take 1, children := items before, sibling := rest }
  | none => { own := ts.take 1, children := [ts.drop 1] }

def splitCondition (own : String) (others : List String) (ts : List Token) : Split :=
  match cutClause own (stopsOf own others) (ts.drop 1) with
  | some (before, rest) => { own := ts.take 1, children := terms before, sibling := rest }
  | none => { own := ts.take 1, children := terms (ts.drop 1) }

def splitWhere (ts : List Token) : Split :=
  splitCondition "WHERE" ["FROM"] ts

def splitHaving (ts : List Token) : Split :=
  splitCondition "HAVING" ["FROM"] ts

/-- The tables go below; a bracket before them stays on the line. -/
def splitFrom (ts : List Token) : Split :=
  match cutClause "FROM" (stopsOf "FROM" []) (ts.drop 1) with
  | some (before, rest) =>
    let kept := if (ts.drop 1).head?.any fun t => t.kind == .leftBracket then 1 else 0
    { own := ts.take (1 + kept), children := [before.drop kept], sibling := rest }
  | none => { own := ts.take 1, children := [ts.drop 1] }

/-- The keys of a grouping or an ordering go below; the second word and a bracket behind it stay on the
line. -/
def splitKeys (own : String) (ts : List Token) : Split :=
  match cutClause own (stopsOf own ["FROM"]) (ts.drop 1) with
  | some (before, rest) =>
    let kept := if (ts.drop 2).head?.any fun t => t.kind == .leftBracket then 2 else 1
    { own := ts.take (1 + kept), children := [before.drop kept], sibling := rest }
  | none => { own := ts.take 2, children := [ts.drop 2] }

def splitLimit (ts : List Token) : Split :=
  { own := ts.take 1, children := [ts.drop 1] }

/-! ## Cases -/

/-- The branches of a case go below, and its end follows. -/
def splitCase (ts : List Token) : Except Fault Split :=
  match cutFirst (fun t => t.isKeyword "WHEN") ts with
  | none => .error .caseWithoutWhen
  | some (own, branches) =>
    .ok (match cutClause "CASE" ["END"] branches with
      | some (before, rest) => { own := own, children := [before], sibling := rest }
      | none => { own := own, children := [branches] })

/-- A branch of a case goes on to the next branch. -/
def splitWhen (ts : List Token) : Split :=
  match cutWhen 0 1 (ts.drop 1) with
  | some (before, rest) => { own := ts.take 1 ++ before, sibling := rest }
  | none => .whole ts

/-! ## Joins -/

def joinTerms : List Token → Except Fault (List (List Token))
  | [] => .error .noToken
  | t :: ts => .ok (if t.key = "ON" then terms (t :: ts) else [t :: ts])

/-- The part of a join between its keyword and the next join: the table stays on the line, and the
condition, from the last word that begins one, goes below. -/
def splitJoined (head joined next : List Token) : Except Fault Split :=
  match cutLast isJoinCondition 0 joined with
  | some (table, condition) => do
    return { own := head ++ table, children := ← joinTerms condition, sibling := next }
  | none => .ok { own := head ++ joined, sibling := next }

/-- A join goes on to the next join. -/
def splitJoin (ts : List Token) : Except Fault Split :=
  match cutFirst (fun t => t.isKeyword "JOIN") ts with
  | some (before, rest) =>
    match cutTop (fun t => t.isKeywordOf joinWords) 0 (rest.drop 1) with
    | some (joined, next) => splitJoined (before ++ rest.take 1) joined next
    | none => splitJoined (before ++ rest.take 1) (rest.drop 1) []
  | none =>
    match ts with
    | [] => .error .noToken
    | head :: _ => .error (.joinMissing head)

/-! ## All clauses -/

/-- The clause that begins with the word `w`, given in upper case. -/
def splitClause (w : String) (ts : List Token) : Except Fault Split :=
  match w with
  | "CREATE" => .ok (splitDefinition ["RETURNS", "LANGUAGE", "AS"] ts)
  | "RETURNS" => .ok (splitDefinition ["LANGUAGE", "AS"] ts)
  | "LANGUAGE" => .ok (splitDefinition ["AS"] ts)
  | "AS" => .ok (splitAs ts)
  | "WITH" => splitWith ts
  | "SELECT" => .ok (splitSelect ts)
  | "FROM" => .ok (splitFrom ts)
  | "WHERE" => .ok (splitWhere ts)
  | "ORDER" => .ok (splitKeys "ORDER" ts)
  | "GROUP" => .ok (splitKeys "GROUP" ts)
  | "HAVING" => .ok (splitHaving ts)
  | "LIMIT" => .ok (splitLimit ts)
  | "CASE" => splitCase ts
  | "WHEN" => .ok (splitWhen ts)
  | _ => if joinWords.contains w then splitJoin ts else .ok (.whole ts)

def splitReserved (ts : List Token) : Except Fault Split :=
  match nameAfterWith ts with
  | [] => .error .noToken
  | head :: rest =>
    if head.kind.isReserved then splitClause head.key (head :: rest)
    else .error (.notReserved head.kind)

/-! ## Runs in their place -/

/-- The node above a line: its depth and the token it begins with. -/
structure Parent where
  depth : Int
  head? : Option Token

/-- The place of a line: its depth and the node above it. -/
structure Place where
  depth : Int
  parent? : Option Parent

/-- A run that begins with a comma: a further table expression at the top, a further item elsewhere. -/
def splitComma (place : Place) (ts : List Token) : Except Fault Split :=
  match place.parent? with
  | none => .error .noParent
  | some parent => if parent.depth = 0 then splitTableExpression ts else .ok (splitItem ts)

/-- A run that begins with a name: a table below `FROM`, and a name alone at the top. -/
def splitName (place : Place) (ts : List Token) : Except Fault Split :=
  match place.parent? with
  | none => .ok (.after 1 ts)
  | some parent =>
    if parent.depth = 0 then .ok (.after 1 ts)
    else
      match parent.head? with
      | none => .error .noToken
      | some head => .ok (if head.isKeyword "FROM" then splitTables ts else splitOther ts)

/-- A run in its place; the kind of the first token tells by which rule it is split. -/
def split (place : Place) (ts : List Token) : Except Fault Split :=
  match ts with
  | [] => .ok (.whole [])
  | head :: _ =>
    match head.kind with
    | .keyword | .function => splitReserved ts
    | .comma => splitComma place ts
    | .identifier => splitName place ts
    | .leftBracket | .operator => .ok (splitOther ts)
    | .rightBracket => .ok (splitRightBracket place.depth ts)
    | _ => .ok (.after 1 ts)

/-! ## Lines that are too long -/

/-- A long branch of a case is broken after `THEN`. -/
def splitLongWhen (ts : List Token) : Except Fault Split :=
  match cutTop (fun t => t.isKeyword "THEN") 0 ts with
  | some (before, rest) =>
    .ok { own := before ++ rest.take 1, children := terms (rest.drop 1) }
  | none => .error .whenWithoutThen

/-- A long line is broken at its first left bracket, if that bracket is closed. -/
def splitLongBrackets (ts : List Token) : Split :=
  match cutFirst (fun t => t.key == "(" && t.kind == .leftBracket) ts with
  | none => .whole ts
  | some (before, rest) =>
    match cutClose (rest.drop 1) with
    | some (inside, after) =>
      { own := before ++ rest.take 1, children := items inside, sibling := after }
    | none => .whole ts

def splitLong (ts : List Token) : Except Fault Split :=
  match ts with
  | [] => .error .noToken
  | head :: _ => if head.key = "WHEN" then splitLongWhen ts else .ok (splitLongBrackets ts)

end SqlStyle.Clause
