import SqlStyle.Fault

/-! A line: its number in the text and its tokens. -/
namespace SqlStyle
set_option autoImplicit false

structure Line where
  number : Nat
  tokens : List Token
deriving DecidableEq, Repr

namespace Line

/-- A line with a number that may turn out to be out of bounds. -/
def ofInt? (number : Int) (tokens : List Token) : Except Fault Line :=
  if number < 0 then .error (.negativeLine number) else .ok ⟨number.toNat, tokens⟩

def text (line : Line) : String :=
  String.join (line.tokens.map Token.word)

/-- The width of the whitespace that begins a line. -/
def indent (line : Line) : Nat :=
  match line.tokens with
  | t :: _ => if t.kind = .whitespace then t.length else 0
  | [] => 0

def display (line : Line) : String :=
  String.intercalate " " (line.tokens.map Token.display)

/-- The column, counted from one, at which the token with the given index starts. -/
def column (line : Line) (index : Int) : Nat :=
  Token.width (line.tokens.take index.toNat) + 1

/-! ## Edits -/

/-- The list with `a` put at an index. An index below zero counts from the end, and one out of bounds
means the nearer end. -/
def insertAt {α : Type} (index : Int) (a : α) (as : List α) : List α :=
  let i := if index < 0 then (index + as.length).toNat else index.toNat
  as.take i ++ a :: as.drop i

def insert (index : Int) (t : Token) (line : Line) : Line :=
  { line with tokens := insertAt index t line.tokens }

def extend (ts : List Token) (line : Line) : Line :=
  { line with tokens := line.tokens ++ ts }

/-- The line without the tokens of the given kinds at its head. -/
def trimHead (kinds : List Kind) (line : Line) : Line :=
  { line with tokens := line.tokens.dropWhile fun t => kinds.contains t.kind }

def trimEnd (kinds : List Kind) (line : Line) : Line :=
  { line with
    tokens := (line.tokens.reverse.dropWhile fun t => kinds.contains t.kind).reverse }

def trimBoth (kinds : List Kind) (line : Line) : Line :=
  (line.trimHead kinds).trimEnd kinds

end Line
end SqlStyle
