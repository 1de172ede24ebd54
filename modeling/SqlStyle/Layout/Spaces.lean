import SqlStyle.Token

/-! The whitespace between the tokens of a line. -/
namespace SqlStyle.Layout
set_option autoImplicit false

def blanks (n : Nat) : Token :=
  ⟨.whitespace, String.ofList (List.replicate n ' '), none⟩

/-- Nothing comes between the two tokens: on the inner side of a bracket, around a dot, before a comma,
after whitespace, and between a function, or what may be one, and its bracket. -/
def isTight (t next : Token) : Bool :=
  [.dot, .leftBracket, .whitespace, .function].contains t.kind ||
    [.comma, .dot, .rightBracket].contains next.kind ||
    (t.kind == .identifier && next.kind == .leftBracket)

/-- The whitespace between two tokens: two characters before a comment, and one elsewhere. -/
def gap (t next : Token) : List Token :=
  if isTight t next then [] else [blanks (if next.kind = .comment then 2 else 1)]

def spaceOut : List Token → List Token
  | [] => []
  | [t] => [t]
  | t :: next :: rest => t :: gap t next ++ spaceOut (next :: rest)

def spacedLength (ts : List Token) : Nat :=
  Token.width (spaceOut ts)

end SqlStyle.Layout
