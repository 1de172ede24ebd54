import SqlStyle.Text.Case

/-! Tokens: the words of a statement, each with its kind, and the two ways in which they are shown. -/
namespace SqlStyle
set_option autoImplicit false

/-! ## Kinds -/

/-- What a token is. -/
inductive Kind where
  | comma
  | dot
  | leftBracket
  | rightBracket
  | keyword
  | function
  | operator
  | comment
  | identifier
  | whitespace
  | unknown
  | other (name : String)
deriving DecidableEq, Repr

namespace Kind

def name : Kind → String
  | comma => "Comma"
  | dot => "Dot"
  | leftBracket => "Left Bracket"
  | rightBracket => "Right Bracket"
  | keyword => "Keyword"
  | function => "Function"
  | operator => "Operator"
  | comment => "Comment"
  | identifier => "Identifier"
  | whitespace => "Whitespace"
  | unknown => "Unknown"
  | other name => name

def named : List Kind :=
  [comma, dot, leftBracket, rightBracket, keyword, function, operator, comment, identifier,
    whitespace, unknown]

def ofName (s : String) : Kind :=
  (named.find? fun k => k.name == s).getD (other s)

/-- Keywords and functions are the reserved words. -/
def isReserved (k : Kind) : Bool :=
  k == keyword || k == function

/-- Whitespace and comments stand around the code. -/
def isTrivia (k : Kind) : Bool :=
  k == whitespace || k == comment

end Kind

/-! ## Tokens -/

/-- A word of a statement. Within an editing session one token may be shown at several places; the
places then bear the same `mark`. -/
structure Token where
  kind : Kind
  word : String
  mark : Option Nat := none
deriving DecidableEq, Repr

namespace Token

def length (t : Token) : Nat :=
  t.word.length

/-- The word in upper case, by which words are compared. -/
def key (t : Token) : String :=
  Text.upper t.word

def display (t : Token) : String :=
  "< " ++ t.kind.name ++ ": " ++ t.word ++ " >"

def listing (t : Token) : String :=
  "token.Token(\"" ++ t.word ++ "\", " ++ t.kind.name ++ ")"

/-- Two tokens agree if they have one kind and their words differ at most in case. -/
def agrees (a b : Token) : Bool :=
  a.key == b.key && a.kind == b.kind

/-- The token is the keyword `w`, which is given in upper case. -/
def isKeyword (w : String) (t : Token) : Bool :=
  t.key == w && t.kind == .keyword

/-- The token is one of the keywords `ws`, which are given in upper case. -/
def isKeywordOf (ws : List String) (t : Token) : Bool :=
  ws.any fun w => t.isKeyword w

theorem isKeyword_of_key_ne {w : String} {t : Token} (h : t.key ≠ w) : t.isKeyword w = false := by
  rw [isKeyword, Bool.and_eq_false_iff]
  exact .inl (by simpa using h)

theorem isKeywordOf_of_kind_ne (ws : List String) (t : Token) (h : t.kind ≠ .keyword) :
    t.isKeywordOf ws = false := by
  rw [isKeywordOf, List.any_eq_false]
  intro w _
  simp [isKeyword, h]

/-- How a token changes the bracket depth. -/
def level (t : Token) : Int :=
  match t.kind with
  | .leftBracket => 1
  | .rightBracket => -1
  | _ => 0

theorem neg_one_le_level (t : Token) : -1 ≤ t.level := by
  unfold level
  split <;> decide

theorem level_le_one (t : Token) : t.level ≤ 1 := by
  unfold level
  split <;> decide

theorem kind_of_level_neg {t : Token} (h : t.level < 0) : t.kind = .rightBracket := by
  unfold level at h
  split at h <;> simp_all

theorem kind_of_level_pos {t : Token} (h : 0 < t.level) : t.kind = .leftBracket := by
  unfold level at h
  split at h <;> simp_all

def width : List Token → Nat
  | [] => 0
  | t :: ts => t.length + width ts

end Token

/-- Lists of tokens, one for each line, as they appear in a listing. -/
def listing (lines : List (List Token)) : String :=
  let brackets (items : List String) := "[" ++ String.intercalate ", " items ++ "]"
  brackets (lines.map fun ts => brackets (ts.map Token.listing))

end SqlStyle
