import SqlStyle.Lint.Violation
import SqlStyle.Lint.Window

/-! Commas stand at the head or at the end of a line, unless a bracket pair of the line holds them. -/
namespace SqlStyle.Lint
set_option autoImplicit false

/-- How many of the tokens are the bracket `w` of kind `k`. -/
def countBracket (k : Kind) (w : String) (ts : List Token) : Int :=
  ts.countP fun t => t.key == w && t.kind == k

/-- By how many the left brackets outnumber the right ones. -/
def openBrackets (ts : List Token) : Int :=
  countBracket .leftBracket "(" ts - countBracket .rightBracket ")" ts

/-- A bracket is open before the window and closed after it. -/
def isBracketed (w : Window) : Bool :=
  0 < openBrackets w.before && openBrackets w.after < 0

/-- The window is at the end of the line at which commas stand. -/
def isAtPlace (position : CommaPosition) (w : Window) : Bool :=
  match position with
  | .head => w.before.isEmpty
  | .tail => w.after.isEmpty

/-- The commas of a line that stand at the wrong place. Whitespace and comments around the code do
not count. -/
def commas (position : CommaPosition) (line : Line) : List Violation :=
  let code := line.trimHead [.whitespace, .comment]
  let skipped := line.tokens.length - code.tokens.length
  let misplaced := (windows (code.trimEnd [.whitespace, .comment]).tokens).filter fun w =>
    w.token.word == "," && !isAtPlace position w && !isBracketed w
  misplaced.map fun w => .ofLine line (.ofPosition position) (skipped + w.index : Nat)

end SqlStyle.Lint
