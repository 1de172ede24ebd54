import SqlStyle.Lint.Violation
import SqlStyle.Lint.Window

/-! Whitespace between tokens: one space at most, none before a comma and one after it, none on the
inner side of a bracket, and one on either side of an operator. -/
namespace SqlStyle.Lint
set_option autoImplicit false

def isSpace (t : Token) : Bool :=
  t.kind == .whitespace

/-- The token before the one in the window, if it is not the first one of the line. -/
def inner? (w : Window) : Option Token :=
  match w.before with
  | b :: _ :: _ => some b
  | _ => none

/-! ## Several spaces -/

/-- Whitespace of more than one character, but for the two that come before a comment. -/
def isWide (w : Window) : Bool :=
  isSpace w.token && 1 < w.token.length &&
    !(w.token.length == 2 && (w.after.head?.any fun t => t.kind == .comment))

/-- Several spaces in a row are reported at the token before them. -/
def multipleSpaces (line : Line) : List Violation :=
  ((windows line.tokens).filter fun w => 0 < w.index && isWide w).map fun w =>
    .ofLine line .multipleSpaces (w.index - 1)

/-! ## Commas -/

def commaSpaces (line : Line) (w : Window) : List Violation :=
  match w.after with
  | [] => []
  | next :: _ =>
    if w.token.kind == .comma then
      (if (inner? w).any isSpace then [.ofLine line .spaceBeforeComma w.index] else []) ++
      (if isSpace next then []
        else [.ofLine line .noSpaceAfterComma w.index
          { target? := some (w.token.word ++ next.word) }])
    else []

/-! ## Brackets -/

def bracketSpaces (line : Line) (w : Window) : List Violation :=
  match w.after with
  | [] => []
  | next :: _ =>
    (if w.token.kind == .leftBracket && isSpace next then
      [.ofLine line .spaceAfterBracket w.index { target? := some (w.token.word ++ next.word) }]
      else []) ++
    (match inner? w with
      | some prev =>
        if w.token.kind == .rightBracket && isSpace prev then
          [.ofLine line .spaceBeforeBracket w.index
            { target? := some (prev.word ++ w.token.word) }]
        else []
      | none => [])

/-! ## Operators -/

def operatorSpaces (line : Line) (w : Window) : List Violation :=
  match w.after with
  | [] => []
  | next :: _ =>
    if w.token.kind == .operator then
      (match inner? w with
        | some prev =>
          if isSpace prev then []
          else [.ofLine line .noSpaceBeforeOperator w.index
            { target? := some (prev.word ++ w.token.word) }]
        | none => []) ++
      (if isSpace next then []
        else [.ofLine line .noSpaceAfterOperator w.index
          { target? := some (w.token.word ++ next.word) }])
    else []

/-! ## All of them -/

def onWindows (rule : Line → Window → List Violation) (line : Line) : List Violation :=
  (windows line.tokens).flatMap (rule line)

def spacingRules : List (Line → List Violation) :=
  [multipleSpaces, onWindows commaSpaces, onWindows bracketSpaces, onWindows operatorSpaces]

def spacing (lines : List Line) : List Violation :=
  spacingRules.flatMap fun rule => lines.flatMap rule

end SqlStyle.Lint
