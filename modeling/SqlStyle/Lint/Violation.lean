import SqlStyle.Settings
import SqlStyle.Tree

/-! Violations: the rule that a line breaks, the place, and the text that reports it. -/
namespace SqlStyle
set_option autoImplicit false

/-! ## Codes -/

inductive Code where
  | indentSteps
  | multipleSpaces
  | noSpaceAfterComma
  | spaceBeforeComma
  | spaceAfterBracket
  | spaceBeforeBracket
  | noSpaceAfterOperator
  | noSpaceBeforeOperator
  | commaNotHead
  | commaNotEnd
  | keywordNotUpper
  | keywordNotUpperHead
  | keywordNotLower
  | joinWithoutTable
  | joinIncomplete
  | multipleBlankLines
  | onlyWhitespace
  | noBreakBefore
  | noBreakAfter
deriving DecidableEq, Repr

/-- A part of a report: fixed words, or a detail of the violation. -/
inductive ReportPart where
  | words (s : String)
  | expected
  | actual
  | target

namespace Code
open ReportPart

def number : Code → String
  | indentSteps => "E101"
  | multipleSpaces => "E201"
  | noSpaceAfterComma => "E202"
  | spaceBeforeComma => "E203"
  | spaceAfterBracket => "E204"
  | spaceBeforeBracket => "E205"
  | noSpaceAfterOperator => "E206"
  | noSpaceBeforeOperator => "E207"
  | commaNotHead => "E301"
  | commaNotEnd => "E302"
  | keywordNotUpper => "E401"
  | keywordNotUpperHead => "E402"
  | keywordNotLower => "E403"
  | joinWithoutTable => "E501"
  | joinIncomplete => "E502"
  | multipleBlankLines => "E601"
  | onlyWhitespace => "E602"
  | noBreakBefore => "E603"
  | noBreakAfter => "E604"

def report : Code → List ReportPart
  | indentSteps =>
    [words "indent steps must be ", expected, words " multiples, but ", actual, words " spaces"]
  | multipleSpaces => [words "there are multiple whitespaces"]
  | noSpaceAfterComma => [words "whitespace must be after comma: ", target]
  | spaceBeforeComma => [words "whitespace must not be before comma: ,"]
  | spaceAfterBracket => [words "whitespace must not be after bracket: ", target]
  | spaceBeforeBracket => [words "whitespace must not be before bracket: ", target]
  | noSpaceAfterOperator => [words "whitespace must be after binary operator: ", target]
  | noSpaceBeforeOperator => [words "whitespace must be before binary operator: ", target]
  | commaNotHead => [words "comma must be head of line"]
  | commaNotEnd => [words "comma must be end of line"]
  | keywordNotUpper =>
    [words "reserved keywords must be upper case: ", actual, words " -> ", expected]
  | keywordNotUpperHead =>
    [words "a head of reserved keywords must be upper case: ", actual, words " -> ", expected]
  | keywordNotLower =>
    [words "reserved keywords must be lower case: ", actual, words " -> ", expected]
  | joinWithoutTable => [words "table_name must be at the same line as join context"]
  | joinIncomplete => [words "join context must be fully: ", actual, words " -> ", expected]
  | multipleBlankLines => [words "there are multiple blank lines"]
  | onlyWhitespace => [words "this line has only whitespace"]
  | noBreakBefore => [words "expected to break line after: ", target]
  | noBreakAfter => [words "expected to break line after: ", target]

def ofStyle : KeywordStyle → Code
  | .upperAll => keywordNotUpper
  | .upperHead => keywordNotUpperHead
  | .lower => keywordNotLower

def ofPosition : CommaPosition → Code
  | .head => commaNotHead
  | .tail => commaNotEnd

end Code

/-! ## Violations -/

/-- The words that a report fills in. -/
structure Details where
  expected? : Option String := none
  actual? : Option String := none
  target? : Option String := none
deriving DecidableEq, Repr

/-- A broken rule, the line on which and the column at which it is broken, both counted from one. -/
structure Violation where
  code : Code
  line : Nat
  column : Nat
  details : Details := {}
deriving DecidableEq, Repr

/-- A violation that cannot be made or reported. -/
inductive Violation.Problem where
  /-- The report needs a detail that is not given. -/
  | noDetail (name : String)
  /-- The rule cannot be told without a detail of the given name. -/
  | notPassed (name : String)
  /-- A detail bears a name under which the report has a value of its own. -/
  | taken (name : String)
  | unknownStyle
  | unknownCommaPosition
  | unknownSide
  | unknownBreak
  | unknownKind
deriving DecidableEq, Repr

def Violation.Problem.message : Violation.Problem → String
  | .noDetail name => "'" ++ name ++ "'"
  | .notPassed name => "'" ++ name ++ " must be passed.'"
  | .taken name => "'" ++ name ++ " must not be passed.'"
  | .unknownStyle => "keyword style must be in [upper-all, upper-head, lower]"
  | .unknownCommaPosition => "position must be in [head, end]"
  | .unknownSide => "whitespace position must be in [before, after]"
  | .unknownBreak => "position must be in [before, after]"
  | .unknownKind => "token kind must be in [Comma, Left Bracket, Right Bracket, Operator]"

namespace Violation

/-- A violation at the token with the given index of a line. -/
def ofLine (line : Line) (code : Code) (index : Int) (details : Details := {}) : Violation :=
  ⟨code, line.number, line.column index, details⟩

def fill (d : Details) : ReportPart → Except Problem String
  | .words s => .ok s
  | .expected => d.expected?.elim (.error (.noDetail "expected")) .ok
  | .actual => d.actual?.elim (.error (.noDetail "actual")) .ok
  | .target => d.target?.elim (.error (.noDetail "target")) .ok

def text (v : Violation) : Except Problem String := do
  let parts ← v.code.report.mapM (fill v.details)
  return "(L" ++ toString v.line ++ ", " ++ toString v.column ++ "): " ++ String.join parts

/-- Violations are reported by line, and on one line by column. -/
def before (a b : Violation) : Bool :=
  a.line < b.line || (a.line == b.line && a.column < b.column)

/-- The violations in the order in which they are reported; those at one place keep their order. -/
def sorted (vs : List Violation) : List Violation :=
  vs.mergeSort fun a b => !b.before a

/-! ## Rules told by their details -/

/-- A group of rules; the details tell which of them is broken. -/
inductive Family where
  | indentSteps
  | keywordStyle
  | commaPosition
  | multipleSpaces
  | spacing
  | joinTable
  | joinContext
  | blankLines
  | onlyWhitespace
  | lineBreak
deriving DecidableEq, Repr

inductive Detail where
  | text (s : String)
  | number (n : Int)
deriving DecidableEq, Repr

def Detail.words : Detail → String
  | text s => s
  | number n => toString n

/-- One of the two sides of a token, if the detail names it. -/
def side {α : Type} (d : Detail) (before after : α) (problem : Problem) : Except Problem α :=
  if d = .text "before" then .ok before
  else if d = .text "after" then .ok after
  else .error problem

def Family.code (family : Family) (details : List (String × Detail)) : Except Problem Code :=
  let passed (name : String) : Except Problem Detail :=
    (details.lookup name).elim (.error (.notPassed name)) .ok
  match family with
  | .indentSteps => .ok .indentSteps
  | .multipleSpaces => .ok .multipleSpaces
  | .joinTable => .ok .joinWithoutTable
  | .joinContext => .ok .joinIncomplete
  | .blankLines => .ok .multipleBlankLines
  | .onlyWhitespace => .ok .onlyWhitespace
  | .keywordStyle => do
    let style ← passed "style"
    ((KeywordStyle.ofName? style.words).map Code.ofStyle).elim (.error .unknownStyle) .ok
  | .commaPosition => do
    let position ← passed "comma_position"
    ((CommaPosition.ofName? position.words).map Code.ofPosition).elim
      (.error .unknownCommaPosition) .ok
  | .lineBreak => do
    side (← passed "position") .noBreakBefore .noBreakAfter .unknownBreak
  | .spacing => do
    let kind ← passed "token"
    let position ← passed "position"
    match Kind.ofName kind.words with
    | .comma => side position .spaceBeforeComma .noSpaceAfterComma .unknownSide
    | .leftBracket => .ok .spaceAfterBracket
    | .rightBracket => .ok .spaceBeforeBracket
    | .operator => side position .noSpaceBeforeOperator .noSpaceAfterOperator .unknownSide
    | _ => .error .unknownKind

/-- The values that every report has, by name: the rule, the line and the column. -/
def ownDetails : List String :=
  ["code", "line", "pos"]

/-- The violation of a family's rule at the token with the given index of a line. -/
def ofFamily (family : Family) (line : Line) (index : Int) (details : List (String × Detail)) :
    Except Problem Violation := do
  let words (name : String) := (details.lookup name).map Detail.words
  let code ← family.code details
  match ownDetails.find? fun name => (words name).isSome with
  | some name => throw (.taken name)
  | none => return ofLine line code index ⟨words "expected", words "actual", words "target"⟩

end Violation
end SqlStyle
