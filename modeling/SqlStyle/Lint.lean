import SqlStyle.Lint.BlankLines
import SqlStyle.Lint.Commas
import SqlStyle.Lint.Joins
import SqlStyle.Lint.Spacing

/-! Checking a tree: each check reads the lines below the top in reading order. The check for blank lines walks the
tree itself. -/
namespace SqlStyle.Lint
set_option autoImplicit false

/-! ## Checks that may stop -/

/-- The findings on each member of a list, in order, up to the first fault. -/
def gather {α β : Type} (f : α → Except Fault (List β)) : List α → Except Fault (List β)
  | [] => .ok []
  | a :: as => do
    let found ← f a
    let rest ← gather f as
    return found ++ rest

/-- Lines are indented by a multiple of the step. -/
def indentation (steps : Nat) (line : Line) : Except Fault (List Violation) :=
  if steps = 0 then .error .noStep
  else .ok (if line.indent % steps = 0 then []
    else [.ofLine line .indentSteps 0
      { expected? := some (toString steps), actual? := some (toString line.indent) }])

def keywordCase (style : KeywordStyle) (line : Line) : Except Fault (List Violation) :=
  gather (fun w => do
    if w.token.kind.isReserved then
      let expected ← style.write w.token.word
      return if w.token.word = expected then []
        else [.ofLine line (.ofStyle style) w.index
          { actual? := some w.token.word, expected? := some expected }]
    else return []) (windows line.tokens)

/-! ## The checks -/

/-- A group of rules that is checked at once. -/
inductive Check where
  | indentation
  | spacing
  | keywordCase
  | commas
  | joins
  | blankLines
deriving DecidableEq, Repr

def checks : List Check :=
  [.indentation, .spacing, .keywordCase, .commas, .joins, .blankLines]

def Check.run (check : Check) (s : Settings) (t : Tree) : Except Fault (List Violation) :=
  let lines := t.beneath.map Node.toLine
  match check with
  | .indentation => gather (Lint.indentation s.indentSteps) lines
  | .spacing => .ok (Lint.spacing lines)
  | .keywordCase => gather (Lint.keywordCase s.keywordStyle) lines
  | .commas => .ok (lines.flatMap (Lint.commas s.commaPosition))
  | .joins => do
    let tables ← gather (fun line => gather (joinTable line) (Lint.joins line)) lines
    return tables ++ lines.flatMap fun line => (Lint.joins line).flatMap (joinContext line)
  | .blankLines => .ok (Lint.blankLines t)

def findings (s : Settings) (t : Tree) : Except Fault (List Violation) :=
  gather (fun check => check.run s t) checks

/-- What all checks find in a tree, in the order in which it is reported. -/
def report (s : Settings) (t : Tree) : Except Fault (List Violation) :=
  (findings s t).map Violation.sorted

end SqlStyle.Lint
