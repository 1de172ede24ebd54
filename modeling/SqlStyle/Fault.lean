import SqlStyle.Token

/-! What can go wrong when a statement is checked or laid out, and the text that reports it. -/
namespace SqlStyle
set_option autoImplicit false

/-- The cause for which work on a statement stops. -/
inductive Fault where
  /-- A rule looks at a token that the line does not have. -/
  | noToken
  /-- A reserved word without letters has no head to write large. -/
  | noLetter
  /-- Indentation in steps of no width. -/
  | noStep
  /-- A line that needs a parent has none. -/
  | noParent
  /-- Only a condensed tree can be laid out. -/
  | notCondensed
  /-- A word that must begin a clause is not reserved. -/
  | notReserved (kind : Kind)
  /-- A join word is not followed by a join. -/
  | joinMissing (head : Token)
  /-- A case has no branch. -/
  | caseWithoutWhen
  /-- A branch of a case that is too long has no result. -/
  | whenWithoutThen
  /-- A further table expression begins with something else than a comma. -/
  | commaExpected (found : Token)
  /-- The first table expression has no name. -/
  | withName (found : Token)
  /-- The first table expression has no bracket. -/
  | withBracket (found : Token)
  /-- A further table expression has no name. -/
  | commaName (found : Token)
  /-- A further table expression has no bracket. -/
  | commaBracket (found : Token)
  /-- Lines are counted from zero on. -/
  | negativeLine (number : Int)
  /-- Depth is counted from zero on. -/
  | negativeDepth (depth : Int)
  /-- Only one dialect is read. -/
  | unknownDialect (name : String)
deriving DecidableEq, Repr

namespace Fault

def message : Fault → String
  | noToken => "list index out of range"
  | noLetter => "string index out of range"
  | noStep => "integer modulo by zero"
  | noParent => ""
  | notCondensed => "Failed to format, because target SyntaxTree is not Abstract"
  | notReserved kind => "token kind must be reserved KEYWORD or FUNCTION, but " ++ kind.name
  | joinMissing head => head.display ++ " needs \"JOIN\" context"
  | caseWithoutWhen => "\"CASE\" sequence requires one or more \"WHEN\" sequense"
  | whenWithoutThen => "\"THEN\" is requires one or more \"WHEN\" sequense"
  | commaExpected found => "a head of tokens must be \",\" sequence, but " ++ found.display
  | withName found => "next of \"WITH\" must be identifier, but " ++ found.display
  | withBracket found =>
    "next of \"AS\" must be \"(\" in \"WITH\" sequence, but " ++ found.display
  | commaName found => "next of \"WITH\" or \",\" must be identifier, but " ++ found.display
  | commaBracket found =>
    "next of \"AS\" must be \"(\" in \"WITH\" or \",\" sequence, but " ++ found.display
  | negativeLine number => "line_num must be ≧ 0, but " ++ toString number
  | negativeDepth depth => "depth must be ≧ 0, but " ++ toString depth
  | unknownDialect name =>
    "this linter can parses only \"StandardSQL\" right now, but " ++ name

end Fault

/-- An edit that may stop early: how far it got, and the fault that stopped it, if one did. -/
structure Edit (α : Type) where
  value : α
  fault? : Option Fault := none

namespace Edit
variable {α β : Type}

def map (f : α → β) (e : Edit α) : Edit β :=
  ⟨f e.value, e.fault?⟩

/-- Go on with a second edit unless the first one stopped. -/
def andThen (e : Edit α) (f : α → Edit α) : Edit α :=
  match e.fault? with
  | some _ => e
  | none => f e.value

/-- Edit the members of a list one by one; those after a fault stay as they are. -/
def each (f : α → Edit α) : List α → Edit (List α)
  | [] => ⟨[], none⟩
  | a :: as =>
    let e := f a
    match e.fault? with
    | some fault => ⟨e.value :: as, some fault⟩
    | none => (each f as).map (e.value :: ·)

def toExcept (e : Edit α) : Except Fault α :=
  match e.fault? with
  | some fault => .error fault
  | none => .ok e.value

end Edit
end SqlStyle
