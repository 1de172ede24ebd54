import SqlStyle.Layout
import SqlStyle.Tree.Walk

/-! Tokens that are shown at several places. The places bear one mark, and a change at one of them is a
change at all of them: what a pass does to a token, it does to the token as the places before have left
it. Changes are kept as a list of the tokens after each change, from the latest change on. -/
namespace SqlStyle.Session
set_option autoImplicit false

/-! ## Marks -/

/-- Mark the tokens that have no mark yet, from the number `next` on. -/
def markTokens (next : Nat) : List Token → List Token × Nat
  | [] => ([], next)
  | t :: ts =>
    let (t, next) := if t.mark.isSome then (t, next) else ({ t with mark := some next }, next + 1)
    let (ts, next) := markTokens next ts
    (t :: ts, next)

def markNode (n : Node) (next : Nat) : Node × Nat :=
  let (ts, next) := markTokens next n.tokens
  ({ n with tokens := ts }, next)

/-! ## Changes -/

/-- The token as the latest change to it has left it. -/
def current (changes : List Token) (t : Token) : Token :=
  (changes.find? fun c => c.mark.isSome && c.mark == t.mark).getD t

/-- The changes after the tokens have been written in a style, one by one up to the first fault. A token
that comes again is written again. -/
def restyled (style : KeywordStyle) (changes : List Token) : List Token → List Token
  | [] => changes
  | t :: ts =>
    let e := Layout.restyle style (current changes t)
    if e.fault?.isSome then changes else restyled style (e.value :: changes) ts

/-- The changes after the lines have been indented, one by one up to the first fault. Only the token at
the head of a line can change. -/
def indented (steps : Nat) (changes : List Token) : List Node → List Token
  | [] => changes
  | n :: ns =>
    let e := Layout.indentLine steps n
    if e.fault?.isSome then changes else indented steps (e.value.tokens.take 1 ++ changes) ns

/-- The changes that a pass over a tree makes to its tokens; the other passes move tokens only. -/
def changesOf (pass : Layout.Pass) (s : Settings) (t : Tree) : List Token :=
  match pass with
  | .keywords => restyled s.keywordStyle [] (t.beneath.flatMap fun n => n.tokens)
  | .indentation => indented s.indentSteps [] t.beneath
  | .joins | .commas | .blankLines | .spaces => []

end SqlStyle.Session
