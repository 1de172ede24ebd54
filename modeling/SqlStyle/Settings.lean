import SqlStyle.Token.Style

/-! The settings of a run: the values as they are given, and the settings that take effect, in which a
value out of bounds is replaced with a warning. -/
namespace SqlStyle
set_option autoImplicit false

/-- Where a comma stands when a line is broken at it. -/
inductive CommaPosition where
  | head
  | tail
deriving DecidableEq, Repr

def CommaPosition.ofName? (s : String) : Option CommaPosition :=
  if s = "head" then some .head else if s = "end" then some .tail else none

def CommaPosition.name : CommaPosition → String
  | .head => "head"
  | .tail => "end"

structure Settings where
  maxLineLength : Nat
  commaPosition : CommaPosition
  keywordStyle : KeywordStyle
  indentSteps : Nat
deriving DecidableEq, Repr

/-- The values as they are given. -/
structure Values where
  maxLineLength : Int := 128
  commaPosition : String := "head"
  keywordStyle : String := "lower"
  indentSteps : Int := 4
deriving DecidableEq, Repr

namespace Values

/-- The settings that take effect. A line is at least 32 characters long, and the width of a step is
not negative. -/
def settings (v : Values) : Settings where
  maxLineLength := if v.maxLineLength < 32 then 128 else v.maxLineLength.toNat
  commaPosition := (CommaPosition.ofName? v.commaPosition).getD .head
  keywordStyle := (KeywordStyle.ofName? v.keywordStyle).getD .lower
  indentSteps := if v.indentSteps < 0 then 4 else v.indentSteps.toNat

def warnings (v : Values) : List String :=
  (if v.maxLineLength < 32 then
    ["max-line-length value must be more 32, but " ++ toString v.maxLineLength ++
      " So defualt value(128) was used."] else []) ++
  (if (CommaPosition.ofName? v.commaPosition).isNone then
    ["comma-position value must be \"head\" or \"end\", but " ++ v.commaPosition ++
      " So defualt value(before) was used."] else []) ++
  (if (KeywordStyle.ofName? v.keywordStyle).isNone then
    ["keyword-style value must be \"upper-all\", \"lower\" or \"upper-head\", but " ++
      v.keywordStyle ++ ". So default value(lower) was used."] else []) ++
  (if v.indentSteps < 0 then
    ["indent-steps value must be more 0, but " ++ toString v.indentSteps ++
      " So defualt value(4) was used."] else [])

end Values
end SqlStyle
