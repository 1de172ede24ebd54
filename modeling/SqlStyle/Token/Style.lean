import SqlStyle.Fault

/-! How reserved words are written. -/
namespace SqlStyle
set_option autoImplicit false

/-- The case in which reserved words are written. -/
inductive KeywordStyle where
  | lower
  | upperAll
  | upperHead
deriving DecidableEq, Repr

namespace KeywordStyle

def name : KeywordStyle → String
  | lower => "lower"
  | upperAll => "upper-all"
  | upperHead => "upper-head"

def ofName? (s : String) : Option KeywordStyle :=
  [lower, upperAll, upperHead].find? fun style => style.name == s

/-- A word with its first character in upper case and the others in lower case. -/
def headUpper (s : String) : String :=
  match s.toList with
  | [] => ""
  | c :: cs => String.ofList (Text.upperChar c ++ Text.lowerFrom [] cs)

def spell : KeywordStyle → String → String
  | lower, s => Text.lower s
  | upperAll, s => Text.upper s
  | upperHead, s => headUpper s

/-- A word in a style, unless the style asks for a head that the word does not have. -/
def write (style : KeywordStyle) (s : String) : Except Fault String :=
  if style = upperHead ∧ s = "" then .error .noLetter else .ok (style.spell s)

end KeywordStyle
end SqlStyle
