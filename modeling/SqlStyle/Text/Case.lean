import SqlStyle.Text.Blank
import SqlStyle.Text.CaseTable

/-! Upper and lower case of a text. A letter may take several characters in its other case, so both
maps can change the length; the small sigma that ends a word has a form of its own. -/
namespace SqlStyle.Text
set_option autoImplicit false

/-- The other case of a character, read off a table of runs and a table of expansions. -/
def otherCase (runs : List CaseRun) (expansions : List (Nat × List Nat)) (c : Char) : List Char :=
  match expansions.lookup c.toNat with
  | some points => points.map Char.ofNat
  | none =>
    match runs.find? (fun run => run.holds c.toNat) with
    | some run => [Char.ofNat (c.toNat + run.shift).toNat]
    | none => [c]

/-! ## Upper case -/

def upperChar (c : Char) : List Char :=
  if c.toNat < 128 then [c.toUpper] else otherCase upperRuns upperExpansions c

def upper (s : String) : String :=
  String.ofList (s.toList.flatMap upperChar)

/-! ## Lower case -/

def lowerChar (c : Char) : List Char :=
  if c.toNat < 128 then [c.toLower] else otherCase lowerRuns lowerExpansions c

/-- The next character that counts has a case. -/
def meetsLetter (cs : List Char) : Bool :=
  match cs.dropWhile (fun c => inRanges skippedRanges c.toNat) with
  | [] => false
  | c :: _ => inRanges casedRanges c.toNat

/-- The lower case of the text `cs` that follows the characters `before`, the nearest one first. A
capital sigma becomes the final form after a letter, if no letter follows. -/
def lowerFrom (before : List Char) : List Char → List Char
  | [] => []
  | c :: rest =>
    (if c = 'Σ' then [if meetsLetter before && !meetsLetter rest then 'ς' else 'σ'] else lowerChar c)
      ++ lowerFrom (c :: before) rest

def lower (s : String) : String :=
  String.ofList (lowerFrom [] s.toList)

end SqlStyle.Text
