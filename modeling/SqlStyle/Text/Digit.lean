import SqlStyle.Text.Blank

/-! Decimal digits of all scripts, and whole numbers written with them. -/
namespace SqlStyle.Text
set_option autoImplicit false

/-- The code points of the zeros; the nine other digits of a script follow its zero. -/
def zeros : List Nat := [
  0x30, 0x660, 0x6f0, 0x7c0, 0x966, 0x9e6, 0xa66, 0xae6, 0xb66, 0xbe6, 0xc66, 0xce6, 0xd66, 0xde6,
  0xe50, 0xed0, 0xf20, 0x1040, 0x1090, 0x17e0, 0x1810, 0x1946, 0x19d0, 0x1a80, 0x1a90, 0x1b50,
  0x1bb0, 0x1c40, 0x1c50, 0xa620, 0xa8d0, 0xa900, 0xa9d0, 0xa9f0, 0xaa50, 0xabf0, 0xff10, 0x104a0,
  0x10d30, 0x11066, 0x110f0, 0x11136, 0x111d0, 0x112f0, 0x11450, 0x114d0, 0x11650, 0x116c0,
  0x11730, 0x118e0, 0x11950, 0x11c50, 0x11d50, 0x11da0, 0x16a60, 0x16ac0, 0x16b50, 0x1d7ce,
  0x1d7d8, 0x1d7e2, 0x1d7ec, 0x1d7f6, 0x1e140, 0x1e2f0, 0x1e950, 0x1fbf0]

def digit? (c : Char) : Option Nat :=
  (zeros.find? fun z => z ≤ c.toNat && c.toNat < z + 10).map fun z => c.toNat - z

/-- The character with a digit of any script replaced by the plain one. -/
def plainDigit (c : Char) : Char :=
  match digit? c with
  | some d => Nat.digitChar d
  | none => c

/-- The text without the underscores that stand between two digits; none if an underscore stands
elsewhere. The character `prev` comes before the text. -/
def dropUnderscores (prev : Char) : List Char → Option (List Char)
  | [] => some []
  | '_' :: c :: rest =>
    if prev.isDigit && c.isDigit then (dropUnderscores c rest).map (c :: ·) else none
  | '_' :: [] => none
  | c :: rest => (dropUnderscores c rest).map (c :: ·)

def digitsValue (value : Nat) (cs : List Char) : Nat :=
  cs.foldl (fun n c => 10 * n + (c.toNat - 48)) value

def signed : List Char → Bool × List Char
  | '-' :: cs => (true, cs)
  | '+' :: cs => (false, cs)
  | cs => (false, cs)

/-- The digits of a whole number and whether it is negative. Blanks may stand around it and an underscore
between two digits. -/
def wholeDigits? (cs : List Char) : Option (Bool × List Char) :=
  let (negative, body) := signed (trim (cs.map plainDigit))
  match dropUnderscores ' ' body with
  | some ds => if ds ≠ [] ∧ ds.all Char.isDigit then some (negative, ds) else none
  | none => none

def wholeValue (negative : Bool) (ds : List Char) : Int :=
  if negative then -(digitsValue 0 ds : Int) else digitsValue 0 ds

end SqlStyle.Text
