import SqlStyle.Text.Digit

/-! Numbers with a point, held to 53 binary digits: a decimal is rounded to the nearest such number, and
such a number is written with the fewest decimal digits that are read back as it. -/
namespace SqlStyle.Text
set_option autoImplicit false

/-- A number `significand * 2 ^ exponent` with a sign, or what is none. -/
inductive Binary64 where
  | finite (negative : Bool) (significand : Nat) (exponent : Int)
  | infinite (negative : Bool)
  | undefined
deriving DecidableEq, Repr

namespace Binary64

/-! ## Rounding -/

/-- The quotient rounded to the nearest whole number, and to the even one of two that are as near. -/
def roundQuotient (num den : Nat) : Nat :=
  let q := num / den
  let r := num % den
  if 2 * r < den ∨ (2 * r = den ∧ q % 2 = 0) then q else q + 1

/-- The quotient `num / den * 2 ^ (-e)` as a quotient of whole numbers. -/
def scaled (num den : Nat) (e : Int) : Nat × Nat :=
  if e < 0 then (num * Nat.pow 2 (-e).toNat, den) else (num, den * Nat.pow 2 e.toNat)

/-- The exponent at which a positive quotient has a significand of 53 binary digits, but not less than
the least exponent. -/
def exponentOf (num den : Nat) : Int :=
  let guess : Int := (Nat.log2 num : Int) - (Nat.log2 den : Int) - 52
  let (n, d) := scaled num den guess
  max (if n < d * Nat.pow 2 52 then guess - 1 else guess) (-1074)

/-- A quotient rounded to 53 binary digits. -/
def ofQuotient (negative : Bool) (num den : Nat) : Binary64 :=
  if num = 0 then finite negative 0 (-1074)
  else
    let e := exponentOf num den
    let (n, d) := scaled num den e
    let m := roundQuotient n d
    let (m, e) := if m = Nat.pow 2 53 then (Nat.pow 2 52, e + 1) else (m, e)
    if 971 < e then infinite negative else finite negative m e

/-- The decimal `m * 10 ^ e`, rounded to 53 binary digits. A decimal far out of range is not written
out. -/
def ofDecimal (negative : Bool) (m : Nat) (e : Int) : Binary64 :=
  let size : Int := (Nat.toDigits 10 m).length + e
  if m = 0 ∨ size < -400 then finite negative 0 (-1074)
  else if 400 < size then infinite negative
  else if e < 0 then ofQuotient negative m (Nat.pow 10 (-e).toNat)
  else ofQuotient negative (m * Nat.pow 10 e.toNat) 1

/-! ## Reading -/

/-- The text is the given word, whatever the case of its letters. -/
def isWord (w : String) (cs : List Char) : Bool :=
  cs.map Char.toLower == w.toList

def readExponent : List Char → Option Int
  | [] => some 0
  | c :: rest =>
    if c = 'e' ∨ c = 'E' then
      let (negative, ds) := signed rest
      if ds ≠ [] ∧ ds.all Char.isDigit then some (wholeValue negative ds) else none
    else none

/-- A decimal without its sign: digits, a point among them, and an exponent. -/
def readDecimal (negative : Bool) (cs : List Char) : Option Binary64 :=
  let whole := cs.takeWhile Char.isDigit
  let rest := cs.dropWhile Char.isDigit
  let (part, rest) := match rest with
    | '.' :: after => (after.takeWhile Char.isDigit, after.dropWhile Char.isDigit)
    | _ => ([], rest)
  if whole.isEmpty ∧ part.isEmpty then none
  else (readExponent rest).map fun e =>
    ofDecimal negative (digitsValue 0 (whole ++ part)) (e - part.length)

def ofText? (s : String) : Option Binary64 :=
  match dropUnderscores ' ' (trim (s.toList.map plainDigit)) with
  | none => none
  | some cs =>
    let (negative, body) := signed cs
    if isWord "inf" body || isWord "infinity" body then some (infinite negative)
    else if isWord "nan" body then some undefined
    else readDecimal negative body

/-! ## Writing -/

/-- The quotient `m * 2 ^ e * 10 ^ (-p)` as a quotient of whole numbers. -/
def onGrid (m : Nat) (e p : Int) : Nat × Nat :=
  let up (b : Nat) (k : Int) : Nat := if k < 0 then 1 else Nat.pow b k.toNat
  (m * up 2 e * up 10 (-p), up 2 (-e) * up 10 p)

/-- The decimal `k * 10 ^ p` is read as the number with significand `m` and exponent `e`. -/
def readsBack (m : Nat) (e : Int) (k : Nat) (p : Int) : Bool :=
  ofDecimal false k p == finite false m e

/-- The one of two neighbours on the grid of `10 ^ p` that is nearer to the number and is read back as
it. -/
def onGrid? (m : Nat) (e p : Int) : Option Nat :=
  let (num, den) := onGrid m e p
  let near := roundQuotient num den
  let far := if near = num / den then near + 1 else num / den
  if readsBack m e near p then some near else if readsBack m e far p then some far else none

/-- The first grid, from `10 ^ p` down, with a decimal that is read back as the number. -/
def shortest (m : Nat) (e p : Int) : Nat → Nat × Int
  | 0 => (0, 0)
  | fuel + 1 =>
    match onGrid? m e p with
    | some k => if k = 0 then shortest m e (p - 1) fuel else (k, p)
    | none => shortest m e (p - 1) fuel

/-- The place of the first decimal digit of a positive number: its value is below `10 ^ place`. -/
def firstPlace (m : Nat) (e : Int) : Int :=
  if e < 0 then
    let (num, den) := (m, Nat.pow 2 (-e).toNat)
    if den ≤ num then (Nat.toDigits 10 (num / den)).length
    else 1 - (Nat.toDigits 10 (den / num)).length
  else (Nat.toDigits 10 (m * Nat.pow 2 e.toNat)).length

def dropZeros (ds : List Char) : List Char :=
  (ds.reverse.dropWhile (· == '0')).reverse

/-- Digits with a point after the first `place` of them. Numbers from a ten-thousandth up to ten to the
sixteenth are written in full, and others with an exponent of at least two digits. -/
def writeDigits (ds : List Char) (place : Int) : List Char :=
  if -4 < place ∧ place ≤ 16 then
    if place ≤ 0 then ['0', '.'] ++ List.replicate (-place).toNat '0' ++ ds
    else if (ds.length : Int) ≤ place then
      ds ++ List.replicate (place.toNat - ds.length) '0' ++ ['.', '0']
    else ds.take place.toNat ++ '.' :: ds.drop place.toNat
  else
    let e := place - 1
    let size := Nat.toDigits 10 e.natAbs
    ds.take 1 ++ (if ds.length = 1 then [] else '.' :: ds.drop 1) ++
      ['e', if e < 0 then '-' else '+'] ++ (if size.length < 2 then '0' :: size else size)

def text : Binary64 → String
  | undefined => "nan"
  | infinite negative => if negative then "-inf" else "inf"
  | finite negative m e =>
    let body :=
      if m = 0 then ['0', '.', '0']
      else
        let (k, p) := shortest m e (firstPlace m e + 1) 40
        let ds := Nat.toDigits 10 k
        writeDigits (dropZeros ds) (ds.length + p)
    String.ofList (if negative then '-' :: body else body)

end Binary64
end SqlStyle.Text
