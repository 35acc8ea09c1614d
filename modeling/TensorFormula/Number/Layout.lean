import TensorFormula.Number.Decimal

/-!
# How numbers are written

A `Layout` holds the decisions of one output format: which numbers are written positionally, whether
an integral number shows its point, the sign of an exponent, the tie between equally near decimals
and the texts of what is no number. `Layout.text` writes a bit pattern accordingly.
-/

namespace TensorFormula

open Binary

namespace Decimal

variable (d : Decimal)

def digitText : List Char := Nat.toDigits 10 d.digits

/-- The exponent of the leading digit. -/
def leading : Int := d.exponent + (d.digitText.length - 1 : Nat)

def zeros (n : Nat) : List Char := List.replicate n '0'

/-- Digits without an exponent; `point` adds a fraction of zero to an integral number. -/
def positional (point : Bool) : List Char :=
  let ds := d.digitText
  let places := (-d.exponent).toNat
  if places = 0 then
    ds ++ zeros d.exponent.toNat ++ (if point then ['.', '0'] else [])
  else if places < ds.length then
    ds.take (ds.length - places) ++ '.' :: ds.drop (ds.length - places)
  else '0' :: '.' :: (zeros (places - ds.length) ++ ds)

/-- One digit before the point and the exponent of that digit; `plus` signs positive exponents. -/
def scientific (plus : Bool) : List Char :=
  let ds := d.digitText
  let mantissa := ds.take 1 ++ (if ds.length = 1 then [] else '.' :: ds.drop 1)
  let sign := if d.leading < 0 then ['-'] else if plus then ['+'] else []
  mantissa ++ 'e' :: (sign ++ Nat.toDigits 10 d.leading.natAbs)

end Decimal

structure Layout where
  tie : Decimal.Tie
  /-- The range of leading exponents without exponent notation, if it is not all of them. -/
  positional : Option (Int × Int)
  point : Bool
  plus : Bool
  nan : String
  infinity : String
  negativeInfinity : String

namespace Layout

/-- The shortest digits, never with an exponent. -/
def plain : Layout where
  tie := .up
  positional := none
  point := false
  plus := false
  nan := "NaN"
  infinity := "inf"
  negativeInfinity := "-inf"

variable (l : Layout) (f : Format)

def isPositional (d : Decimal) : Bool :=
  match l.positional with
  | none => true
  | some (low, high) => d.digits == 0 || (low ≤ d.leading && d.leading < high)

def magnitudeText (d : Decimal) : List Char :=
  if l.isPositional d then d.positional l.point else d.scientific l.plus

def signText (negative : Bool) : List Char := if negative then ['-'] else []

/-- The text of a bit pattern in the given layout. -/
def text (bits : Nat) : List Char :=
  match f.decode bits with
  | .nan => l.nan.toList
  | .infinite negative => (if negative then l.negativeInfinity else l.infinity).toList
  | .finite negative _ _ =>
      signText negative ++ l.magnitudeText (Decimal.shortest f l.tie (bits % f.signBit))

/-- The text with exactly `n` significant digits and an exponent, for positive `n`. -/
def significantText (n : Nat) (bits : Nat) : List Char :=
  match f.decode bits with
  | .nan => l.nan.toList
  | .infinite negative => (if negative then l.negativeInfinity else l.infinity).toList
  | .finite negative m _ =>
      let d := Decimal.rounded f (bits % f.signBit) n
      signText negative ++
        if m = 0 then
          '0' :: ((if n = 1 then [] else '.' :: Decimal.zeros (n - 1)) ++ ['e', '0'])
        else d.scientific l.plus

end Layout

end TensorFormula
