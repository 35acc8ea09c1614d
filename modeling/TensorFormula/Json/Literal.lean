import TensorFormula.Element

/-!
# JSON numbers

The parts of a number literal and the number it is read as. An integer that fits 64 bits is taken
exactly. Any other literal is read in two steps: its leading digits that fit 64 bits become a
double, which is then multiplied or divided by a power of ten. The second step rounds once more, so
the result may be a neighbour of the nearest double.
-/

namespace TensorFormula.Json

open Binary

structure Literal where
  negative : Bool
  whole : List Char
  /-- The digits after the point, if there is one. -/
  fraction : Option (List Char)
  /-- Whether the exponent is negative and its digits, if there is one. -/
  exponent : Option (Bool × List Char)

namespace Literal

def digitValue (c : Char) : Nat := c.toNat - '0'.toNat

/-- Appends digits as long as the number fits 64 bits; also the number of digits left over. -/
def absorb (n : Nat) : List Char → Nat × Nat
  | [] => (n, 0)
  | c :: cs =>
      if 10 * n + digitValue c < Nat.pow 2 64 then absorb (10 * n + digitValue c) cs
      else (n, cs.length + 1)

/-- The double nearest to `10 ^ k`. -/
def power (k : Nat) : Float := doubleOfBits (Format.double.nearest (Nat.pow 10 k) 1)

def largestPower : Nat := 308

/-- `x * 10 ^ e`, in steps of the largest power of ten; `none` past the range. -/
def shift (x : Float) (e : Int) : Option Float :=
  if e < -(largestPower : Int) then
    if x == 0 then some x else shift (x / power largestPower) (e + largestPower)
  else if e < 0 then some (x / power e.natAbs)
  else if e ≤ largestPower then
    if (x * power e.natAbs).isInf then none else some (x * power e.natAbs)
  else if x == 0 then some x else none
termination_by (-e).toNat
decreasing_by simp only [largestPower] at *; omega

variable (l : Literal)

/-- The leading digits as an integer with the power of ten that belongs to it. -/
def leading : Nat × Int :=
  let fraction := l.fraction.getD []
  let (n, dropped) := absorb 0 l.whole
  let (m, left) := absorb n fraction
  (m, (dropped : Int) - (fraction.length - left : Nat))

def withSign (x : Float) : Float := if l.negative then -x else x

/-- The double that a literal is read as; an overflow has none. An exponent of more than 31 bits
overflows or vanishes, whatever the digits. -/
def toDouble? : Option Float :=
  let (m, e) := l.leading
  let x := doubleOfBits (Format.double.nearest m 1)
  match l.exponent with
  | none => (shift x e).map l.withSign
  | some (negative, digits) =>
      let k := Nat.ofDigitChars 10 digits 0
      if k < Nat.pow 2 31 then (shift x (if negative then e - k else e + k)).map l.withSign
      else if m ≠ 0 ∧ ¬ negative then none
      else some (l.withSign 0)

/-- The integer of a literal without point and exponent. -/
def integer? : Option Nat :=
  if l.fraction.isNone ∧ l.exponent.isNone then some (Nat.ofDigitChars 10 l.whole 0) else none

/-- The size that a literal stands for: a non-negative integer of 64 bits. -/
def toSize? : Option Nat :=
  if l.negative then none else l.integer?.filter (· < Nat.pow 2 64)

/-- The element that a literal is read as. -/
def toElement? {α : Type} [Element α] : Option α :=
  match l.integer? with
  | some n =>
      if ¬ l.negative ∧ n < Nat.pow 2 64 then some (Element.ofInt n)
      else if l.negative ∧ 0 < n ∧ n ≤ Nat.pow 2 63 then some (Element.ofInt (-n))
      else l.toDouble?.map Element.ofDouble
  | none => l.toDouble?.map Element.ofDouble

end Literal

end TensorFormula.Json
