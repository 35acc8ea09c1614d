/-!
# Binary floating-point formats

A format is fixed by the number of its fraction bits and of its exponent bits. `Format.decode` reads
a bit pattern as a significand times a power of two, and `Format.nearest` gives the pattern of the
value nearest to an exact ratio, ties to the even significand. Both work on exact integers.
-/

namespace TensorFormula.Binary

/-- The nearest integer to `num / den`, a tie going to the even neighbour. -/
def roundEven (num den : Nat) : Nat :=
  let q := num / den
  let r := num % den
  if 2 * r < den then q
  else if den < 2 * r then q + 1
  else if q % 2 = 0 then q else q + 1

/-- The greatest `e` with `2 ^ e ≤ num / den`, for positive `num` and `den`. -/
def floorLog2 (num den : Nat) : Int :=
  let e : Int := (num.log2 : Int) - den.log2
  if den * Nat.pow 2 e.toNat ≤ num * Nat.pow 2 (-e).toNat then e else e - 1

structure Format where
  fractionBits : Nat
  exponentBits : Nat
deriving DecidableEq, Repr

inductive Value
  | nan
  | infinite (negative : Bool)
  /-- The number `significand * 2 ^ exponent` with its sign; zero has a sign too. -/
  | finite (negative : Bool) (significand : Nat) (exponent : Int)
deriving DecidableEq, Repr

namespace Format

def double : Format := ⟨52, 11⟩

def single : Format := ⟨23, 8⟩

variable (f : Format)

/-- The exponent of the last place of the smallest numbers. -/
def minExponent : Int := 2 - (Nat.pow 2 (f.exponentBits - 1) : Int) - f.fractionBits

/-- The magnitude pattern of infinity; NaN patterns lie above it. -/
def infinity : Nat := (Nat.pow 2 f.exponentBits - 1) * Nat.pow 2 f.fractionBits

def signBit : Nat := Nat.pow 2 (f.fractionBits + f.exponentBits)

/-- Significand and exponent of a finite magnitude pattern. -/
def magnitude (pattern : Nat) : Nat × Int :=
  let e := pattern / Nat.pow 2 f.fractionBits
  let m := pattern % Nat.pow 2 f.fractionBits
  if e = 0 then (m, f.minExponent)
  else (m + Nat.pow 2 f.fractionBits, f.minExponent + (e - 1 : Nat))

def decode (bits : Nat) : Value :=
  let negative : Bool := f.signBit ≤ bits
  let pattern := bits % f.signBit
  if f.infinity < pattern then .nan
  else if pattern = f.infinity then .infinite negative
  else .finite negative (f.magnitude pattern).1 (f.magnitude pattern).2

/-- The magnitude pattern nearest to `num / den`; what exceeds the range gives infinity. Counting on
from the smallest numbers, a carry out of the significand lands on the next exponent by itself. -/
def nearest (num den : Nat) : Nat :=
  if num = 0 then 0
  else
    let q := max f.minExponent (floorLog2 num den - f.fractionBits)
    let m := roundEven (num * Nat.pow 2 (-q).toNat) (den * Nat.pow 2 q.toNat)
    min f.infinity ((q - f.minExponent).toNat * Nat.pow 2 f.fractionBits + m)

def withSign (negative : Bool) (pattern : Nat) : Nat :=
  if negative then f.signBit + pattern else pattern

/-- The value `significand * 2 ^ exponent` rounded into this format. -/
def ofValue : Value → Nat
  | .nan => f.infinity + Nat.pow 2 (f.fractionBits - 1)
  | .infinite negative => f.withSign negative f.infinity
  | .finite negative m q =>
      f.withSign negative (f.nearest (m * Nat.pow 2 q.toNat) (Nat.pow 2 (-q).toNat))

/-- The nearest number to an integer. -/
def ofInt (n : Int) : Nat := f.withSign (decide (n < 0)) (f.nearest n.natAbs 1)

end Format

end TensorFormula.Binary
