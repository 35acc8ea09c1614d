import TensorFormula.Number.Binary

/-!
# Decimals that stand for binary numbers

`Decimal.shortest` selects the fewest digits that read back to a given number, and of those the
decimal nearest to it. A candidate is accepted only if `Decimal.toPattern` reads it back, and where
no candidate of seventeen digits does, the exact expansion is taken. `Decimal.rounded` has a given
number of significant digits, ties to even.
-/

namespace TensorFormula

open Binary

/-- The number `digits * 10 ^ exponent`. -/
structure Decimal where
  digits : Nat
  exponent : Int
deriving DecidableEq, Repr

/-- Where an exact tie between two neighbouring decimals goes. -/
inductive Decimal.Tie
  | even
  | up
deriving DecidableEq, Repr

namespace Decimal

variable (f : Format) (d : Decimal)

def numerator : Nat := d.digits * Nat.pow 10 d.exponent.toNat

def denominator : Nat := Nat.pow 10 (-d.exponent).toNat

/-- The magnitude pattern of the number nearest to a decimal. -/
def toPattern : Nat := f.nearest d.numerator d.denominator

/-- The greatest `e` with `10 ^ e ≤ num / den`, for positive `num` and `den`. -/
def floorLog10 (num den : Nat) : Int :=
  let e := floorLog2 num den * 30103 / 100000
  if den * Nat.pow 10 (e + 1).toNat ≤ num * Nat.pow 10 (-(e + 1)).toNat then e + 1 else e

/-- The decimal `c * 10 ^ e` with at most `n` digits, where `c` may have carried to `10 ^ n`. -/
def ofGrid (n : Nat) (c : Nat) (e : Int) : Decimal :=
  if c = Nat.pow 10 n then ⟨1, e + n⟩ else ⟨c, e⟩

/-- The exact expansion of `m * 2 ^ q`. -/
def exact (m : Nat) (q : Int) : Decimal :=
  ⟨m * Nat.pow 2 q.toNat * Nat.pow 5 (-q).toNat, min q 0⟩

/-- A number as `num / den * 10 ^ e`, where `num / den` has `n` digits before its point. -/
def grid (pattern : Nat) (n : Nat) : Nat × Nat × Int :=
  let (m, q) := f.magnitude pattern
  let num := m * Nat.pow 2 q.toNat
  let den := Nat.pow 2 (-q).toNat
  let e := floorLog10 num den - (n - 1 : Nat)
  (num * Nat.pow 10 (-e).toNat, den * Nat.pow 10 e.toNat, e)

/-- The decimal of `n` digits next to a number that reads back to it, of two the nearer. -/
def candidate (tie : Tie) (pattern : Nat) (n : Nat) : Option Decimal :=
  let (num, den, e) := grid f pattern n
  let c := num / den
  let below := ofGrid n c e
  let above := ofGrid n (c + 1) e
  match below.toPattern f == pattern, above.toPattern f == pattern with
  | true, true =>
      let middle := (2 * c + 1) * den
      let takeBelow : Bool :=
        2 * num < middle || (2 * num == middle && tie == .even && c % 2 == 0)
      some (if takeBelow then below else above)
  | true, false => some below
  | false, true => some above
  | false, false => none

def shortest (tie : Tie) (pattern : Nat) : Decimal :=
  if pattern = 0 then ⟨0, 0⟩
  else
    let fallback := exact (f.magnitude pattern).1 (f.magnitude pattern).2
    ((List.range 17).findSome? fun i => candidate f tie pattern (i + 1)).getD fallback

/-- The number with `n` significant digits, for positive `n`. -/
def rounded (pattern : Nat) (n : Nat) : Decimal :=
  if pattern = 0 then ⟨0, 0⟩
  else
    let (num, den, e) := grid f pattern n
    let c := roundEven num den
    if c = Nat.pow 10 n then ⟨Nat.pow 10 (n - 1), e + 1⟩ else ⟨c, e⟩

end Decimal

end TensorFormula
