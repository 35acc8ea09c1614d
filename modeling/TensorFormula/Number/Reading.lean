import TensorFormula.Number.Decimal
import TensorFormula.Element

/-!
# Reading decimals

The decimal that digits before and after a point stand for, and the double nearest to it.
-/

namespace TensorFormula

open Binary

namespace Decimal

/-- The decimal `whole.fraction`, both given as digits. -/
def ofDigits (whole fraction : List Char) : Decimal :=
  ⟨Nat.ofDigitChars 10 (whole ++ fraction) 0, -(fraction.length : Int)⟩

/-- The decimal that a text of digits with at most one point stands for. -/
def ofLiteral (cs : List Char) : Decimal :=
  ofDigits (cs.takeWhile Char.isDigit) ((cs.dropWhile Char.isDigit).drop 1)

/-- Moves the point by `e` places. Beyond the reach of the digits, where every number overflows or
vanishes, the move is cut short. -/
def scale (d : Decimal) (e : Int) : Decimal :=
  let reach : Int := 400 + d.digits.log2 + 1 + d.exponent.natAbs
  ⟨d.digits, d.exponent + max (-reach) (min e reach)⟩

/-- The double nearest to a decimal, infinite past the range. -/
def toDouble (negative : Bool) (d : Decimal) : Float :=
  doubleOfBits (Format.double.withSign negative (d.toPattern .double))

end Decimal

end TensorFormula
