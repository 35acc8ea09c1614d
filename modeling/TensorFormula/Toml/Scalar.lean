import TensorFormula.Number.Reading
import TensorFormula.Text.Digits
import TensorFormula.Toml.Value

/-!
# TOML numbers, dates and words

The values that are written without quotes and brackets. `scalar?` decides what a whole word stands
for; a word that is nothing of the kind has no value.
-/

namespace TensorFormula.Toml

/-- Digits of a kind with single underscores between them, which are dropped. -/
def ungroup (isDigit : Char → Bool) : List Char → Option (List Char)
  | [] => none
  | [c] => if isDigit c then some [c] else none
  | c :: '_' :: cs => if isDigit c then (ungroup isDigit cs).map (c :: ·) else none
  | c :: cs => if isDigit c then (ungroup isDigit cs).map (c :: ·) else none

/-- The digits of a decimal integer, which begins with zero only if it is zero. -/
def decimalDigits? (cs : List Char) : Option (List Char) :=
  match cs with
  | ['0'] => some cs
  | '0' :: _ => none
  | _ => ungroup Char.isDigit cs

/-- The number of digits in a base other than ten. -/
def based? (base : Nat) (cs : List Char) : Option Int :=
  ((ungroup (Text.isDigitOf base) cs).bind (Text.numberOf? base)).map Int.ofNat

def splitSign : List Char → Bool × List Char
  | '-' :: cs => (true, cs)
  | '+' :: cs => (false, cs)
  | cs => (false, cs)

def inRange (n : Int) : Bool := -(Nat.pow 2 63 : Int) ≤ n && n < Nat.pow 2 63

def integer? (cs : List Char) : Option Int :=
  let n := match cs with
    | '0' :: 'x' :: ds => based? 16 ds
    | '0' :: 'o' :: ds => based? 8 ds
    | '0' :: 'b' :: ds => based? 2 ds
    | _ =>
        let (negative, ds) := splitSign cs
        (decimalDigits? ds).map fun ds =>
          let n : Int := Nat.ofDigitChars 10 ds 0
          if negative then -n else n
  n.filter inRange

def isExponentMark (c : Char) : Bool := c == 'e' || c == 'E'

/-- The exponent after its mark. -/
def exponent? (cs : List Char) : Option Int :=
  let (negative, ds) := splitSign cs
  (ungroup Char.isDigit ds).map fun ds =>
    let n : Int := Nat.ofDigitChars 10 ds 0
    if negative then -n else n

/-- The decimal of digits with a fraction, an exponent or both. -/
def decimal? (cs : List Char) : Option Decimal := do
  let mantissa := cs.takeWhile fun c => !isExponentMark c
  let whole := mantissa.takeWhile (· != '.')
  let e ← match cs.dropWhile fun c => !isExponentMark c with
    | [] => if whole = mantissa then none else some 0
    | _ :: es => exponent? es
  let w ← decimalDigits? whole
  let f ← match mantissa.dropWhile (· != '.') with
    | [] => some []
    | _ :: fs => ungroup Char.isDigit fs
  some ((Decimal.ofDigits w f).scale e)

/-- Numbers past the range are refused, unless they are negative. -/
def float? (cs : List Char) : Option Float :=
  let (negative, ds) := splitSign cs
  match ds with
  | ['i', 'n', 'f'] =>
      some (doubleOfBits (Binary.Format.double.withSign negative Binary.Format.double.infinity))
  | ['n', 'a', 'n'] => some (doubleOfBits (Binary.Format.double.ofValue .nan))
  | _ =>
      (decimal? ds).bind fun d =>
        let x := d.toDouble negative
        if x.isInf ∧ ¬ negative then none else some x

/-- Exactly `n` digits at the start of a text. -/
def fixedDigits? (n : Nat) (cs : List Char) : Option (Nat × List Char) :=
  let ds := cs.take n
  if ds.length = n ∧ ds.all Char.isDigit then some (Nat.ofDigitChars 10 ds 0, cs.drop n) else none

def expect? (c : Char) : List Char → Option (List Char)
  | d :: cs => if c = d then some cs else none
  | [] => none

def isLeapYear (y : Nat) : Bool := y % 4 == 0 && (y % 100 != 0 || y % 400 == 0)

def monthLength (y m : Nat) : Nat :=
  if m == 2 then (if isLeapYear y then 29 else 28)
  else if m == 4 || m == 6 || m == 9 || m == 11 then 30
  else 31

def date? (cs : List Char) : Option (List Char) := do
  let (y, cs) ← fixedDigits? 4 cs
  let cs ← expect? '-' cs
  let (m, cs) ← fixedDigits? 2 cs
  let cs ← expect? '-' cs
  let (d, cs) ← fixedDigits? 2 cs
  if 1 ≤ m ∧ m ≤ 12 ∧ 1 ≤ d ∧ d ≤ monthLength y m then some cs else none

def hourMinute? (cs : List Char) : Option (List Char) := do
  let (h, cs) ← fixedDigits? 2 cs
  let cs ← expect? ':' cs
  let (m, cs) ← fixedDigits? 2 cs
  if h ≤ 23 ∧ m ≤ 59 then some cs else none

def time? (cs : List Char) : Option (List Char) := do
  let cs ← hourMinute? cs
  let cs ← expect? ':' cs
  let (s, cs) ← fixedDigits? 2 cs
  if s ≤ 60 then
    match cs with
    | '.' :: ds =>
        if (ds.takeWhile Char.isDigit).isEmpty then none else some (ds.dropWhile Char.isDigit)
    | _ => some cs
  else none

def zone? : List Char → Option (List Char)
  | 'Z' :: cs => some cs
  | 'z' :: cs => some cs
  | '+' :: cs => hourMinute? cs
  | '-' :: cs => hourMinute? cs
  | cs => some cs

/-- Whether a whole text is a date, a time, or a date and a time with or without a zone. -/
def isMoment (cs : List Char) : Bool :=
  match date? cs with
  | some [] => true
  | some (c :: rest) =>
      (c == 'T' || c == 't' || c == ' ') && ((time? rest).bind zone?) == some []
  | none => time? cs == some []

def scalar? (cs : List Char) : Option Value :=
  match cs with
  | ['t', 'r', 'u', 'e'] => some (.boolean true)
  | ['f', 'a', 'l', 's', 'e'] => some (.boolean false)
  | _ =>
      if isMoment cs then some .moment
      else ((float? cs).map .float).or ((integer? cs).map .integer)

end TensorFormula.Toml
