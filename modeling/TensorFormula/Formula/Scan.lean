import TensorFormula.Formula.Fault
import TensorFormula.Number.Reading
import TensorFormula.Text.Blank

/-!
# From text to tokens

A lexeme is the longest stretch of characters that one of the token patterns matches. `further` says
how far it goes beyond its first character, `tokensOf` what a lexeme stands for: a name that is
unknown as a whole may still be a known one with the operator `x` glued to its end or its start.
-/

namespace TensorFormula

namespace Lexeme

def isNameStart (c : Char) : Bool := c.isAlpha || c == '_'

def isNamePart (c : Char) : Bool := c.isAlphanum || c == '_'

def runLength (p : Char → Bool) (cs : List Char) : Nat := (cs.takeWhile p).length

/-- The length of a fraction at the start of `cs`, its point included. -/
def fractionLength : List Char → Nat
  | '.' :: cs => if runLength Char.isDigit cs = 0 then 0 else runLength Char.isDigit cs + 1
  | _ => 0

/-- How many of the characters after `c` belong to the lexeme that begins with `c`. -/
def further (c : Char) (cs : List Char) : Nat :=
  if c.isDigit then
    let n := runLength Char.isDigit cs
    n + fractionLength (cs.drop n)
  else if c = '%' then runLength Char.isDigit cs
  else if isNameStart c then runLength isNamePart cs
  else 0

def word? (cs : List Char) : Option Token :=
  if cs = ['x'] then some (.operator .matmul)
  else ((Operation.functionNamed? cs).map .function).or
    ((Operation.suffixNamed? cs).map .suffix)

/-- The one or two tokens of a name, each with its distance from the start of the name. -/
def nameTokens (cs : List Char) : Except Problem (List (Nat × Token)) :=
  match word? cs with
  | some t => .ok [(0, t)]
  | none =>
    match (if cs.getLast? = some 'x' then word? cs.dropLast else none) with
    | some t => .ok [(0, t), (cs.length - 1, .operator .matmul)]
    | none =>
      match (if cs.head? = some 'x' then word? cs.tail else none) with
      | some t => .ok [(0, .operator .matmul), (1, t)]
      | none => .error (.unknownName cs)

def symbol? : Char → Option Token
  | '(' => some .openBracket
  | ')' => some .closeBracket
  | ',' => some .comma
  | '.' => some .dot
  | '+' => some (.operator .add)
  | '-' => some (.operator .sub)
  | '*' => some (.operator .mul)
  | '/' => some (.operator .div)
  | _ => none

/-- The token of `%` and the digits after it. -/
def operandToken (digits : List Char) : Except Problem Token :=
  if digits = [] then .error .operandDigitsMissing
  else
    let i := Nat.ofDigitChars 10 digits 0
    if i < Nat.pow 2 64 then .ok (.operand i) else .error (.operandTooLarge ('%' :: digits))

/-- What the lexeme of `c` and the characters after it stands for. -/
def tokensOf (c : Char) (more : List Char) : Except Problem (List (Nat × Token)) :=
  if c.isDigit then .ok [(0, .number ((Decimal.ofLiteral (c :: more)).toDouble false))]
  else if c = '%' then (operandToken more).map fun t => [(0, t)]
  else if isNameStart c then nameTokens (c :: more)
  else
    match symbol? c with
    | some t => .ok [(0, t)]
    | none => .error (.unknownSymbol c)

end Lexeme

open Lexeme Text

/-- The tokens of a text that begins at a byte offset. -/
def scanFrom (offset : Nat) : List Char → Except FormulaFault (List Placed)
  | [] => .ok []
  | c :: cs =>
    if isSeparator c then scanFrom (offset + c.utf8Size) cs
    else
      match tokensOf c (cs.take (further c cs)) with
      | .error problem => .error (.malformed offset problem)
      | .ok ts =>
        match scanFrom (offset + bytes (c :: cs.take (further c cs))) (cs.drop (further c cs)) with
        | .error fault => .error fault
        | .ok rest => .ok (ts.map (fun t => ⟨t.2, offset + t.1⟩) ++ rest)
termination_by cs => cs.length

/-- The tokens of a formula, in order. -/
def scan (cs : List Char) : Except FormulaFault (List Placed) := scanFrom 0 cs

end TensorFormula
