import TensorFormula.Formula.Canonical

/-!
# Tokens

What the words of a formula stand for, and where they begin, counted in bytes.
-/

namespace TensorFormula

inductive Token
  | number (value : Float)
  | operand (index : Nat)
  | operator (op : Operator)
  | openBracket
  | closeBracket
  | comma
  | dot
  | function (op : Operation)
  | suffix (op : Operation)

/-- How messages and listings name a token. -/
def Token.describe : Token → String
  | number v => "number " ++ String.ofList (plainText v)
  | operand i => "operand %" ++ toString i
  | operator op => "'" ++ op.symbol.toString ++ "'"
  | openBracket => "'('"
  | closeBracket => "')'"
  | comma => "','"
  | dot => "'.'"
  | function op => "function '" ++ op.name ++ "'"
  | suffix op => "suffix '" ++ op.name ++ "'"

/-- How messages name what was found, which is the end of the formula where no token is left. -/
def describeFound : Option Token → String
  | none => "end of formula"
  | some t => t.describe

structure Placed where
  token : Token
  offset : Nat

end TensorFormula
