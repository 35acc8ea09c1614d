import TensorFormula.Formula.Token
import TensorFormula.Tensor.Fault

/-!
# Faults of formulas

What can be wrong with a formula text, as a problem at a byte offset, and what can go wrong when a
tree is evaluated.
-/

namespace TensorFormula

/-- The deepest nesting of brackets, calls and minus signs in a formula. -/
def nestingLimit : Nat := 256

inductive Problem
  | operandDigitsMissing
  | operandTooLarge (text : List Char)
  | unknownSymbol (c : Char)
  | unknownName (name : List Char)
  | trailing (found : Option Token)
  | groupUnclosed (openedAt : Nat) (found : Option Token)
  | callUnclosed (op : Operation) (found : Option Token)
  | nestedTooDeep
  | suffixExpected (found : Option Token)
  | callExpected (op : Operation) (found : Option Token)
  | termExpected (found : Option Token)

def Problem.message : Problem → String
  | operandDigitsMissing => "expected operand digits after '%'"
  | operandTooLarge text => "operand index in '" ++ String.ofList text ++ "' is too large"
  | unknownSymbol c => "unknown symbol '" ++ c.toString ++ "'"
  | unknownName name => "unknown name '" ++ String.ofList name ++ "'"
  | trailing found => "unexpected " ++ describeFound found ++ " after end of expression"
  | groupUnclosed openedAt found =>
      "expected ')' to close '(' at offset " ++ toString openedAt ++ ", found " ++
        describeFound found
  | callUnclosed op found =>
      "expected ')' to close the arguments of '" ++ op.name ++ "', found " ++ describeFound found
  | nestedTooDeep => "formula nested deeper than " ++ toString nestingLimit ++ " levels"
  | suffixExpected found =>
      "expected suffix (T, m1, m2, v) after '.', found " ++ describeFound found
  | callExpected op found =>
      "expected '(' after function '" ++ op.name ++ "', found " ++ describeFound found
  | termExpected found =>
      "expected a number, operand, function call or '(', found " ++ describeFound found

inductive FormulaFault
  | empty
  | malformed (offset : Nat) (problem : Problem)
  | operandMissing (index available : Nat)
  | argumentCount (op : Operation) (expected : Arity) (actual : Nat)
  | parameterNotSingle (op : Operation) (shape : Shape)
  | tensor (fault : TensorFault)

namespace FormulaFault

def kind : FormulaFault → FaultKind
  | malformed .. => .grammar
  | tensor f => f.kind
  | _ => .argument

def message : FormulaFault → String
  | empty => "formula is empty"
  | malformed offset problem =>
      "syntax error at offset " ++ toString offset ++ ": " ++ problem.message
  | operandMissing index available =>
      "formula references %" ++ toString index ++ " but only " ++ toString available ++
        " operand(s) are bound"
  | argumentCount op expected actual =>
      op.name ++ " expects " ++ expected.text ++ " argument(s), got " ++ toString actual
  | parameterNotSingle op shape =>
      op.name ++ " parameter must be a single value, got shape " ++ shape.text
  | tensor f => f.message

end FormulaFault

end TensorFormula
