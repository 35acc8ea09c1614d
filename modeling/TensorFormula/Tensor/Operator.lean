import TensorFormula.Element

/-!
# Binary operators

The five operators of formulas. Between single elements the matrix product is multiplication.
-/

namespace TensorFormula

inductive Operator
  | add
  | sub
  | mul
  | div
  | matmul
deriving DecidableEq, Repr

namespace Operator

def all : List Operator := [.add, .sub, .mul, .div, .matmul]

def symbol : Operator → Char
  | add => '+'
  | sub => '-'
  | mul => '*'
  | div => '/'
  | matmul => 'x'

def ofSymbol? (c : Char) : Option Operator := all.find? fun op => op.symbol == c

/-- The name of an operator in messages. -/
def name : Operator → String
  | add => "add"
  | sub => "sub"
  | mul => "mul"
  | div => "div"
  | matmul => "matrix multiply"

/-- The name of an operator in tree dumps. -/
def label : Operator → String
  | add => "Add"
  | sub => "Sub"
  | mul => "Mul"
  | div => "Div"
  | matmul => "MatMul"

variable {α : Type} [Arithmetic α]

def eval : Operator → α → α → α
  | add, a, b => a + b
  | sub, a, b => a - b
  | mul, a, b => a * b
  | div, a, b => a / b
  | matmul, a, b => a * b

theorem ofSymbol?_symbol (op : Operator) : ofSymbol? op.symbol = some op := by
  cases op <;> decide

end Operator

end TensorFormula
