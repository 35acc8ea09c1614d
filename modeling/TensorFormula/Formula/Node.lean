import TensorFormula.Element
import TensorFormula.Formula.Operation
import TensorFormula.Tensor.Operator

/-!
# Formula trees

A chain holds the operands of one precedence level with the operators between them. Trees that come
from a text have one operator fewer than operands in each chain; trees built by hand need not.
-/

namespace TensorFormula

/-- The two precedence levels of chains, the looser first. -/
inductive Rank
  | sum
  | product
deriving DecidableEq, Repr

namespace Rank

def operators : Rank → List Operator
  | sum => [.add, .sub]
  | product => [.mul, .div, .matmul]

/-- The precedence level of an operator. -/
def of : Operator → Rank
  | .add | .sub => sum
  | .mul | .div | .matmul => product

end Rank

inductive Node
  | constant (value : Float)
  | operand (index : Nat)
  | negate (inner : Node)
  | chain (rank : Rank) (operands : List Node) (operators : List Operator)
  | apply (op : Operation) (arguments : List Node)

namespace Node

mutual

/-- The number of nodes of a tree. -/
def count : Node → Nat
  | constant _ => 1
  | operand _ => 1
  | negate n => n.count + 1
  | chain _ ns _ => countAll ns + 1
  | apply _ ns => countAll ns + 1

def countAll : List Node → Nat
  | [] => 0
  | n :: ns => n.count + countAll ns

end

mutual

/-- The highest operand index in a tree. -/
def highestOperand? : Node → Option Nat
  | constant _ => none
  | operand i => some i
  | negate n => n.highestOperand?
  | chain _ ns _ => highestOperandOf? ns
  | apply _ ns => highestOperandOf? ns

def highestOperandOf? : List Node → Option Nat
  | [] => none
  | n :: ns => Option.merge max n.highestOperand? (highestOperandOf? ns)

end

mutual

/-- Equality of trees, constants being compared as numbers. -/
def same : Node → Node → Bool
  | constant v, constant w => v == w
  | operand i, operand j => i == j
  | negate n, negate m => n.same m
  | chain r ns os, chain r' ms os' => r == r' && sameAll ns ms && os == os'
  | apply op ns, apply op' ms => op == op' && sameAll ns ms
  | _, _ => false

def sameAll : List Node → List Node → Bool
  | [], [] => true
  | n :: ns, m :: ms => n.same m && sameAll ns ms
  | _, _ => false

end

end Node

end TensorFormula
