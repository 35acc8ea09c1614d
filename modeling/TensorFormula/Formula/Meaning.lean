import TensorFormula.Formula.Operation
import TensorFormula.Tensor.Broadcast
import TensorFormula.Tensor.Rearrange
import TensorFormula.Tensor.Softmax

/-!
# What operations mean

An aggregate folds all elements into one, an elementwise operation maps a tensor to one of the same
shape, and may take a parameter, and a suffix rearranges. `Operation.meaning` assigns one of these
to every operation; the slope is what the leaky functions use without a parameter.
-/

namespace TensorFormula

namespace Arithmetic

variable {α : Type} [Arithmetic α]

def sigmoid (x : α) : α := 1 / (1 + exp (-x))

/-- `p * (1 - p)`, the slope of the sigmoid where its value is `p`. -/
def complement (p : α) : α := p * (1 - p)

def relu (x : α) : α := if le 0 x then x else 0

def reluSlope (x : α) : α := if le 0 x then 1 else 0

def leaky (slope x : α) : α := if le 0 x then x else slope * x

def leakySlope (slope x : α) : α := if le 0 x then 1 else recip slope

def tanhSlope (x : α) : α := 1 - tanh x * tanh x

end Arithmetic

inductive Meaning (α : Type)
  | aggregate (start : α) (step : α → α → α)
  | elementwise (f : Tensor α → Tensor α)
  | parametric (f : Option α → Tensor α → Tensor α)
  | shape (r : Rearrangement)

namespace Meaning

variable {α : Type} [Arithmetic α]

def family : Meaning α → Family
  | aggregate .. => .aggregate
  | elementwise _ => .elementwise
  | parametric _ => .elementwise
  | shape _ => .shape

def takesParameter : Meaning α → Bool
  | parametric _ => true
  | _ => false

def run (parameter : Option α) (t : Tensor α) : Meaning α → Except TensorFault (Tensor α)
  | aggregate start step => .ok (.scalar (t.content.foldl step start))
  | elementwise f => .ok (f t)
  | parametric f => .ok (f parameter t)
  | shape r => t.rearrange r

end Meaning

open Arithmetic

def Operation.meaning {α : Type} [Arithmetic α] (slope : α) : Operation → Meaning α
  | min => .aggregate infinity smaller
  | max => .aggregate (-infinity) larger
  | sumAbs => .aggregate 0 fun sum x => sum + abs x
  | sumSqr => .aggregate 0 fun sum x => sum + x * x
  | sqrt => .elementwise fun t => t.map Arithmetic.sqrt
  | linear => .elementwise fun t => t.map id
  | dLinear => .elementwise fun t => t.map fun _ => 1
  | relu => .elementwise fun t => t.map Arithmetic.relu
  | dRelu => .elementwise fun t => t.map reluSlope
  | sigmoid => .elementwise fun t => t.map Arithmetic.sigmoid
  | dSigmoid => .elementwise fun t => t.map fun x => complement (Arithmetic.sigmoid x)
  | tanh => .elementwise fun t => t.map Arithmetic.tanh
  | dTanh => .elementwise fun t => t.map tanhSlope
  | leakyRelu => .parametric fun p t => t.map (leaky (p.getD slope))
  | dLeakyRelu => .parametric fun p t => t.map (leakySlope (p.getD slope))
  | softmax => .elementwise Tensor.softmax
  | dSoftmax => .elementwise fun t => t.softmax.map complement
  | transpose => .shape .transpose
  | rowMatrix => .shape .rowMatrix
  | columnMatrix => .shape .columnMatrix
  | vector => .shape .vector

theorem Operation.family_meaning {α : Type} [Arithmetic α] (slope : α) (op : Operation) :
    (op.meaning slope).family = op.family := by
  cases op <;> rfl

end TensorFormula
