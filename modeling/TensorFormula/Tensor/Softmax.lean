import TensorFormula.Tensor.Basic

/-!
# Softmax

The whole tensor is one distribution, whatever its shape. Exponents are shifted by the largest
element, so that none exceeds zero.
-/

namespace TensorFormula.Tensor

open Arithmetic

variable {α : Type} [Arithmetic α] (t : Tensor α)

/-- The largest element. -/
def peak : α := t.content.foldl larger t.first

def sum : α := t.content.foldl (· + ·) 0

/-- Divides by the sum, unless that is not positive. -/
def normalize : Tensor α :=
  if lt 0 t.sum then t.map (· * recip t.sum) else t

def softmax : Tensor α := (t.map fun x => exp (x - t.peak)).normalize

end TensorFormula.Tensor
