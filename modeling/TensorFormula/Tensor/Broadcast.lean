import TensorFormula.Tensor.Product

/-!
# Broadcasting arithmetic

An operator pairs the elements of two tensors of equal count, or repeats a single element against
the other side, whose shape the result takes. The matrix product comes first wherever the inner
sizes agree, and otherwise has only the repeating form.
-/

namespace TensorFormula.Tensor

variable {α : Type} [Arithmetic α] (l r : Tensor α)

def zipWith (f : α → α → α) (h : l.shape.count = r.shape.count) : Tensor α :=
  { l with
    content := Array.zipWith f l.content r.content
    size_content := by simp [l.size_content, r.size_content, h] }

def combine (op : Operator) : Except TensorFault (Tensor α) :=
  if op = .matmul ∧ l.shape.multipliesWith r.shape then l.matmul r
  else if h : op ≠ .matmul ∧ l.shape.count = r.shape.count then .ok (l.zipWith r op.eval h.2)
  else if r.shape.count = 1 then .ok (l.map fun a => op.eval a r.first)
  else if l.shape.count = 1 then .ok (r.map fun b => op.eval l.first b)
  else .error (.incompatible op l.shape r.shape)

def applyScalar (op : Operator) (v : α) : Tensor α := l.map fun a => op.eval a v

end TensorFormula.Tensor
