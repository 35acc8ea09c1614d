import TensorFormula.Tensor.Product

/-!
# Other shapes for the same elements

Transposing moves the elements of a matrix. The other rearrangements keep the buffer and rename the
sizes: a vector as one row or one column, and a single row or column as a vector.
-/

namespace TensorFormula.Tensor

variable {α : Type}

def transpose : Tensor α → Except TensorFault (Tensor α)
  | ⟨⟨[r, c]⟩, a, va, ha⟩ =>
      have h : a.size = r * c := size_of_matrix ha
      .ok
        { shape := .matrix c r
          content := Array.ofFn fun k : Fin (c * r) =>
            getElem a (k.val % r * c + k.val / r)
              (h ▸ mul_add_lt (mod_lt_of_lt_mul k.isLt) (div_lt_of_lt_mul k.isLt))
          valid := Shape.valid_matrix_iff.2 (Shape.valid_matrix_iff.1 va).symm
          size_content := by simp }
  | t => .error (.notMatrix .transpose t.shape)

def toRowMatrix : Tensor α → Except TensorFault (Tensor α)
  | ⟨⟨[n]⟩, a, va, ha⟩ =>
      .ok
        { shape := .matrix 1 n
          content := a
          valid := Shape.valid_matrix_iff.2 ⟨Nat.one_pos, Shape.valid_vector_iff.1 va⟩
          size_content := by simpa [Shape.count, Shape.matrix] using ha }
  | t => .error (.unsupported .rowMatrix t.shape)

def toColumnMatrix : Tensor α → Except TensorFault (Tensor α)
  | ⟨⟨[n]⟩, a, va, ha⟩ =>
      .ok
        { shape := .matrix n 1
          content := a
          valid := Shape.valid_matrix_iff.2 ⟨Shape.valid_vector_iff.1 va, Nat.one_pos⟩
          size_content := by simpa [Shape.count, Shape.matrix] using ha }
  | t => .error (.unsupported .columnMatrix t.shape)

/-- Vectors, single rows and single columns hold their elements in a line. -/
def isLinear (s : Shape) : Bool :=
  match s.dims with
  | [_] => true
  | [r, c] => r == 1 || c == 1
  | _ => false

def toVector (t : Tensor α) : Except TensorFault (Tensor α) :=
  if isLinear t.shape then
    .ok (t.reshape (.vector t.shape.count) (Shape.valid_vector_iff.2 t.valid.count_pos)
      (Shape.count_vector _).symm)
  else .error (.unsupported .vector t.shape)

def rearrange : Rearrangement → Tensor α → Except TensorFault (Tensor α)
  | .transpose => transpose
  | .rowMatrix => toRowMatrix
  | .columnMatrix => toColumnMatrix
  | .vector => toVector

end TensorFormula.Tensor
