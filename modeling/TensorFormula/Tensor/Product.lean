import TensorFormula.Tensor.Basic

/-!
# The matrix product

Each element of the product is the sum of its row and column products, taken from the left and
starting at zero. No law of the arithmetic is used.
-/

namespace TensorFormula.Tensor

variable {α : Type}

theorem size_of_matrix {r c : Nat} {a : Array α} (h : a.size = (Shape.matrix r c).count) :
    a.size = r * c := h.trans (Shape.count_matrix r c)

variable [Arithmetic α]

theorem mul_add_lt {m n i j : Nat} (hi : i < m) (hj : j < n) : i * n + j < m * n := by
  have h : (i + 1) * n ≤ m * n := Nat.mul_le_mul_right n hi
  rw [Nat.succ_mul] at h
  omega

theorem div_lt_of_lt_mul {m n k : Nat} (h : k < m * n) : k / n < m :=
  Nat.div_lt_of_lt_mul (Nat.mul_comm m n ▸ h)

theorem mod_lt_of_lt_mul {m n k : Nat} (h : k < m * n) : k % n < n := by
  refine Nat.mod_lt _ (Nat.pos_of_ne_zero fun h0 => ?_)
  simp [h0] at h

/-- The sum of the products along row `i` of `a` and column `j` of `b`. -/
def dot {k : Nat} (row col : Fin k → α) : α :=
  Fin.foldl k (fun sum p => sum + row p * col p) 0

/-- The element in row `i` and column `j` of a buffer of `m` rows and `n` columns. -/
def cell {m n : Nat} (c : Array α) (h : c.size = m * n) (i : Fin m) (j : Fin n) : α :=
  getElem c (i * n + j) (h ▸ mul_add_lt i.isLt j.isLt)

def productBuffer {m k n : Nat} (a b : Array α) (ha : a.size = m * k) (hb : b.size = k * n) :
    Array α :=
  Array.ofFn fun c : Fin (m * n) =>
    dot (cell a ha ⟨c.val / n, div_lt_of_lt_mul c.isLt⟩)
      fun p => cell b hb p ⟨c.val % n, mod_lt_of_lt_mul c.isLt⟩

/-- The product of an `[m, k]` and a `[k, n]` tensor. -/
def matmul : Tensor α → Tensor α → Except TensorFault (Tensor α)
  | ⟨⟨[m, k]⟩, a, va, ha⟩, ⟨⟨[k', n]⟩, b, vb, hb⟩ =>
      if h : k' = k then
        .ok
          { shape := .matrix m n
            content := productBuffer (m := m) (k := k) (n := n) a b
              (size_of_matrix ha)
              (h ▸ size_of_matrix hb)
            valid := Shape.valid_matrix_iff.2
              ⟨(Shape.valid_matrix_iff.1 va).1, (Shape.valid_matrix_iff.1 vb).2⟩
            size_content := by simp [productBuffer] }
      else .error (.incompatible .matmul ⟨[m, k]⟩ ⟨[k', n]⟩)
  | l, r => .error (.incompatible .matmul l.shape r.shape)

end TensorFormula.Tensor
