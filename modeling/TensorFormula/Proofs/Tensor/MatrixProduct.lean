import TensorFormula.Proofs.Memory.Operations
import TensorFormula.Proofs.Tensor.Addressing

/-!
# The matrix product, element by element

The element in row `i` and column `j` of a product is the sum of the products along row `i` of the
left factor and column `j` of the right one, from the left and starting at zero. The loops that run
along whole rows instead leave the same buffer, because each element takes up its summands in the
same order.
-/

namespace TensorFormula

variable {α : Type}

namespace Tensor

theorem size_content_matrix {t : Tensor α} {m n : Nat} (h : t.shape = .matrix m n) :
    t.content.size = m * n := by
  rw [t.size_content, h, Shape.count_matrix]

theorem getElem?_cell {m n : Nat} {a : Array α} (h : a.size = m * n) (i : Fin m) (j : Fin n) :
    a[i * n + j]? = some (cell a h i j) :=
  Array.getElem?_eq_getElem _

/-- The elements of a matrix are those of its buffer row by row, and there are no others. -/
theorem get_matrix_eq_ok_iff {t : Tensor α} {m n i j : Nat} (h : t.shape = .matrix m n) {x : α} :
    t.get [i, j] = .ok x ↔ i < m ∧ j < n ∧ t.content[i * n + j]? = some x := by
  rw [get_eq_ok_iff, h]
  simp [Shape.matrix, Shape.Bounds, Shape.place, and_assoc]

theorem get_matrix {t : Tensor α} {m n i j : Nat} (h : t.shape = .matrix m n) (hi : i < m)
    (hj : j < n) : t.get [i, j] = .ok (cell t.content (size_content_matrix h) ⟨i, hi⟩ ⟨j, hj⟩) :=
  (get_matrix_eq_ok_iff h).2 ⟨hi, hj, getElem?_cell (size_content_matrix h) ⟨i, hi⟩ ⟨j, hj⟩⟩

variable [Arithmetic α]

/-- The sum of the products along row `i` of `l` and column `j` of `r`, each of `k` elements. -/
def rowByColumn (l r : Tensor α) (k i j : Nat) : Except TensorFault α :=
  (List.range k).foldlM (fun sum p => do
    let x ← l.get [i, p]
    let y ← r.get [p, j]
    return sum + x * y) 0

theorem foldlM_get {l r : Tensor α} {m k n i j : Nat} (hl : l.shape = .matrix m k)
    (hr : r.shape = .matrix k n) (hi : i < m) (hj : j < n) (ps : List (Fin k)) (sum : α) :
    (ps.map Fin.val).foldlM (fun sum p => do
      let x ← l.get [i, p]
      let y ← r.get [p, j]
      return sum + x * y) sum =
    (.ok (ps.foldl (fun sum p => sum + cell l.content (size_content_matrix hl) ⟨i, hi⟩ p *
      cell r.content (size_content_matrix hr) p ⟨j, hj⟩) sum) : Except TensorFault α) := by
  induction ps generalizing sum with
  | nil => rfl
  | cons p ps ih =>
      rw [List.map_cons, List.foldlM_cons, get_matrix hl hi p.isLt, get_matrix hr p.isLt hj]
      exact ih _

theorem rowByColumn_eq {l r : Tensor α} {m k n i j : Nat} (hl : l.shape = .matrix m k)
    (hr : r.shape = .matrix k n) (hi : i < m) (hj : j < n) :
    rowByColumn l r k i j = .ok (dot (cell l.content (size_content_matrix hl) ⟨i, hi⟩)
      fun p => cell r.content (size_content_matrix hr) p ⟨j, hj⟩) := by
  rw [rowByColumn, ← List.map_coe_finRange_eq_range, foldlM_get hl hr hi hj, dot,
    Fin.foldl_eq_finRange_foldl]

theorem cell_productBuffer {m k n : Nat} {a b c : Array α} (ha : a.size = m * k)
    (hb : b.size = k * n) (hc : c.size = m * n) (h : c = productBuffer a b ha hb) (i : Fin m)
    (j : Fin n) : cell c hc i j = dot (cell a ha i) fun p => cell b hb p j := by
  subst h
  simp [cell, productBuffer, Block.div_of_row, Nat.mod_eq_of_lt]

/-- The product of an `[m, k]` and a `[k, n]` tensor by its definition. -/
theorem exists_matmul {l r : Tensor α} {m k n : Nat} (hl : l.shape = .matrix m k)
    (hr : r.shape = .matrix k n) : ∃ u, l.matmul r = .ok u ∧ u.shape = .matrix m n ∧
      ∀ i < m, ∀ j < n, ∃ x, u.get [i, j] = .ok x ∧ rowByColumn l r k i j = .ok x := by
  obtain ⟨u, hu, hs, ha, hb, hc⟩ := Block.exists_matmul_matrix hl hr
  refine ⟨u, hu, hs, fun i hi j hj => ⟨_, get_matrix hs hi hj, ?_⟩⟩
  rw [rowByColumn_eq hl hr hi hj, cell_productBuffer ha hb _ hc]

end Tensor

/-! ## The loops -/

namespace Block

theorem product_of_lt {ε : Type} {ds : List Nat} (hpos : 0 ∉ ds)
    (h : Shape.volume ds < Nat.pow 2 64) :
    product ds = (.ok (Shape.volume ds) : Except (Stop ε) Nat) := by
  rw [← Nat.one_mul (Shape.volume ds)] at h ⊢
  exact productFrom_of_lt hpos h

theorem ofArray_block {t : Tensor α} (h : t.shape.count < Nat.pow 2 64) :
    ofArray t.shape.dims t.content = .ok t.block := by
  rw [ofArray, if_pos t.valid, product_of_lt t.valid.2 h]
  exact if_pos t.size_content

variable [Arithmetic α]

theorem matmul_block_of_lt {l r u : Tensor α} {m k n : Nat} (hl : l.shape = .matrix m k)
    (hr : r.shape = .matrix k n) (hu : l.matmul r = .ok u) (h : u.shape.count < Nat.pow 2 64) :
    matmul l.block r.block = .ok u.block := by
  obtain ⟨u', hu', hs, ha, hb, hc⟩ := exists_matmul_matrix hl hr
  obtain rfl : u = u' := Except.ok.inj (hu.symm.trans hu')
  have hdims : u.shape.dims = [m, n] := congrArg Shape.dims hs
  have hproduct : product [m, n] = (.ok (m * n) : Except (Stop TensorFault) Nat) := by
    rw [← hdims, product_of_lt u.valid.2 h, ← Shape.count_matrix m n, ← hs]
    rfl
  have hofArray : ofArray [m, n] u.content = .ok u.block := by
    rw [← hdims, ofArray_block h]
  rw [Tensor.block, Tensor.block, hl, hr]
  change matmul ⟨[m, k], l.content⟩ ⟨[k, n], r.content⟩ = _
  rw [matmul_of_multiplies, hproduct]
  change (multiply l.content r.content m k n (Array.replicate (m * n) 0) >>= ofArray [m, n]) = _
  rw [multiply_eq ha hb, ← hc]
  exact hofArray

end Block

namespace Tensor

variable [Arithmetic α]

/-- Factors `[m, k]` and `[k, n]` have the product `[m, n]` whose elements are the sums of products
along rows and columns, and the loops over blocks have it too, as long as they can count its
elements. No other tensors have a product, with or without the loops. -/
theorem matmul_sums_rows_by_columns (l r : Tensor α) :
    (∀ m k n, l.shape = .matrix m k → r.shape = .matrix k n →
      ∃ u, l.matmul r = .ok u ∧ u.shape = .matrix m n ∧
        (∀ i < m, ∀ j < n, ∃ x, u.get [i, j] = .ok x ∧ rowByColumn l r k i j = .ok x) ∧
        (m * n < Nat.pow 2 64 → Block.matmul l.block r.block = .ok u.block)) ∧
    ((¬ ∃ m k n, l.shape = .matrix m k ∧ r.shape = .matrix k n) →
      l.matmul r = .error (.incompatible .matmul l.shape r.shape) ∧
      Block.matmul l.block r.block =
        .error (.fault (.incompatible .matmul l.shape r.shape))) := by
  constructor
  · intro m k n hl hr
    obtain ⟨u, hu, hs, hget⟩ := exists_matmul hl hr
    refine ⟨u, hu, hs, hget, fun hlt => Block.matmul_block_of_lt hl hr hu ?_⟩
    rwa [hs, Shape.count_matrix]
  · intro h
    have hm : l.shape.multipliesWith r.shape = false := by
      rwa [← Bool.not_eq_true, Block.multipliesWith_iff]
    refine ⟨Block.matmul_of_not_multiplies hm, if_neg ?_⟩
    exact Bool.not_eq_true _ ▸ hm

def roundedLeft : Tensor Float := ⟨.matrix 1 3, #[1e16, 1, -1e16], by decide, rfl⟩

def roundedRight : Tensor Float :=
  ⟨.matrix 3 4, #[1, 0, 2, 0, 1, 1, 0, 0, 1, 2, 2, 3], by decide, rfl⟩

/-- In the first element the summand of one is lost in rounding before the large ones cancel. -/
theorem matmul_sums_rows_by_columns_rounded :
    (∃ u, roundedLeft.matmul roundedRight = .ok u ∧ u.shape = .matrix 1 4 ∧
      u.get [0, 0] = .ok 0 ∧ Block.matmul roundedLeft.block roundedRight.block = .ok u.block) ∧
    roundedLeft.matmul roundedLeft =
      .error (.incompatible .matmul (.matrix 1 3) (.matrix 1 3)) := by
  obtain ⟨hproduct, -⟩ := matmul_sums_rows_by_columns roundedLeft roundedRight
  obtain ⟨-, hrefuse⟩ := matmul_sums_rows_by_columns roundedLeft roundedLeft
  obtain ⟨u, hu, hs, hget, hblock⟩ := hproduct 1 3 4 rfl rfl
  obtain ⟨x, hx, hsum⟩ := hget 0 (by decide) 0 (by decide)
  have hlost : rowByColumn roundedLeft roundedRight 3 0 0 = .ok 0 := by decide +kernel
  refine ⟨⟨u, hu, hs, ?_, hblock (by decide)⟩, (hrefuse ?_).1⟩
  · rw [hx, ← hsum, hlost]
  · rw [← Block.multipliesWith_iff]
    decide

end Tensor

end TensorFormula
