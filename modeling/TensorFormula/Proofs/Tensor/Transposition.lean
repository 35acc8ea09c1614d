import TensorFormula.Proofs.Tensor.Broadcasting

/-!
# The transpose of a product

The element in row `j` and column `i` of a transposed product is a sum of products along row `i` and
column `j`. To multiply the transposed factors in the other order takes the same summands in the
same order, each product the other way round, so that the sums agree whatever addition does.
-/

namespace TensorFormula

open Float.Model

namespace Tensor

variable {α : Type} {m k n : Nat}

/-! ## Elements of matrices -/

/-- Matrices of one shape with the same elements are the same. -/
theorem ext_matrix {t u : Tensor α} (ht : t.shape = .matrix m n) (hu : u.shape = .matrix m n)
    (h : ∀ i < m, ∀ j < n, t.get [i, j] = u.get [i, j]) : t = u := by
  have hsize := size_content_matrix ht
  have hsize' := size_content_matrix hu
  refine Tensor.ext (ht.trans hu.symm) (Array.ext (hsize.trans hsize'.symm) fun q hq hq' => ?_)
  have hi : q / n < m := div_lt_of_lt_mul (hsize ▸ hq)
  have hj : q % n < n := mod_lt_of_lt_mul (hsize ▸ hq)
  have hget := h _ hi _ hj
  rw [get_matrix ht hi hj, get_matrix hu hi hj] at hget
  simpa only [cell, Nat.div_add_mod'] using Except.ok.inj hget

/-- The rows of `t`, an `[m, n]` tensor, are the columns of `u`. -/
structure TransposesTo (m n : Nat) (t u : Tensor α) : Prop where
  shape : t.shape = .matrix m n
  shape_transpose : u.shape = .matrix n m
  get : ∀ i < m, ∀ j < n, u.get [j, i] = t.get [i, j]

theorem exists_transpose {t : Tensor α} (h : t.shape = .matrix m n) :
    ∃ u, t.transpose = .ok u ∧ t.TransposesTo m n u := by
  obtain ⟨_, a, hv, ha⟩ := t
  obtain rfl := h
  refine ⟨_, rfl, rfl, rfl, fun i hi j hj => ?_⟩
  rw [get_matrix rfl hj hi, get_matrix rfl hi hj]
  simp [cell, Block.div_of_row hi, Nat.mod_eq_of_lt hi]

theorem TransposesTo.cell_eq {t u : Tensor α} (h : t.TransposesTo m n u) (i : Fin m) (j : Fin n) :
    cell u.content (size_content_matrix h.shape_transpose) j i =
      cell t.content (size_content_matrix h.shape) i j := by
  have hget := h.get i i.isLt j j.isLt
  rw [get_matrix h.shape_transpose j.isLt i.isLt, get_matrix h.shape i.isLt j.isLt] at hget
  exact Except.ok.inj hget

/-! ## Sums of products -/

variable [Arithmetic α]

/-- Both sums start at zero and take up the products from the left. -/
theorem dot_comm (hcomm : ∀ x y : α, x * y = y * x) (row col : Fin k → α) :
    dot row col = dot col row := by
  rw [dot, dot]
  congr
  funext sum p
  rw [hcomm]

theorem rowByColumn_transpose (hcomm : ∀ x y : α, x * y = y * x) {a a' b b' : Tensor α}
    (ha : a.TransposesTo m k a') (hb : b.TransposesTo k n b') {i j : Nat} (hi : i < m)
    (hj : j < n) : rowByColumn b' a' k j i = rowByColumn a b k i j := by
  have hrow : (fun p => cell a'.content (size_content_matrix ha.shape_transpose) p ⟨i, hi⟩) =
      cell a.content (size_content_matrix ha.shape) ⟨i, hi⟩ :=
    funext (ha.cell_eq ⟨i, hi⟩)
  have hcol : cell b'.content (size_content_matrix hb.shape_transpose) ⟨j, hj⟩ =
      fun p => cell b.content (size_content_matrix hb.shape) p ⟨j, hj⟩ :=
    funext fun p => hb.cell_eq p ⟨j, hj⟩
  rw [rowByColumn_eq hb.shape_transpose ha.shape_transpose hj hi,
    rowByColumn_eq ha.shape hb.shape hi hj, hrow, hcol, dot_comm hcomm]

theorem exists_combine_transpose (hcomm : ∀ x y : α, x * y = y * x) {a a' b b' : Tensor α}
    (ha : a.TransposesTo m k a') (hb : b.TransposesTo k n b') :
    ∃ p u, a.combine b .matmul = .ok p ∧ p.transpose = .ok u ∧ b'.combine a' .matmul = .ok u ∧
      p.shape = .matrix m n ∧ u.shape = .matrix n m ∧
      ∀ i < m, ∀ j < n, ∃ x, u.get [j, i] = .ok x ∧ rowByColumn a b k i j = .ok x := by
  obtain ⟨p, hp, hps, hpget⟩ := exists_matmul ha.shape hb.shape
  obtain ⟨u, hu, hpu⟩ := exists_transpose hps
  obtain ⟨q, hq, hqs, hqget⟩ := exists_matmul hb.shape_transpose ha.shape_transpose
  have hget : ∀ i < m, ∀ j < n, ∃ x, u.get [j, i] = .ok x ∧ rowByColumn a b k i j = .ok x :=
    fun i hi j hj => hpu.get i hi j hj ▸ hpget i hi j hj
  have hqu : q = u := by
    refine ext_matrix hqs hpu.shape_transpose fun j hj i hi => ?_
    obtain ⟨x, hx, hsum⟩ := hget i hi j hj
    obtain ⟨y, hy, hsum'⟩ := hqget j hj i hi
    rw [hx, hy, ← hsum, ← hsum', rowByColumn_transpose hcomm ha hb hi hj]
  have hm : Multiplies .matmul a b := ⟨rfl, m, k, n, ha.shape, hb.shape⟩
  have hm' : Multiplies .matmul b' a' := ⟨rfl, n, k, m, hb.shape_transpose, ha.shape_transpose⟩
  rw [combine_of_multiplies hm, combine_of_multiplies hm']
  exact ⟨p, u, hp, hu, hqu ▸ hq, hps, hpu.shape_transpose, hget⟩

end Tensor

/-! ## Multiplication of floats -/

theorem sign_mul_comm (s t : UnpackedFloat.Sign) : s * t = t * s := by
  cases s <;> cases t <;> rfl

/-- A product of finite numbers is that of their parts, rounded once. -/
theorem unpacked_mul_comm (f : Format) (x y : UnpackedFloat) :
    UnpackedFloat.mul f x y = UnpackedFloat.mul f y x := by
  cases x with
  | notANumber => cases y <;> rfl
  | infinity s =>
      cases y with
      | infinity t => exact congrArg UnpackedFloat.infinity (sign_mul_comm s t)
      | finite t m e hm => exact congrArg UnpackedFloat.infinity (sign_mul_comm s t)
      | _ => rfl
  | zero s =>
      cases y with
      | zero t => exact congrArg UnpackedFloat.zero (sign_mul_comm s t)
      | finite t m e hm => exact congrArg UnpackedFloat.zero (sign_mul_comm s t)
      | _ => rfl
  | finite s m e hm =>
      cases y with
      | notANumber => rfl
      | infinity t => exact congrArg UnpackedFloat.infinity (sign_mul_comm s t)
      | zero t => exact congrArg UnpackedFloat.zero (sign_mul_comm s t)
      | finite t m' e' hm' =>
          change UnpackedFloat.roundWithAccuracy f (s * t) (m * m') (e + e') .exact =
            UnpackedFloat.roundWithAccuracy f (t * s) (m' * m) (e' + e) .exact
          rw [sign_mul_comm, Nat.mul_comm, Int.add_comm]

theorem double_mul_comm (x y : Float) : x * y = y * x :=
  congrArg (fun z => Float.ofModel (.pack z)) (unpacked_mul_comm .binary64 _ _)

theorem single_mul_comm (x y : Float32) : x * y = y * x :=
  congrArg (fun z => Float32.ofModel (.pack z)) (unpacked_mul_comm .binary32 _ _)

/-! ## In place -/

namespace Tensor

variable {α : Type} {m k n : Nat} {t u : Tensor α}

theorem run_transpose_of_ok (h : t.transpose = .ok u) :
    Block.transpose.run t.block = .ok () u.block := by
  rw [Block.run_transpose, h]
  rfl

variable [Arithmetic α]

theorem run_apply_of_ok {op : Operator} {l r : Tensor α} (hu : l.combine r op = .ok u)
    (h : u.count < Nat.pow 2 64) : (Block.apply op r.block).run l.block = .ok () u.block := by
  have hcount : ∀ p, Multiplies op l r → l.matmul r = .ok p → p.count < Nat.pow 2 64 := by
    intro p hm hp
    rw [combine_of_multiplies hm, hp] at hu
    rwa [Except.ok.inj hu]
  rw [run_apply hcount, hu]
  rfl

/-! ## Main statement -/

/-- Where products do not depend on the order of their factors, a product transposed is the product
of the transposed factors in the other order, element for element; sums may depend on the order of
their terms. The loops over blocks agree as well, as long as they can count the elements. -/
theorem transpose_matmul (hcomm : ∀ x y : α, x * y = y * x) (a b : Tensor α)
    (ha : a.shape = .matrix m k) (hb : b.shape = .matrix k n) :
    ∃ u a' b', a.transpose = .ok a' ∧ b.transpose = .ok b' ∧
      (a.combine b .matmul >>= transpose) = .ok u ∧
      b'.combine a' .matmul = .ok u ∧
      u.shape = .matrix n m ∧
      (∀ i < m, ∀ j < n, ∃ x, u.get [j, i] = .ok x ∧ rowByColumn a b k i j = .ok x) ∧
      (m * n < Nat.pow 2 64 →
        (Block.apply .matmul b.block >>= fun _ => Block.transpose).run a.block = .ok () u.block ∧
        Block.transpose.run a.block = .ok () a'.block ∧
        (Block.transpose >>= fun _ => Block.apply .matmul a'.block).run b.block =
          .ok () u.block) := by
  obtain ⟨a', ha', hta⟩ := exists_transpose ha
  obtain ⟨b', hb', htb⟩ := exists_transpose hb
  obtain ⟨p, u, hp, hu, hq, hps, hus, hget⟩ := exists_combine_transpose hcomm hta htb
  refine ⟨u, a', b', ha', hb', by rw [hp]; exact hu, hq, hus, hget, fun hlt => ⟨?_, ?_, ?_⟩⟩
  · have hcount : p.count < Nat.pow 2 64 := by rwa [count_eq, hps, Shape.count_matrix]
    rw [Block.run_bind_of_ok (run_apply_of_ok hp hcount)]
    exact run_transpose_of_ok hu
  · exact run_transpose_of_ok ha'
  · have hcount : u.count < Nat.pow 2 64 := by
      rwa [count_eq, hus, Shape.count_matrix, Nat.mul_comm]
    rw [Block.run_bind_of_ok (run_transpose_of_ok hb')]
    exact run_apply_of_ok hq hcount

def cancellingLeft : Tensor Float32 := ⟨.matrix 2 4, #[1e8, 1, -1e8, 0, 2, 3, 4, 5], by decide, rfl⟩

def cancellingRight : Tensor Float32 :=
  ⟨.matrix 4 3, #[1, 0, 2, 1, 2, 1, 1, 1, 0, 1, 0, 3], by decide, rfl⟩

/-- The summand of one is lost in rounding in both orders of the factors. -/
theorem transpose_matmul_cancelling :
    (∀ x y : Float32, x * y = y * x) ∧ (∀ x y : Float, x * y = y * x) ∧
    ∃ u b', cancellingRight.transpose = .ok b' ∧
      (cancellingLeft.combine cancellingRight .matmul >>= transpose) = .ok u ∧
      (do b'.combine (← cancellingLeft.transpose) .matmul) = .ok u ∧
      u.shape = .matrix 3 2 ∧ u.get [0, 0] = .ok 0 ∧ u.get [0, 1] = .ok 14 ∧
      (Block.apply .matmul cancellingRight.block >>= fun _ => Block.transpose).run
        cancellingLeft.block = .ok () u.block := by
  obtain ⟨u, a', b', ha, hb, hu, hq, hs, hget, hrun⟩ :=
    transpose_matmul single_mul_comm cancellingLeft cancellingRight rfl rfl
  obtain ⟨x, hx, hsum⟩ := hget 0 (by decide) 0 (by decide)
  obtain ⟨y, hy, hsum'⟩ := hget 1 (by decide) 0 (by decide)
  have hlost : rowByColumn cancellingLeft cancellingRight 4 0 0 = .ok 0 := by decide +kernel
  have hkept : rowByColumn cancellingLeft cancellingRight 4 1 0 = .ok 14 := by decide +kernel
  refine ⟨single_mul_comm, double_mul_comm, u, b', hb, hu, ?_, hs, ?_, ?_, (hrun (by decide)).1⟩
  · rw [ha]
    exact hq
  · rw [hx, ← hsum, hlost]
  · rw [hy, ← hsum', hkept]

end Tensor

end TensorFormula
