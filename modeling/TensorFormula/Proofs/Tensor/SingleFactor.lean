import TensorFormula.Proofs.Number.FloatBits
import TensorFormula.Proofs.Tensor.Transposition

/-!
# Factors with a single element

Where one of two tensors has a single element, the matrix operator and multiplication differ in one
thing only: a matrix product starts each of its sums at zero. The sums have one term then, and the
shape of the product is the one that multiplication takes from its sides. Adding zero changes no
float but the negative zero.
-/

namespace TensorFormula

namespace Tensor

variable {α : Type} {m k n q : Nat} {l r t u v : Tensor α}

/-! ## Columns and rows -/

/-- Two matrices with a product, one of them with a single element, are a column and a row. -/
theorem inner_eq_one (hl : l.shape = .matrix m k) (hr : r.shape = .matrix k n)
    (h : l.count = 1 ∨ r.count = 1) : k = 1 := by
  rw [count_eq, count_eq, hl, hr, Shape.count_matrix, Shape.count_matrix] at h
  obtain h | h := h
  · exact Nat.eq_one_of_mul_eq_one_left h
  · exact Nat.eq_one_of_mul_eq_one_right h

theorem count_column (h : t.shape = .matrix m 1) : t.count = m := by
  rw [count_eq, h, Shape.count_matrix, Nat.mul_one]

theorem count_row (h : t.shape = .matrix 1 n) : t.count = n := by
  rw [count_eq, h, Shape.count_matrix, Nat.one_mul]

/-- The elements of row `i` of a product belong to the `i`-th element of a column. -/
theorem facing_column (h : t.shape = .matrix m 1) (hone : m = 1 ∨ n = 1) (hq : q < m * n) :
    t.facing q = t.content[q / n]? := by
  rw [facing, count_column h]
  obtain rfl | rfl := hone
  · rw [if_pos rfl, Nat.div_eq_of_lt (by omega)]
  · rw [Nat.div_one]
    split
    · next hm =>
        obtain rfl : q = 0 := by omega
        rfl
    · rfl

/-- The elements of column `j` of a product belong to the `j`-th element of a row. -/
theorem facing_row (h : t.shape = .matrix 1 n) (hone : m = 1 ∨ n = 1) (hq : q < m * n) :
    t.facing q = t.content[q % n]? := by
  rw [facing, count_row h]
  obtain rfl | rfl := hone
  · rw [Nat.mod_eq_of_lt (by omega)]
    split
    · next hn =>
        obtain rfl : q = 0 := by omega
        rfl
    · rfl
  · rw [if_pos rfl, Nat.mod_one]

/-! ## Sums of one product -/

variable [Arithmetic α]

theorem dot_one (row col : Fin 1 → α) : dot row col = 0 + row 0 * col 0 := by
  simp [dot, Fin.foldl_succ]

/-- The shape that multiplication takes from a column and a row is that of their product. -/
theorem Paired.shape_product (hv : Paired .mul l r v) (hl : l.shape = .matrix m 1)
    (hr : r.shape = .matrix 1 n) (hone : m = 1 ∨ n = 1) : v.shape = .matrix m n := by
  rw [hv.shape, count_column hl, count_row hr]
  split
  · next h => rw [hr, h.1]
  · next h =>
      obtain rfl : n = 1 := by omega
      exact hl

theorem Paired.content_product (hv : Paired .mul l r v) (hl : l.shape = .matrix m 1)
    (hr : r.shape = .matrix 1 n) (hone : m = 1 ∨ n = 1) (hu : l.matmul r = .ok u) :
    u.content = v.content.map (0 + ·) := by
  obtain ⟨u', hu', hs, ha, hb, hc⟩ := Block.exists_matmul_matrix hl hr
  obtain rfl : u = u' := Except.ok.inj (hu.symm.trans hu')
  have husize := size_content_matrix hs
  have hvsize := size_content_matrix (hv.shape_product hl hr hone)
  refine Array.ext_getElem? fun q => ?_
  rw [Array.getElem?_map]
  by_cases hq : q < m * n
  · have hi : q / n < m := div_lt_of_lt_mul hq
    have hj : q % n < n := mod_lt_of_lt_mul hq
    obtain ⟨x, y, hx, hy, he⟩ := hv.element q (hvsize.symm ▸ hq : q < v.content.size)
    have hleft := getElem?_cell ha ⟨q / n, hi⟩ 0
    have hright := getElem?_cell hb 0 ⟨q % n, hj⟩
    have hplace := getElem?_cell husize ⟨q / n, hi⟩ ⟨q % n, hj⟩
    rw [cell_productBuffer ha hb husize hc, dot_one] at hplace
    simp only [Fin.val_zero, Nat.mul_one, Nat.add_zero, Nat.zero_mul, Nat.zero_add,
      Nat.div_add_mod'] at hleft hright hplace
    rw [facing_column hl hone hq, hleft] at hx
    rw [facing_row hr hone hq, hright] at hy
    rw [hplace, he, Option.some.inj hx, Option.some.inj hy]
    rfl
  · have hnone (t : Tensor α) (ht : t.content.size = m * n) : t.content[q]? = none :=
      Array.getElem?_eq_none (ht ▸ Nat.le_of_not_lt hq)
    rw [hnone u husize, hnone v hvsize]
    rfl

/-- The two operators on tensors of which one has a single element, side by side. -/
theorem exists_combine_of_single (h : l.count = 1 ∨ r.count = 1) :
    ∃ u v, l.combine r .matmul = .ok u ∧ l.combine r .mul = .ok v ∧ u.shape = v.shape ∧
      (Multiplies .matmul l r → u.content = v.content.map (0 + ·)) ∧
      (¬ Multiplies .matmul l r → u = v) := by
  have hnot : ¬ Multiplies .mul l r := fun hm => nomatch hm.1
  obtain ⟨v, hv, hpair⟩ := combine_of_pairable hnot (.inr h)
  by_cases hm : Multiplies .matmul l r
  · obtain ⟨-, m, k, n, hl, hr⟩ := id hm
    obtain rfl := inner_eq_one hl hr h
    rw [count_column hl, count_row hr] at h
    obtain ⟨u, hu, hs, -⟩ := exists_matmul hl hr
    have hshape : u.shape = v.shape := hs.trans (hpair.shape_product hl hr h).symm
    exact ⟨u, v, (combine_of_multiplies hm).trans hu, hv, hshape,
      fun _ => hpair.content_product hl hr h hu, fun hm' => absurd hm hm'⟩
  · obtain ⟨u, hu, hpair'⟩ := combine_of_pairable hm (.inr h)
    have hmul : Paired .mul l r u := ⟨hpair'.shape, hpair'.element⟩
    obtain rfl := hmul.eq hpair
    exact ⟨u, u, hu, hv, rfl, fun hm' => absurd hm' hm, fun _ => rfl⟩

theorem map_zero_add {a : Array α} (h : ∀ z ∈ a, 0 + z = z) : a.map (0 + ·) = a := by
  refine Array.ext (Array.size_map ..) fun q _ hq => ?_
  rw [Array.getElem_map, h _ (Array.getElem_mem hq)]

end Tensor

/-! ## Zero in both widths -/

open Float.Model in
theorem unpacked_zero_add (f : Format) {z : UnpackedFloat} (h : z ≠ .zero .negative) :
    UnpackedFloat.add f (.zero .positive) z = z := by
  cases z with
  | zero s =>
      cases s with
      | positive => rfl
      | negative => exact absurd rfl h
  | _ => rfl

theorem double_zero_add {z : Float} (h : z ≠ -0) : 0 + z = z := by
  have hadd := congrArg (fun x => Float.ofModel (.pack x))
    (unpacked_zero_add .binary64 (double_unpack_ne h))
  rw [← double_unpack_zero] at hadd
  exact hadd.trans (double_pack_unpack z)

theorem single_zero_add {z : Float32} (h : z ≠ -0) : 0 + z = z := by
  have hadd := congrArg (fun x => Float32.ofModel (.pack x))
    (unpacked_zero_add .binary32 (single_unpack_ne h))
  rw [← single_unpack_zero] at hadd
  exact hadd.trans (single_pack_unpack z)

/-! ## Main statement -/

namespace Tensor

variable {α : Type} [Arithmetic α]

/-- Where one side has a single element, the matrix operator and multiplication have values of one
shape. The values themselves agree wherever no matrix product is made, and the elements of a matrix
product are those of multiplication added to zero. In place both operators leave these values, as
long as the elements can be counted. -/
theorem matmul_agrees_with_mul (l r : Tensor α) (h : l.count = 1 ∨ r.count = 1) :
    ∃ u v, l.combine r .matmul = .ok u ∧ l.combine r .mul = .ok v ∧ u.shape = v.shape ∧
      (¬ Multiplies .matmul l r → u = v) ∧
      (Multiplies .matmul l r → u.content = v.content.map (0 + ·)) ∧
      ((∀ z ∈ v.content, 0 + z = z) → u = v) ∧
      (u.count < Nat.pow 2 64 →
        (Block.apply .matmul r.block).run l.block = .ok () u.block ∧
        (Block.apply .mul r.block).run l.block = .ok () v.block) := by
  obtain ⟨u, v, hu, hv, hshape, hproduct, hrepeat⟩ := exists_combine_of_single h
  refine ⟨u, v, hu, hv, hshape, hrepeat, hproduct, fun hzero => ?_, fun hlt => ⟨?_, ?_⟩⟩
  · by_cases hm : Multiplies .matmul l r
    · exact Tensor.ext hshape ((hproduct hm).trans (map_zero_add hzero))
    · exact hrepeat hm
  · exact run_apply_of_ok hu hlt
  · have hcount : v.count = u.count := by rw [count_eq, count_eq, hshape]
    exact run_apply_of_ok hv (hcount ▸ hlt)

def signedRow : Tensor Float := ⟨.matrix 1 4, #[3, -2, 0.5, -1], by decide, rfl⟩

theorem valid_cell : (Shape.matrix 1 1).Valid := Shape.valid_matrix_iff.2 ⟨Nat.one_pos, Nat.one_pos⟩

def factorCell (x : Float) : Tensor Float := ⟨.matrix 1 1, #[x], valid_cell, rfl⟩

/-- The sums of a matrix product lose the sign of a zero, and nothing else. -/
theorem matmul_agrees_with_mul_signedRow :
    (∀ z : Float, z ≠ -0 → 0 + z = z) ∧ (∀ z : Float32, z ≠ -0 → 0 + z = z) ∧
    Multiplies .matmul (factorCell 2) signedRow ∧
    (∃ u, (factorCell 2).combine signedRow .matmul = .ok u ∧
      (factorCell 2).combine signedRow .mul = .ok u ∧ u.content = #[6, -4, 1, -2]) ∧
    ∃ u v, (factorCell 0).combine signedRow .matmul = .ok u ∧
      (factorCell 0).combine signedRow .mul = .ok v ∧ u.shape = v.shape ∧
      u.content = #[0, 0, 0, 0] ∧ v.content = #[0, -0, 0, -0] := by
  have hm (x : Float) : Multiplies .matmul (factorCell x) signedRow := ⟨rfl, 1, 1, 4, rfl, rfl⟩
  obtain ⟨u, v, hu, hv, -, -, -, heq, -⟩ :=
    matmul_agrees_with_mul (factorCell 2) signedRow (.inl rfl)
  obtain ⟨u', v', hu', hv', hshape, -, hzero, -⟩ :=
    matmul_agrees_with_mul (factorCell 0) signedRow (.inl rfl)
  have hdoubled : ((factorCell 2).combine signedRow .mul).map content = .ok #[6, -4, 1, -2] := by
    decide +kernel
  have hsigns : ((factorCell 0).combine signedRow .mul).map content = .ok #[0, -0, 0, -0] := by
    decide +kernel
  rw [hv] at hdoubled
  rw [hv'] at hsigns
  have hc : v.content = #[6, -4, 1, -2] := Except.ok.inj hdoubled
  have hc' : v'.content = #[0, -0, 0, -0] := Except.ok.inj hsigns
  have hplain : ∀ z ∈ v.content, z ≠ -0 := by
    rw [hc]
    decide +kernel
  obtain rfl := heq fun z hz => double_zero_add (hplain z hz)
  refine ⟨fun _ => double_zero_add, fun _ => single_zero_add, hm 2, ⟨u, hu, hv, hc⟩, u', v', hu',
    hv', hshape, ?_, hc'⟩
  rw [hzero (hm 0), hc']
  decide +kernel

end Tensor

end TensorFormula
