import Mathlib.Analysis.SpecialFunctions.Log.Basic
import TensorFormula.Proofs.Formula.ShapeInference
import TensorFormula.Proofs.Memory.Operations

/-!
# Softmax over exact arithmetic

Read over an ordered field, with any positive function for the exponential that turns differences
into quotients, softmax gives every element its exponential divided by the sum of all exponentials.
Shifting the exponents by the largest element divides both by the same number. It makes one exponent
zero and none positive, so that the sum is at least one and is always divided by.
-/

namespace TensorFormula

/-- The functions of elements over an ordered field. Of the exponential the laws are known that
softmax needs, of the others nothing. -/
class ExactReading (K : Type) [Field K] [LinearOrder K] where
  exp : K → K
  sqrt : K → K
  tanh : K → K
  infinity : K
  exp_pos : ∀ x, 0 < exp x
  exp_zero : exp 0 = 1
  exp_sub : ∀ x y, exp (x - y) = exp x / exp y

instance {K : Type} [Field K] [LinearOrder K] [ExactReading K] : Arithmetic K where
  toZero := inferInstance
  toOne := inferInstance
  toAdd := inferInstance
  toSub := inferInstance
  toMul := inferInstance
  toDiv := inferInstance
  toNeg := inferInstance
  le x y := decide (x ≤ y)
  lt x y := decide (x < y)
  abs x := |x|
  sqrt := ExactReading.sqrt
  exp := ExactReading.exp
  tanh := ExactReading.tanh
  infinity := ExactReading.infinity

namespace Tensor

section Passes

variable {α : Type} [Arithmetic α] (t : Tensor α)

/-- The exponents. -/
def shifted : Tensor α := t.map (· - t.peak)

/-- The exponentials before they are divided by their sum. -/
def weights : Tensor α := t.shifted.map Arithmetic.exp

theorem softmax_eq_normalize : t.softmax = t.weights.normalize := by
  have hweights : (t.map fun x => Arithmetic.exp (x - t.peak)) = t.weights :=
    Tensor.ext rfl (Array.map_map (f := (· - t.peak)) (g := Arithmetic.exp)).symm
  rw [softmax, hweights]

theorem content_weights :
    t.weights.content = t.content.map fun x => Arithmetic.exp (x - t.peak) :=
  Array.map_map

end Passes

theorem first_mem {α : Type} (t : Tensor α) : t.first ∈ t.content := Array.getElem_mem _

variable {K : Type} [Field K] [LinearOrder K] [ExactReading K] (t : Tensor K)

/-! ## The largest element -/

theorem larger_eq_max (x y : K) : Arithmetic.larger x y = max x y := by
  simp [Arithmetic.larger, Arithmetic.le, max_def]

theorem foldl_larger_le_iff (xs : List K) (start b : K) :
    xs.foldl Arithmetic.larger start ≤ b ↔ start ≤ b ∧ ∀ x ∈ xs, x ≤ b := by
  induction xs generalizing start with
  | nil => simp
  | cons x xs ih =>
      rw [List.foldl_cons, ih, larger_eq_max, max_le_iff, List.forall_mem_cons, and_assoc]

theorem foldl_larger_mem (xs : List K) (start : K) :
    xs.foldl Arithmetic.larger start ∈ start :: xs := by
  induction xs generalizing start with
  | nil => exact List.mem_cons_self
  | cons x xs ih =>
      rw [List.foldl_cons, larger_eq_max]
      have hmem := ih (max start x)
      rcases List.mem_cons.1 hmem with h | h
      · rw [h]
        rcases max_choice start x with hmax | hmax <;> simp [hmax]
      · simp [h]

theorem peak_mem : t.peak ∈ t.content := by
  have hmem := foldl_larger_mem t.content.toList t.first
  rw [Array.foldl_toList] at hmem
  rcases List.mem_cons.1 hmem with h | h
  · rw [peak, h]
    exact t.first_mem
  · exact Array.mem_toList_iff.1 h

theorem le_peak : ∀ x ∈ t.content, x ≤ t.peak := by
  intro x hx
  have hle : t.content.toList.foldl Arithmetic.larger t.first ≤ t.peak := by
    rw [Array.foldl_toList, peak]
  exact ((foldl_larger_le_iff _ _ _).1 hle).2 x (Array.mem_toList_iff.2 hx)

/-- The search for the largest element may start at any number that no element is below. -/
theorem foldl_larger_eq_peak {start : K} (h : ∀ x ∈ t.content, start ≤ x) :
    t.content.foldl Arithmetic.larger start = t.peak := by
  rw [← Array.foldl_toList]
  apply le_antisymm
  · refine (foldl_larger_le_iff _ _ _).2 ⟨h _ t.peak_mem, fun x hx => ?_⟩
    exact t.le_peak x (Array.mem_toList_iff.1 hx)
  · exact ((foldl_larger_le_iff _ _ _).1 le_rfl).2 _ (Array.mem_toList_iff.2 t.peak_mem)

/-! ## Exponents and their exponentials -/

/-- The sum of the exponentials of all elements. -/
def exponentials : K := (t.content.toList.map ExactReading.exp).sum

theorem zero_mem_shifted : 0 ∈ t.shifted.content :=
  Array.mem_map.2 ⟨t.peak, t.peak_mem, sub_self _⟩

theorem pos_of_mem_weights : ∀ w ∈ t.weights.content, 0 < w := by
  intro w hw
  rw [content_weights] at hw
  obtain ⟨x, -, rfl⟩ := Array.mem_map.1 hw
  exact ExactReading.exp_pos _

theorem sum_eq : t.sum = t.content.toList.sum := by
  rw [sum, ← Array.foldl_toList, List.sum_eq_foldl]

/-- Shifting the exponents divides their exponentials by one number. -/
theorem sum_weights : t.weights.sum = t.exponentials / ExactReading.exp t.peak := by
  have hdivided : (t.content.toList.map fun x => Arithmetic.exp (x - t.peak)) =
      t.content.toList.map fun x => ExactReading.exp x * (ExactReading.exp t.peak)⁻¹ :=
    List.map_congr_left fun x _ => (ExactReading.exp_sub x t.peak).trans (div_eq_mul_inv _ _)
  rw [sum_eq, content_weights, Array.toList_map, hdivided, List.sum_map_mul_right, exponentials,
    div_eq_mul_inv]

variable [IsStrictOrderedRing K]

theorem shifted_nonpos : ∀ z ∈ t.shifted.content, z ≤ 0 := by
  intro z hz
  obtain ⟨x, hx, rfl⟩ := Array.mem_map.1 hz
  exact sub_nonpos.2 (t.le_peak x hx)

theorem one_le_sum_weights : 1 ≤ t.weights.sum := by
  have hone : (1 : K) ∈ t.weights.content.toList :=
    Array.mem_toList_iff.2 (Array.mem_map.2 ⟨0, t.zero_mem_shifted, ExactReading.exp_zero⟩)
  have hpos (w : K) (hw : w ∈ t.weights.content.toList) : 0 ≤ w :=
    (t.pos_of_mem_weights w (Array.mem_toList_iff.1 hw)).le
  rw [sum_eq]
  exact List.single_le_sum hpos 1 hone

/-! ## The distribution -/

theorem softmax_eq_map : t.softmax = t.weights.map (· * Arithmetic.recip t.weights.sum) := by
  have hpos : Arithmetic.lt 0 t.weights.sum = true :=
    decide_eq_true (zero_lt_one.trans_le t.one_le_sum_weights)
  rw [softmax_eq_normalize, normalize, if_pos hpos]

theorem content_softmax :
    t.softmax.content = t.content.map fun x => ExactReading.exp x / t.exponentials := by
  have hpeak : ExactReading.exp t.peak ≠ 0 := (ExactReading.exp_pos t.peak).ne'
  rw [softmax_eq_map]
  change t.weights.content.map _ = _
  rw [content_weights, Array.map_map]
  refine Array.map_congr_left fun x _ => ?_
  change ExactReading.exp (x - t.peak) * (1 / t.weights.sum) = _
  rw [ExactReading.exp_sub, sum_weights]
  field_simp

theorem pos_of_mem_softmax : ∀ p ∈ t.softmax.content, 0 < p := by
  intro p hp
  rw [softmax_eq_map] at hp
  obtain ⟨w, hw, rfl⟩ := Array.mem_map.1 hp
  have hsum : 0 < t.weights.sum := zero_lt_one.trans_le t.one_le_sum_weights
  exact mul_pos (t.pos_of_mem_weights w hw) (one_div_pos.2 hsum)

theorem sum_softmax : t.softmax.content.toList.sum = 1 := by
  have hsum : t.weights.sum ≠ 0 := (zero_lt_one.trans_le t.one_le_sum_weights).ne'
  rw [softmax_eq_map, map, Array.toList_map, List.sum_map_mul_right, List.map_id', ← sum_eq]
  exact mul_one_div_cancel hsum

/-- Softmax of a tensor as its three passes compute it. -/
structure StableSoftmax (t : Tensor K) : Prop where
  /-- The largest element is found from any number that no element is below. -/
  peak : ∀ start, (∀ x ∈ t.content, start ≤ x) → t.content.foldl Arithmetic.larger start = t.peak
  exponents_nonpos : ∀ z ∈ t.shifted.content, z ≤ 0
  exponent_zero : 0 ∈ t.shifted.content
  one_le_sum : 1 ≤ t.weights.sum
  /-- The sum is divided by. -/
  normalizes : t.softmax = t.weights.map (· * Arithmetic.recip t.weights.sum)
  content : t.softmax.content = t.content.map fun x => ExactReading.exp x / t.exponentials
  shape : t.softmax.shape = t.shape
  pos : ∀ p ∈ t.softmax.content, 0 < p
  sum : t.softmax.content.toList.sum = 1
  inPlace : Block.softmax.run t.block = .ok () t.softmax.block

/-- Over exact arithmetic the softmax of a tensor of any shape is the distribution in which every
element has its exponential over the sum of all exponentials. -/
theorem softmax_is_distribution (t : Tensor K) : t.StableSoftmax where
  peak _ h := t.foldl_larger_eq_peak h
  exponents_nonpos := t.shifted_nonpos
  exponent_zero := t.zero_mem_shifted
  one_le_sum := t.one_le_sum_weights
  normalizes := t.softmax_eq_map
  content := t.content_softmax
  shape := t.shape_softmax
  pos := t.pos_of_mem_softmax
  sum := t.sum_softmax
  inPlace := Block.run_softmax t

/-- The real exponential. There is no infinite real number; no element is compared with one. -/
noncomputable instance : ExactReading ℝ where
  exp := Real.exp
  sqrt := Real.sqrt
  tanh := Real.tanh
  infinity := 0
  exp_pos := Real.exp_pos
  exp_zero := Real.exp_zero
  exp_sub := Real.exp_sub

noncomputable def realColumn : Tensor ℝ := ⟨.matrix 2 1, #[Real.log 3, 0], by decide, rfl⟩

theorem softmax_is_distribution_realColumn :
    realColumn.StableSoftmax ∧ realColumn.softmax.content = #[3 / 4, 1 / 4] := by
  have hstable := softmax_is_distribution realColumn
  refine ⟨hstable, hstable.content.trans ?_⟩
  have hlog : (ExactReading.exp (Real.log 3) : ℝ) = 3 := Real.exp_log (by norm_num)
  have hzero : (ExactReading.exp 0 : ℝ) = 1 := ExactReading.exp_zero
  have htotal : realColumn.exponentials = 4 := by
    simp [exponentials, realColumn, hlog, hzero]
    norm_num
  rw [htotal]
  simp [realColumn, hlog, hzero]

end Tensor

end TensorFormula
