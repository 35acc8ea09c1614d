import TensorFormula.Proofs.Memory.Operations

/-!
# Where the search for the largest element starts

The largest element of a tensor is sought from the first one on. The search may as well start at the
negative infinity of the width. The two searches part only where no element compares with itself,
and then every difference is the same whatever is subtracted, so that softmax is the same always.
-/

namespace TensorFormula

open Arithmetic

section Search

variable {α : Type} [Arithmetic α]

/-- What a search from `bottom` needs: `bottom` is below whatever compares with itself, and of
anything else all differences are the same. -/
structure StartsBelow (bottom : α) : Prop where
  le_self : le bottom bottom = true
  le_iff : ∀ x : α, le bottom x = true ↔ le x x = true
  sub_eq : ∀ x y z : α, ¬ le x x = true → x - y = x - z

theorem larger_self (x : α) : larger x x = x := by
  simp [larger]

theorem larger_of_not_le_self {x : α} (h : ¬ le x x = true) (y : α) : larger x y = y := if_neg h

variable {bottom : α} (h : StartsBelow bottom)

include h

theorem StartsBelow.larger_eq {x : α} (hx : le x x = true) : larger bottom x = x := by
  rw [larger, if_pos h.le_self, if_pos ((h.le_iff x).2 hx)]

theorem StartsBelow.larger_eq_self {x : α} (hx : ¬ le x x = true) : larger bottom x = bottom := by
  rw [larger, if_pos h.le_self, if_neg (mt (h.le_iff x).1 hx)]

/-- A start that does not compare with itself gives way to the first element that does. -/
theorem StartsBelow.foldl_eq_or {start : α} (hstart : ¬ le start start = true) (xs : List α) :
    xs.foldl larger start = xs.foldl larger bottom ∨ ∀ x ∈ xs, ¬ le x x = true := by
  induction xs generalizing start with
  | nil => exact .inr (List.forall_mem_nil _)
  | cons x xs ih =>
      rw [List.foldl_cons, List.foldl_cons, larger_of_not_le_self hstart]
      by_cases hx : le x x = true
      · rw [h.larger_eq hx]
        exact .inl rfl
      · rw [h.larger_eq_self hx, List.forall_mem_cons]
        exact (ih hx).imp_right fun hxs => ⟨hx, hxs⟩

namespace Tensor

variable (t : Tensor α)

omit [Arithmetic α] h in
theorem exists_toList_eq : ∃ xs, t.content.toList = t.first :: xs := by
  cases hcontent : t.content.toList with
  | nil =>
      have hpos := t.content_pos
      rw [← Array.length_toList, hcontent] at hpos
      cases hpos
  | cons x xs =>
      refine ⟨xs, congrArg (· :: xs) ?_⟩
      have hfirst : t.content.toList[0]? = some t.first := by
        rw [Array.getElem?_toList]
        exact Array.getElem?_eq_getElem _
      rw [hcontent] at hfirst
      exact Option.some.inj hfirst

/-- The largest element, sought from `start` on. -/
def peakFrom (start : α) : α := t.content.foldl larger start

/-- Softmax with exponents that are shifted by the largest element from `start` on. -/
def softmaxFrom (start : α) : Tensor α := (t.map fun x => exp (x - t.peakFrom start)).normalize

theorem peakFrom_eq_or : t.peakFrom bottom = t.peak ∨ ∀ x ∈ t.content, ¬ le x x = true := by
  obtain ⟨xs, hxs⟩ := t.exists_toList_eq
  simp only [peakFrom, peak, ← Array.foldl_toList, ← Array.mem_toList_iff, hxs, List.foldl_cons,
    larger_self, List.forall_mem_cons]
  by_cases hfirst : le t.first t.first = true
  · rw [h.larger_eq hfirst]
    exact .inl rfl
  · rw [h.larger_eq_self hfirst]
    exact (h.foldl_eq_or hfirst xs).imp Eq.symm fun hxs => ⟨hfirst, hxs⟩

theorem softmaxFrom_eq : t.softmaxFrom bottom = t.softmax := by
  rw [softmaxFrom, softmax]
  obtain hpeak | hnone := t.peakFrom_eq_or h
  · rw [hpeak]
  · have hcontent : (t.map fun x => exp (x - t.peakFrom bottom)) =
        t.map fun x => exp (x - t.peak) :=
      Tensor.ext rfl (Array.map_congr_left fun x hx =>
        congrArg exp (h.sub_eq x _ _ (hnone x hx)))
    rw [hcontent]

/-- The three passes in place make the same of the tensor. -/
theorem run_softmax_eq_softmaxFrom :
    Block.softmax.run t.block = .ok () (t.softmaxFrom bottom).block := by
  rw [t.softmaxFrom_eq h]
  exact Block.run_softmax t

end Tensor

end Search

/-! ## Both widths -/

open Float.Model Float.Model.UnpackedFloat

theorem unpacked_le_self_iff (u : UnpackedFloat) : u.le u = true ↔ u ≠ .notANumber := by
  cases u with
  | notANumber => exact iff_of_false Bool.false_ne_true (not_not_intro rfl)
  | infinity s => cases s <;> exact iff_of_true rfl (by rintro ⟨⟩)
  | zero s => exact iff_of_true rfl (by rintro ⟨⟩)
  | finite s m e hm =>
      have hsame : (compare e e).then (compare m m) = .eq := by simp
      refine iff_of_true ?_ (by rintro ⟨⟩)
      cases s with
      | negative =>
          change ((compare e e).then (compare m m)).swap.isLE = true
          rw [hsame]
          rfl
      | positive =>
          change ((compare e e).then (compare m m)).isLE = true
          rw [hsame]
          rfl

theorem unpacked_negInfinity_le_iff (u : UnpackedFloat) :
    UnpackedFloat.le (.infinity .negative) u = true ↔ u ≠ .notANumber := by
  cases u with
  | notANumber => exact iff_of_false Bool.false_ne_true (not_not_intro rfl)
  | infinity s => cases s <;> exact iff_of_true rfl (by rintro ⟨⟩)
  | zero | finite => exact iff_of_true rfl (by rintro ⟨⟩)

/-- Floats that are compared as they are taken apart, and whose differences from no number are all
the same, start below at the negative infinity. -/
theorem StartsBelow.of_unpacked {α : Type} [Arithmetic α] {bottom : α} (nan : α)
    (unpacked : α → UnpackedFloat)
    (hle : ∀ x y : α, le x y = true ↔ (unpacked x).le (unpacked y) = true)
    (hbottom : unpacked bottom = .infinity .negative)
    (hsub : ∀ x y : α, unpacked x = .notANumber → x - y = nan) : StartsBelow bottom where
  le_self := by
    rw [hle, hbottom]
    rfl
  le_iff x := by rw [hle, hle, hbottom, unpacked_negInfinity_le_iff, unpacked_le_self_iff]
  sub_eq x y z hx := by
    rw [hle, unpacked_le_self_iff, not_not] at hx
    rw [hsub x y hx, hsub x z hx]

theorem startsBelow_double : StartsBelow (-Arithmetic.infinity : Float) := by
  refine .of_unpacked (.ofModel (.pack .notANumber)) (fun x => x.toModel.unpack)
    (fun x y => ?_) rfl fun x y hx => ?_
  · have hle : x ≤ y ↔ x.toModel.unpack.le y.toModel.unpack = true := decide_eq_true_iff
    exact decide_eq_true_iff.trans hle
  · change Float.ofModel (.pack (UnpackedFloat.sub .binary64 x.toModel.unpack _)) = _
    rw [hx]
    rfl

theorem startsBelow_single : StartsBelow (-Arithmetic.infinity : Float32) := by
  refine .of_unpacked (.ofModel (.pack .notANumber)) (fun x => x.toModel.unpack)
    (fun x y => ?_) rfl fun x y hx => ?_
  · have hle : x ≤ y ↔ x.toModel.unpack.le y.toModel.unpack = true := decide_eq_true_iff
    exact decide_eq_true_iff.trans hle
  · change Float32.ofModel (.pack (UnpackedFloat.sub .binary32 x.toModel.unpack _)) = _
    rw [hx]
    rfl

/-- In both widths softmax is what it is with exponents shifted by the largest element from the
negative infinity on, in place as well. -/
theorem softmax_from_negative_infinity :
    (∀ t : Tensor Float, t.softmaxFrom (-Arithmetic.infinity) = t.softmax ∧
      Block.softmax.run t.block = .ok () (t.softmaxFrom (-Arithmetic.infinity)).block) ∧
    ∀ t : Tensor Float32, t.softmaxFrom (-Arithmetic.infinity) = t.softmax ∧
      Block.softmax.run t.block = .ok () (t.softmaxFrom (-Arithmetic.infinity)).block :=
  ⟨fun t => ⟨t.softmaxFrom_eq startsBelow_double, t.run_softmax_eq_softmaxFrom startsBelow_double⟩,
    fun t => ⟨t.softmaxFrom_eq startsBelow_single, t.run_softmax_eq_softmaxFrom startsBelow_single⟩⟩

end TensorFormula
