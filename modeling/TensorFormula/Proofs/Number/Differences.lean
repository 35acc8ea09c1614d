import TensorFormula.Proofs.Number.Unpacking

/-!
# Differences of floats

Two elements count as equal if their difference is small. The difference of an element from itself
is zero for a finite number and no number for all else, and the difference of two elements has the
same size in both directions.
-/

namespace TensorFormula

open Float.Model Float.Model.UnpackedFloat

variable {spec : Float.Model.Format} {u v : UnpackedFloat}

/-! ## Floats taken apart -/

theorem unpacked_sub_self (spec : Float.Model.Format) (u : UnpackedFloat) :
    UnpackedFloat.sub spec u u = if u.isFinite then .zero .positive else .notANumber := by
  cases u with
  | notANumber => rfl
  | infinity s => cases s <;> rfl
  | zero s => cases s <;> rfl
  | finite s m e hm =>
      change UnpackedFloat.normalize spec (s.apply _ - s.apply _) _ .positive = .zero .positive
      rw [sub_self]
      rfl

theorem unpacked_add_zero (spec : Float.Model.Format) (h : u ≠ .zero .negative) :
    UnpackedFloat.add spec u (.zero .positive) = u := by
  cases u with
  | zero s =>
      cases s with
      | positive => rfl
      | negative => exact absurd rfl h
  | _ => rfl

theorem abs_round (spec : Float.Model.Format) (s : Sign) (m : Nat) (e : Int) :
    (UnpackedFloat.round spec s m e).abs = UnpackedFloat.round spec .positive m e := by
  unfold UnpackedFloat.round roundWithAccuracy
  dsimp only
  split <;> rfl

/-- Rounding a number and its negative gives results of the same size. -/
theorem abs_normalize_neg (spec : Float.Model.Format) (k e : Int) (s : Sign) :
    (UnpackedFloat.normalize spec (-k) e s).abs = (UnpackedFloat.normalize spec k e s).abs := by
  unfold UnpackedFloat.normalize
  obtain hk | rfl | hk := lt_trichotomy k 0
  · have hneg : compare k 0 = .lt := compare_lt_iff_lt.2 hk
    have hpos : compare (-k) 0 = .gt := compare_gt_iff_gt.2 (neg_pos.2 hk)
    simp only [hneg, hpos, abs_round]
  · rfl
  · have hpos : compare k 0 = .gt := compare_gt_iff_gt.2 hk
    have hneg : compare (-k) 0 = .lt := compare_lt_iff_lt.2 (neg_lt_zero.2 hk)
    simp only [hneg, hpos, abs_round, neg_neg]

theorem unpacked_abs_sub_comm (spec : Float.Model.Format) (u v : UnpackedFloat) :
    (UnpackedFloat.sub spec u v).abs = (UnpackedFloat.sub spec v u).abs := by
  cases u with
  | notANumber => cases v <;> rfl
  | infinity s => cases v with
    | infinity s' => cases s <;> cases s' <;> rfl
    | _ => rfl
  | zero s => cases v with
    | zero s' => cases s <;> cases s' <;> rfl
    | _ => rfl
  | finite s m e hm => cases v with
    | finite s' m' e' hm' =>
        simp only [UnpackedFloat.sub]
        rw [min_comm e' e, ← neg_sub]
        exact abs_normalize_neg ..
    | _ => rfl

/-! ## Sizes of bit patterns -/

theorem unpackSign_packComponents (s : Sign) (e : BitVec spec.exponentBits)
    (m : BitVec spec.mantissaBitsWithoutImplicit) :
    Sign.ofBitVec (unpackSign (packComponents spec s e m)) = s := by
  have hs : unpackSign (packComponents spec s e m) = s.toBitVec := by
    apply BitVec.eq_of_getLsbD_eq
    intro i hi
    obtain rfl : i = 0 := Nat.lt_one_iff.1 hi
    simp [unpackSign, packComponents, BitVec.getLsbD_append, BitVec.getElem_append]
  rw [hs]
  cases s <;> rfl

/-- The sign bit decides the sign and nothing else. -/
theorem abs_unpack_packComponents (s : Sign) (e : BitVec spec.exponentBits)
    (m : BitVec spec.mantissaBitsWithoutImplicit) :
    (UnpackedFloat.unpack spec (packComponents spec s e m)).abs =
      UnpackedFloat.unpack spec (packComponents spec .positive e m) := by
  simp only [UnpackedFloat.unpack, unpackSign_packComponents, unpackExponent_packComponents,
    unpackMantissa_packComponents]
  split
  · split <;> rfl
  · split
    · split <;> rfl
    · rfl

theorem abs_unpack_pack (spec : Float.Model.Format) (u : UnpackedFloat) :
    (UnpackedFloat.unpack spec (UnpackedFloat.pack spec u)).abs =
      UnpackedFloat.unpack spec (UnpackedFloat.pack spec u.abs) := by
  cases u with
  | finite s m e hm =>
      change _ = UnpackedFloat.unpack spec (UnpackedFloat.pack spec (.finite .positive m e hm))
      simp only [UnpackedFloat.pack]
      split
      · exact abs_unpack_packComponents ..
      · split <;> exact abs_unpack_packComponents ..
  | _ => exact abs_unpack_packComponents ..

/-! ## Close elements -/

namespace Element

variable {α : Type} [Element α]

/-- Whether a difference is within the tolerance of the width. -/
def Close (x y : α) : Prop := Arithmetic.le (Arithmetic.abs (x - y)) tolerance = true

instance (x y : α) : Decidable (Close x y) := inferInstanceAs (Decidable (_ = true))

/-- What is known of close elements in both widths. -/
structure Differences (α : Type) [Element α] : Prop where
  close_self_iff : ∀ x : α, Close x x ↔ IsFinite x
  close_add_zero_iff : ∀ x : α, Close (x + 0) x ↔ IsFinite x
  close_comm : ∀ x y : α, Close x y ↔ Close y x

/-- Adding zero changes the negative zero only, so that it need not be looked at in general. -/
theorem Differences.of_laws (hself : ∀ x : α, x - x = if IsFinite x then 0 else 0 / 0)
    (hzero : Arithmetic.le (Arithmetic.abs (0 : α)) tolerance = true)
    (hnan : Arithmetic.le (Arithmetic.abs (0 / 0 : α)) tolerance = false)
    (hadd : ∀ x : α, x ≠ -0 → x + 0 = x)
    (hnegative : Close (-0 + 0 : α) (-0) ↔ IsFinite (-0 : α))
    (hcomm : ∀ x y : α, Arithmetic.abs (x - y) = Arithmetic.abs (y - x)) : Differences α := by
  have hclose (x : α) : Close x x ↔ IsFinite x := by
    rw [Close, hself]
    split
    · next h => exact iff_of_true hzero h
    · next h => exact iff_of_false (Bool.eq_false_iff.1 hnan) h
  refine ⟨hclose, fun x => ?_, fun x y => by rw [Close, Close, hcomm]⟩
  obtain hx | rfl := ne_or_eq x (-0)
  · rw [hadd x hx]
    exact hclose x
  · exact hnegative

end Element

/-! ## Both widths -/

open Element

theorem double_sub_self (x : Float) : x - x = if IsFinite x then 0 else 0 / 0 := by
  have hself := congrArg (fun u => Float.ofModel (.pack u))
    (unpacked_sub_self .binary64 x.toModel.unpack)
  refine Eq.trans hself ?_
  simp only [← double_isFinite_iff]
  change Float.ofModel (.pack (if x.isFinite then _ else _)) = _
  split <;> decide +kernel

theorem double_add_zero {x : Float} (h : x ≠ -0) : x + 0 = x := by
  have hadd := congrArg (fun u => Float.ofModel (.pack u))
    (unpacked_add_zero .binary64 (double_unpack_ne h))
  rw [← double_unpack_zero] at hadd
  exact hadd.trans (double_pack_unpack x)

theorem double_abs_sub_comm (x y : Float) : (x - y).abs = (y - x).abs := by
  have hsize (x y : Float) : (x - y).abs = .ofModel (.pack (UnpackedFloat.unpack .binary64
      (UnpackedFloat.pack .binary64
        (UnpackedFloat.sub .binary64 x.toModel.unpack y.toModel.unpack).abs))) :=
    congrArg (fun u => Float.ofModel (.pack u)) (abs_unpack_pack .binary64 _)
  rw [hsize x y, hsize y x, unpacked_abs_sub_comm]

theorem differences_double : Differences Float :=
  .of_laws double_sub_self (by decide +kernel) (by decide +kernel) (fun _ => double_add_zero)
    (by decide +kernel) double_abs_sub_comm

theorem single_sub_self (x : Float32) : x - x = if IsFinite x then 0 else 0 / 0 := by
  have hself := congrArg (fun u => Float32.ofModel (.pack u))
    (unpacked_sub_self .binary32 x.toModel.unpack)
  refine Eq.trans hself ?_
  simp only [← single_isFinite_iff]
  change Float32.ofModel (.pack (if x.isFinite then _ else _)) = _
  split <;> decide +kernel

theorem single_add_zero {x : Float32} (h : x ≠ -0) : x + 0 = x := by
  have hadd := congrArg (fun u => Float32.ofModel (.pack u))
    (unpacked_add_zero .binary32 (single_unpack_ne h))
  rw [← single_unpack_zero] at hadd
  exact hadd.trans (single_pack_unpack x)

theorem single_abs_sub_comm (x y : Float32) : (x - y).abs = (y - x).abs := by
  have hsize (x y : Float32) : (x - y).abs = .ofModel (.pack (UnpackedFloat.unpack .binary32
      (UnpackedFloat.pack .binary32
        (UnpackedFloat.sub .binary32 x.toModel.unpack y.toModel.unpack).abs))) :=
    congrArg (fun u => Float32.ofModel (.pack u)) (abs_unpack_pack .binary32 _)
  rw [hsize x y, hsize y x, unpacked_abs_sub_comm]

theorem differences_single : Differences Float32 :=
  .of_laws single_sub_self (by decide +kernel) (by decide +kernel) (fun _ => single_add_zero)
    (by decide +kernel) single_abs_sub_comm

end TensorFormula
