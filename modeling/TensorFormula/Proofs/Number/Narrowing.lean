import TensorFormula.Proofs.Number.Nearest
import TensorFormula.Proofs.Number.Unpacking

/-!
# Doubles in the narrow width

A finite double is narrowed to the nearest number of the narrow width. At both ends of the range the
nearest is no longer a number other than zero: what lies below the middle between zero and the least
number becomes zero, and what lies beyond the middle between the greatest number and the power of
two after it becomes infinite. A middle itself goes to the even pattern, which is that of zero and
that of infinity.
-/

namespace TensorFormula

namespace Binary

/-- The distance from zero of a finite number. -/
def Value.size : Value → ℚ
  | .finite _ m e => m * 2 ^ e
  | _ => 0

namespace Format

variable {f : Format} {r : ℚ} {p : Nat}

/-- Rounding gives zero up to the middle between zero and the least number. -/
theorem Rounds.eq_zero_iff (h : f.Rounds r p) (hr : 0 ≤ r) (hi : 0 < f.infinity) :
    p = 0 ↔ 2 * r ≤ f.value 1 := by
  have hzero : f.value 0 = 0 := f.value_zero
  have hpos : 0 < f.value 1 := hzero ▸ f.strictMono_value Nat.zero_lt_one
  constructor
  · rintro rfl
    have hclosest := h.closest 1 hi
    rw [hzero, sub_zero, abs_of_nonneg hr] at hclosest
    by_contra! hlt
    have hnear : |r - f.value 1| < r := abs_lt.2 ⟨by linarith, by linarith⟩
    exact absurd hclosest (not_le.2 hnear)
  · intro hle
    by_contra hp
    have hstep : f.value 1 ≤ f.value p := f.strictMono_value.monotone (Nat.pos_of_ne_zero hp)
    have hdist : |r - f.value 0| = r := by rw [hzero, sub_zero, abs_of_nonneg hr]
    have hdist' : |r - f.value p| = f.value p - r := by
      rw [abs_sub_comm, abs_of_nonneg (by linarith)]
    have hclosest := h.closest 0 (Nat.zero_le _)
    rw [hdist, hdist'] at hclosest
    -- Only the least number is as near as zero is, and its pattern is odd.
    have hp1 : p = 1 := f.strictMono_value.injective (by linarith)
    have heven := h.even_of_tie 0 (Nat.zero_le _) (Ne.symm hp) (by linarith)
    omega

/-- Rounding gives infinity from the middle between the greatest number and the power of two after
it on. -/
theorem Rounds.eq_infinity_iff (h : f.Rounds r p) (hi : 0 < f.infinity)
    (heven : f.infinity % 2 = 0) :
    p = f.infinity ↔ f.value (f.infinity - 1) + f.value f.infinity ≤ 2 * r := by
  have hstep : f.value (f.infinity - 1) < f.value f.infinity := f.strictMono_value (by omega)
  constructor
  · rintro rfl
    have hclosest := h.closest (f.infinity - 1) (Nat.sub_le _ _)
    by_contra! hlt
    have hnear : |r - f.value (f.infinity - 1)| < f.value f.infinity - r :=
      abs_lt.2 ⟨by linarith, by linarith⟩
    rw [abs_sub_comm r, abs_of_nonneg (by linarith)] at hclosest
    exact absurd hclosest (not_le.2 hnear)
  · intro hle
    by_contra hp
    have hlast : f.value p ≤ f.value (f.infinity - 1) := by
      have hple := h.le_infinity
      exact f.strictMono_value.monotone (by omega)
    have hdist : |r - f.value f.infinity| ≤ r - f.value (f.infinity - 1) :=
      abs_le.2 ⟨by linarith, by linarith⟩
    have hdist' : |r - f.value p| = r - f.value p := abs_of_nonneg (by linarith)
    have hclosest := h.closest f.infinity le_rfl
    rw [hdist'] at hclosest
    -- Only the greatest number is as near as infinity is, and its pattern is odd.
    have hp' : p = f.infinity - 1 := f.strictMono_value.injective (by linarith)
    have hodd := h.even_of_tie f.infinity le_rfl (Ne.symm hp) (by linarith)
    omega

theorem withSign_lt (f : Format) (negative : Bool) (hp : p ≤ f.infinity) :
    f.withSign negative p < f.signBit + f.signBit := by
  have hlt : p < f.signBit := hp.trans_lt f.infinity_lt_signBit
  cases negative with
  | false => exact hlt.trans_le (Nat.le_add_left _ _)
  | true => exact Nat.add_lt_add_left hlt _

end Format

end Binary

open Binary Format

theorem single_value_one : Format.single.value 1 = 2 ^ (-149 : Int) := by
  rw [value_of_lt _ (by decide), Nat.cast_one, one_mul]
  rfl

/-- The greatest single number, and the power of two after it. -/
theorem single_value_last :
    Format.single.value (Format.single.infinity - 1) = 2 ^ 128 - 2 ^ 104 ∧
      Format.single.value Format.single.infinity = 2 ^ 128 := by
  have hlast : Format.single.magnitude (Format.single.infinity - 1) = (2 ^ 24 - 1, 104) := by decide
  have hinfinity : Format.single.magnitude Format.single.infinity = (2 ^ 23, 105) := by decide
  rw [value, value, hlast, hinfinity]
  norm_num

/-- Narrowing a finite double rounds its distance from zero and keeps its sign. -/
theorem decode_bits_ofDouble {x : Float} {negative : Bool} {m : Nat} {e : Int}
    (h : Format.double.decode (Element.bits x) = .finite negative m e) :
    ∃ p, Format.single.Rounds (m * 2 ^ e) p ∧
      Format.single.decode (Element.bits (Element.ofDouble x : Float32)) =
        if p = Format.single.infinity then .infinite negative
        else .finite negative (Format.single.magnitude p).1 (Format.single.magnitude p).2 := by
  have hden : 0 < Nat.pow 2 (-e).toNat := Nat.pow_pos (by decide)
  have hrounds : Format.single.Rounds _ (Format.single.nearest (m * Nat.pow 2 e.toNat) _) :=
    Format.rounds_nearest (by decide) hden
  have hratio : ((m * Nat.pow 2 e.toNat : Nat) / (Nat.pow 2 (-e).toNat : Nat) : ℚ) = m * 2 ^ e := by
    simpa using scaled_div m Nat.one_pos (-e)
  refine ⟨_, hratio ▸ hrounds, ?_⟩
  rw [← Format.single.decode_withSign negative hrounds.le_infinity]
  have hnarrow : (Element.ofDouble x : Float32) =
      singleOfBits (Format.single.ofValue (Format.double.decode (Element.bits x))) := rfl
  rw [hnarrow, h, Format.ofValue, decode_bits_singleOfBits]
  exact (Format.single.withSign_lt negative hrounds.le_infinity).trans_eq (by decide)

variable {x : Float}

/-- A finite double is narrowed to infinity from the middle between the greatest single number and
the power of two after it on. -/
theorem single_isFinite_ofDouble_iff (h : Element.IsFinite x) :
    (Element.ofDouble x : Float32).isFinite = true ↔
      (Format.double.decode (Element.bits x)).size < 2 ^ 128 - 2 ^ 103 := by
  obtain ⟨negative, m, e, hx⟩ := h
  change Format.double.decode (Element.bits x) = _ at hx
  obtain ⟨p, hrounds, hp⟩ := decode_bits_ofDouble hx
  have hinfinity := hrounds.eq_infinity_iff (by decide) (by decide)
  obtain ⟨hlast, hnext⟩ := single_value_last
  rw [hlast, hnext] at hinfinity
  have hfinite : Element.IsFinite (Element.ofDouble x : Float32) ↔ p ≠ Format.single.infinity := by
    change (∃ _ _ _, Format.single.decode _ = _) ↔ _
    rw [hp]
    split
    · next heq => exact iff_of_false nofun (not_not_intro heq)
    · next hne => exact iff_of_true ⟨_, _, _, rfl⟩ hne
  rw [single_isFinite_iff, hfinite, Ne, hinfinity, hx, Value.size, not_le]
  constructor <;> intro h <;> linarith

/-- A finite double is narrowed to zero up to the middle between zero and the least single
number. -/
theorem single_beq_zero_ofDouble_iff (h : Element.IsFinite x) :
    ((Element.ofDouble x : Float32) == 0) = true ↔
      (Format.double.decode (Element.bits x)).size ≤ 2 ^ (-150 : Int) := by
  obtain ⟨negative, m, e, hx⟩ := h
  change Format.double.decode (Element.bits x) = _ at hx
  obtain ⟨p, hrounds, hp⟩ := decode_bits_ofDouble hx
  have hzero := hrounds.eq_zero_iff (by positivity) (by decide)
  rw [single_value_one] at hzero
  have hdecode : (∃ negative e, Format.single.decode
      (Element.bits (Element.ofDouble x : Float32)) = .finite negative 0 e) ↔ p = 0 := by
    rw [hp]
    constructor
    · rintro ⟨_, _, heq⟩
      split at heq
      · cases heq
      · by_contra hne
        exact (Format.single.magnitude_pos (Nat.pos_of_ne_zero hne)).ne'
          (Value.finite.inj heq).2.1
    · rintro rfl
      exact ⟨negative, Format.single.minExponent, rfl⟩
  have htwice : (2 : ℚ) ^ (-149 : Int) = 2 * 2 ^ (-150 : Int) := by norm_num
  rw [single_beq_zero_iff, hdecode, hzero, hx, Value.size, htwice]
  exact mul_le_mul_iff_of_pos_left two_pos

end TensorFormula
