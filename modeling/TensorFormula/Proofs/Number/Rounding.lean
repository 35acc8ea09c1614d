import Mathlib.Algebra.Order.Field.Power
import Mathlib.Data.Rat.Cast.Order
import Mathlib.Tactic.FieldSimp
import Mathlib.Tactic.Positivity
import TensorFormula.Number.Decimal

/-!
# Exact values are rounded to themselves

The pattern nearest to a value that the format can represent is the pattern of that value. The
shortest decimal of a finite number therefore reads back to it: a candidate is accepted only if it
does, and where there is none, the exact expansion is taken.
-/

namespace TensorFormula

namespace Binary

theorem roundEven_mul {den : Nat} (m : Nat) (h : 0 < den) : roundEven (m * den) den = m := by
  simp [roundEven, Nat.mul_div_cancel m h, h]

theorem zpow_two_le_div_iff {num den : Nat} (h : 0 < den) (e : Int) :
    (2 : ℚ) ^ e ≤ num / den ↔ den * Nat.pow 2 e.toNat ≤ num * Nat.pow 2 (-e).toNat := by
  have hd : (0 : ℚ) < den := by exact_mod_cast h
  rw [le_div_iff₀ hd]
  obtain ⟨n, rfl | rfl⟩ := e.eq_nat_or_neg
  · have hn : (-(n : Int)).toNat = 0 := by omega
    simp only [Nat.pow_eq, hn, Int.toNat_natCast, pow_zero, Nat.mul_one, zpow_natCast]
    rw [mul_comm]
    exact_mod_cast Iff.rfl
  · have hn : (-(n : Int)).toNat = 0 := by omega
    simp only [Nat.pow_eq, hn, neg_neg, Int.toNat_natCast, pow_zero, Nat.mul_one, zpow_neg,
      zpow_natCast]
    rw [inv_mul_le_iff₀ (by positivity), mul_comm]
    exact_mod_cast Iff.rfl

theorem exponent_lt {r : ℚ} {e e' : Int} (h : (2 : ℚ) ^ e ≤ r) (h' : r < (2 : ℚ) ^ e') : e < e' :=
  (zpow_lt_zpow_iff_right₀ (by norm_num)).1 (h.trans_lt h')

/-- The quotient of two numbers of known bit lengths lies between two powers of two. -/
theorem div_bounds {num den : Nat} (hn : 0 < num) (hd : 0 < den) :
    (2 : ℚ) ^ ((num.log2 : Int) - den.log2 - 1) ≤ num / den ∧
      (num / den : ℚ) < 2 ^ ((num.log2 : Int) - den.log2 + 1) := by
  have hnl : (2 : ℚ) ^ num.log2 ≤ num := by exact_mod_cast Nat.log2_self_le hn.ne'
  have hnu : (num : ℚ) < 2 ^ (num.log2 + 1) := by exact_mod_cast Nat.lt_log2_self
  have hdl : (2 : ℚ) ^ den.log2 ≤ den := by exact_mod_cast Nat.log2_self_le hd.ne'
  have hdu : (den : ℚ) < 2 ^ (den.log2 + 1) := by exact_mod_cast Nat.lt_log2_self
  have hd' : (0 : ℚ) < den := by exact_mod_cast hd
  constructor
  · calc (2 : ℚ) ^ ((num.log2 : Int) - den.log2 - 1)
        = 2 ^ num.log2 / 2 ^ (den.log2 + 1) := by
          rw [sub_sub, zpow_sub₀ (by norm_num), zpow_natCast]
          exact_mod_cast rfl
      _ ≤ num / den := div_le_div₀ (by positivity) hnl hd' hdu.le
  · calc (num / den : ℚ) < 2 ^ (num.log2 + 1) / 2 ^ den.log2 :=
          div_lt_div₀ hnu hdl (by positivity) (by positivity)
      _ = 2 ^ ((num.log2 : Int) - den.log2 + 1) := by
          rw [sub_add_eq_add_sub, zpow_sub₀ (by norm_num), zpow_natCast]
          exact_mod_cast rfl

theorem floorLog2_eq {num den : Nat} {e : Int} (hn : 0 < num) (hd : 0 < den)
    (hlow : (2 : ℚ) ^ e ≤ num / den) (hup : (num / den : ℚ) < 2 ^ (e + 1)) :
    floorLog2 num den = e := by
  obtain ⟨hl, hu⟩ := div_bounds hn hd
  have h₁ := exponent_lt hlow hu
  have h₂ := exponent_lt hl hup
  unfold floorLog2
  simp only [← zpow_two_le_div_iff hd]
  split
  · next h =>
      have h₃ := exponent_lt h hup
      omega
  · next h =>
      have h₃ := exponent_lt hlow (not_le.1 h)
      omega

theorem div_eq_of_mul_eq {m num den : Nat} {q : Int} (hd : 0 < den)
    (h : num * Nat.pow 2 (-q).toNat = m * (den * Nat.pow 2 q.toNat)) :
    (num / den : ℚ) = m * 2 ^ q := by
  have hd' : (den : ℚ) ≠ 0 := by exact_mod_cast hd.ne'
  rw [div_eq_iff hd']
  obtain ⟨n, rfl | rfl⟩ := q.eq_nat_or_neg
  · have hn : (-(n : Int)).toNat = 0 := by omega
    simp only [Nat.pow_eq, hn, Int.toNat_natCast, pow_zero, Nat.mul_one] at h
    rw [zpow_natCast, mul_right_comm, mul_assoc]
    exact_mod_cast h
  · have hn : (-(n : Int)).toNat = 0 := by omega
    simp only [Nat.pow_eq, hn, neg_neg, Int.toNat_natCast, pow_zero, Nat.mul_one] at h
    rw [zpow_neg, zpow_natCast, mul_right_comm, eq_mul_inv_iff_mul_eq₀ (by positivity)]
    exact_mod_cast h

theorem floorLog2_of_eq {m num den : Nat} {q : Int} (hm : 0 < m) (hd : 0 < den)
    (h : num * Nat.pow 2 (-q).toNat = m * (den * Nat.pow 2 q.toNat)) :
    floorLog2 num den = m.log2 + q := by
  have hr := div_eq_of_mul_eq hd h
  have hl : (2 : ℚ) ^ m.log2 ≤ m := by exact_mod_cast Nat.log2_self_le hm.ne'
  have hu : (m : ℚ) < 2 ^ (m.log2 + 1) := by exact_mod_cast Nat.lt_log2_self
  have hn : 0 < num := by
    have hp : (0 : ℚ) < num / den := by
      rw [hr]
      positivity
    exact_mod_cast (div_pos_iff_of_pos_right (by exact_mod_cast hd)).1 hp
  apply floorLog2_eq hn hd
  · rw [hr, zpow_add₀ (by norm_num), zpow_natCast]
    gcongr
  · rw [hr, add_right_comm, zpow_add₀ (by norm_num)]
    gcongr
    exact_mod_cast hu

namespace Format

variable (f : Format)

theorem magnitude_eq (p : Nat) : f.magnitude p =
    if p / Nat.pow 2 f.fractionBits = 0 then (p % Nat.pow 2 f.fractionBits, f.minExponent)
    else (p % Nat.pow 2 f.fractionBits + Nat.pow 2 f.fractionBits,
      f.minExponent + (p / Nat.pow 2 f.fractionBits - 1 : Nat)) := rfl

/-- The magnitude of a pattern in two parts. -/
theorem magnitude_parts {e m : Nat} (hm : m < Nat.pow 2 f.fractionBits) :
    f.magnitude (e * Nat.pow 2 f.fractionBits + m) =
      if e = 0 then (m, f.minExponent)
      else (m + Nat.pow 2 f.fractionBits, f.minExponent + (e - 1 : Nat)) := by
  have hdiv : (e * Nat.pow 2 f.fractionBits + m) / Nat.pow 2 f.fractionBits = e := by
    rw [Nat.mul_comm, Nat.mul_add_div (Nat.zero_lt_of_lt hm), Nat.div_eq_of_lt hm, Nat.add_zero]
  rw [magnitude_eq, hdiv, Nat.mul_add_mod', Nat.mod_eq_of_lt hm]

/-- A significand of the format with the exponent that belongs to it: small numbers share the least
exponent, all others have a significand of full length. -/
theorem magnitude_bounds (p : Nat) :
    (f.magnitude p).1 < Nat.pow 2 (f.fractionBits + 1) ∧ f.minExponent ≤ (f.magnitude p).2 ∧
      (Nat.pow 2 f.fractionBits ≤ (f.magnitude p).1 ∨ (f.magnitude p).2 = f.minExponent) := by
  have hm : p % Nat.pow 2 f.fractionBits < Nat.pow 2 f.fractionBits :=
    Nat.mod_lt _ (Nat.pow_pos (by decide))
  have hs : Nat.pow 2 (f.fractionBits + 1) = 2 * Nat.pow 2 f.fractionBits := by
    simp only [Nat.pow_eq, pow_succ, mul_comm]
  rw [magnitude_eq, hs]
  split
  · exact ⟨by dsimp only; omega, le_rfl, .inr rfl⟩
  · exact ⟨by dsimp only; omega, by dsimp only; omega, .inl (Nat.le_add_left _ _)⟩

theorem magnitude_pattern (p : Nat) :
    ((f.magnitude p).2 - f.minExponent).toNat * Nat.pow 2 f.fractionBits +
      (f.magnitude p).1 = p := by
  have hp := Nat.div_add_mod' p (Nat.pow 2 f.fractionBits)
  rw [magnitude_eq]
  split
  · next he =>
      rw [he, Nat.zero_mul] at hp
      simpa using hp
  · next he =>
      have hq : p / Nat.pow 2 f.fractionBits = p / Nat.pow 2 f.fractionBits - 1 + 1 :=
        (Nat.succ_pred_eq_of_ne_zero he).symm
      rw [hq, Nat.succ_mul] at hp
      simp only [add_sub_cancel_left, Int.toNat_natCast]
      omega

theorem magnitude_pos {p : Nat} (h : 0 < p) : 0 < (f.magnitude p).1 := by
  have hp := f.magnitude_pattern p
  obtain ⟨-, -, hm | hq⟩ := f.magnitude_bounds p
  · exact (Nat.pow_pos (by decide)).trans_le hm
  · rw [hq] at hp
    simp only [sub_self, Int.toNat_zero, Nat.zero_mul, Nat.zero_add] at hp
    omega

theorem nearest_le_infinity (num den : Nat) : f.nearest num den ≤ f.infinity := by
  unfold nearest
  split
  · exact Nat.zero_le _
  · exact Nat.min_le_left _ _

/-- A ratio that equals a number of the format is rounded to that number. -/
theorem nearest_eq {p num den : Nat} (hp : 0 < p) (hi : p < f.infinity) (hd : 0 < den)
    (h : num * Nat.pow 2 (-(f.magnitude p).2).toNat =
      (f.magnitude p).1 * (den * Nat.pow 2 (f.magnitude p).2.toNat)) :
    f.nearest num den = p := by
  have hpat := f.magnitude_pattern p
  have hpos := f.magnitude_pos hp
  obtain ⟨hup, hmin, hlow⟩ := f.magnitude_bounds p
  generalize (f.magnitude p).1 = m at *
  generalize (f.magnitude p).2 = q at *
  have hdp : 0 < den * Nat.pow 2 q.toNat := Nat.mul_pos hd (Nat.pow_pos (by decide))
  have hn : 0 < num := by
    refine Nat.pos_of_ne_zero fun h0 => ?_
    rw [h0, Nat.zero_mul] at h
    exact (Nat.mul_pos hpos hdp).ne h
  have hf : floorLog2 num den = m.log2 + q := floorLog2_of_eq hpos hd h
  have hml : m.log2 < f.fractionBits + 1 := (Nat.log2_lt hpos.ne').2 hup
  have hmf : f.fractionBits ≤ m.log2 ∨ q = f.minExponent :=
    hlow.imp_left (Nat.le_log2 hpos.ne').2
  have hq : max f.minExponent (floorLog2 num den - f.fractionBits) = q := by omega
  rw [nearest, if_neg hn.ne']
  simp only [hq, h, roundEven_mul m hdp, hpat]
  omega

end Format

end Binary

namespace Decimal

open Binary

variable {f : Format} {tie : Tie} {p : Nat}

theorem toPattern_exact (hp : 0 < p) (hi : p < f.infinity) :
    (exact (f.magnitude p).1 (f.magnitude p).2).toPattern f = p := by
  apply f.nearest_eq hp hi
  · exact Nat.pow_pos (by decide)
  · generalize (f.magnitude p).2 = q
    simp only [exact, numerator, denominator, Nat.pow_eq]
    obtain ⟨n, rfl | rfl⟩ := q.eq_nat_or_neg
    · have hn : (-(n : Int)).toNat = 0 := by omega
      simp [hn]
    · have hn : (-(n : Int)).toNat = 0 := by omega
      have h10 : 10 ^ n = 5 ^ n * 2 ^ n := mul_pow 5 2 n
      simp [hn, h10, mul_assoc]

theorem toPattern_candidate {n : Nat} {d : Decimal} (h : candidate f tie p n = some d) :
    d.toPattern f = p := by
  unfold candidate at h
  dsimp only at h
  split at h
  · next hb ha =>
      split at h <;> obtain rfl := Option.some.inj h
      · exact beq_iff_eq.1 hb
      · exact beq_iff_eq.1 ha
  · next hb _ =>
      obtain rfl := Option.some.inj h
      exact beq_iff_eq.1 hb
  · next _ ha =>
      obtain rfl := Option.some.inj h
      exact beq_iff_eq.1 ha
  · cases h

/-- The shortest decimal of a finite number reads back to it. -/
theorem toPattern_shortest (tie : Tie) (hi : p < f.infinity) :
    (shortest f tie p).toPattern f = p := by
  unfold shortest
  split
  · next hp =>
      simp [toPattern, numerator, Format.nearest, hp]
  · next hp =>
      cases hc : (List.range 17).findSome? fun i => candidate f tie p (i + 1) with
      | none => exact toPattern_exact (Nat.pos_of_ne_zero hp) hi
      | some d =>
          obtain ⟨i, -, hd⟩ := List.exists_of_findSome?_eq_some hc
          exact toPattern_candidate hd

end Decimal

end TensorFormula
