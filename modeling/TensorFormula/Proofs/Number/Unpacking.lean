import TensorFormula.Proofs.Number.PlainText

/-!
# What a bit pattern stands for

The arithmetic of floats takes bit patterns apart into a sign, a significand and an exponent. It
reads the same number from a pattern as `Format.decode` does, so that what is known of decoded
patterns holds of the numbers that are compared and added.
-/

namespace TensorFormula

open Float.Model.UnpackedFloat

variable {spec : Float.Model.Format}

/-! ## Parts of a pattern -/

theorem toNat_unpackMantissa (b : BitVec spec.numBits) :
    (unpackMantissa b).toNat = b.toNat % 2 ^ spec.mantissaBitsWithoutImplicit := by
  have hm := spec.hm
  simp only [unpackMantissa, BitVec.toNat_cast, BitVec.extractLsb_toNat, Nat.shiftRight_zero]
  rw [Nat.sub_zero, Nat.sub_add_cancel hm]

theorem toNat_unpackExponent (b : BitVec spec.numBits) :
    (unpackExponent b).toNat =
      b.toNat / 2 ^ spec.mantissaBitsWithoutImplicit % 2 ^ spec.exponentBits := by
  have he := spec.he
  simp only [unpackExponent, BitVec.toNat_cast, BitVec.extractLsb_toNat,
    Nat.shiftRight_eq_div_pow]
  congr 2
  omega

theorem toNat_unpackSign (b : BitVec spec.numBits) :
    (unpackSign b).toNat =
      b.toNat / 2 ^ (spec.mantissaBitsWithoutImplicit + spec.exponentBits) := by
  have hb : b.toNat < 2 ^ (spec.mantissaBitsWithoutImplicit + spec.exponentBits) * 2 := by
    rw [← pow_succ]
    refine b.isLt.trans_eq (congrArg (2 ^ ·) ?_)
    rw [Float.Model.Format.numBits]
    omega
  simp only [unpackSign, BitVec.toNat_cast, BitVec.extractLsb_toNat,
    Nat.shiftRight_eq_div_pow]
  rw [Nat.sub_self, Nat.zero_add, pow_one, Nat.mod_eq_of_lt]
  exact Nat.div_lt_of_lt_mul hb

theorem toNat_eq_parts (b : BitVec spec.numBits) :
    b.toNat = (unpackSign b).toNat * 2 ^ (spec.mantissaBitsWithoutImplicit + spec.exponentBits) +
      ((unpackExponent b).toNat * 2 ^ spec.mantissaBitsWithoutImplicit +
        (unpackMantissa b).toNat) := by
  rw [toNat_unpackMantissa, toNat_unpackExponent, toNat_unpackSign, pow_add, ← Nat.div_div_eq_div_mul]
  generalize hq : b.toNat / 2 ^ spec.mantissaBitsWithoutImplicit = q
  have h₁ := Nat.div_add_mod' b.toNat (2 ^ spec.mantissaBitsWithoutImplicit)
  have h₂ := Nat.div_add_mod' q (2 ^ spec.exponentBits)
  rw [hq] at h₁
  calc b.toNat = q * 2 ^ spec.mantissaBitsWithoutImplicit + _ := h₁.symm
    _ = (q / 2 ^ spec.exponentBits * 2 ^ spec.exponentBits + q % 2 ^ spec.exponentBits) *
          2 ^ spec.mantissaBitsWithoutImplicit + _ := by rw [h₂]
    _ = _ := by ring

namespace Binary

/-- The widths of the parts of a pattern. -/
def Format.ofSpec (spec : Float.Model.Format) : Format :=
  ⟨spec.mantissaBitsWithoutImplicit, spec.exponentBits⟩

def isNegative : Sign → Bool
  | .negative => true
  | .positive => false

/-- The number that a float taken apart stands for. -/
def Value.ofUnpacked (f : Format) : Float.Model.UnpackedFloat → Value
  | .notANumber => .nan
  | .infinity s => .infinite (isNegative s)
  | .zero s => .finite (isNegative s) 0 f.minExponent
  | .finite s m e _ => .finite (isNegative s) m e

theorem isNegative_ofBitVec (v : BitVec 1) : isNegative (Sign.ofBitVec v) = decide (1 ≤ v.toNat) := by
  revert v
  decide

/-- Decoding by sign, exponent and significand. -/
theorem Format.decode_parts (f : Format) {s e m : Nat} (hs : s ≤ 1)
    (he : e < Nat.pow 2 f.exponentBits) (hm : m < Nat.pow 2 f.fractionBits) :
    f.decode (s * f.signBit + (e * Nat.pow 2 f.fractionBits + m)) =
      if e + 1 = Nat.pow 2 f.exponentBits then
        if m = 0 then .infinite (decide (1 ≤ s)) else .nan
      else if e = 0 then .finite (decide (1 ≤ s)) m f.minExponent
      else .finite (decide (1 ≤ s)) (m + Nat.pow 2 f.fractionBits) (f.minExponent + (e - 1 : Nat)) := by
  have hlt {k : Nat} (h : e < k) :
      e * Nat.pow 2 f.fractionBits + m < k * Nat.pow 2 f.fractionBits := by
    have hnext : (e + 1) * Nat.pow 2 f.fractionBits ≤ k * Nat.pow 2 f.fractionBits :=
      Nat.mul_le_mul_right _ h
    rw [Nat.succ_mul] at hnext
    omega
  have hsign : f.signBit = Nat.pow 2 f.exponentBits * Nat.pow 2 f.fractionBits := by
    simp only [signBit, Nat.pow_eq, pow_add, mul_comm]
  have hpattern : e * Nat.pow 2 f.fractionBits + m < f.signBit := hsign ▸ hlt he
  have hmod : (s * f.signBit + (e * Nat.pow 2 f.fractionBits + m)) % f.signBit =
      e * Nat.pow 2 f.fractionBits + m := by
    rw [Nat.mul_add_mod', Nat.mod_eq_of_lt hpattern]
  have hnegative : decide (f.signBit ≤ s * f.signBit + (e * Nat.pow 2 f.fractionBits + m)) =
      decide (1 ≤ s) := by
    obtain rfl | rfl : s = 0 ∨ s = 1 := by omega
    · simpa using hpattern
    · simp
  unfold decode
  simp only [hmod, hnegative, f.magnitude_parts hm]
  -- Only the greatest exponent reaches the pattern of infinity.
  by_cases htop : e + 1 = Nat.pow 2 f.exponentBits
  · have hi : f.infinity = e * Nat.pow 2 f.fractionBits := by
      rw [infinity, ← htop, Nat.add_sub_cancel]
    rw [if_pos htop, hi]
    by_cases h0 : m = 0
    · rw [if_pos h0, if_neg (by omega), if_pos (by omega)]
    · rw [if_neg h0, if_pos (by omega)]
  · have hfinite : e * Nat.pow 2 f.fractionBits + m < f.infinity := hlt (by omega)
    rw [if_neg htop, if_neg (Nat.not_lt.2 hfinite.le), if_neg hfinite.ne]
    split <;> rfl

theorem Format.minExponent_ofSpec (spec : Float.Model.Format) : (ofSpec spec).minExponent =
    1 - (spec.exponentBias + spec.mantissaBitsWithoutImplicit : Int) := by
  have hpos : 1 ≤ 2 ^ (spec.exponentBits - 1) := Nat.one_le_two_pow
  simp only [ofSpec, minExponent, Float.Model.Format.exponentBias, Nat.pow_eq]
  omega

/-- A pattern is decoded as the number that it is taken apart into. -/
theorem Format.decode_toNat (b : BitVec spec.numBits) :
    (ofSpec spec).decode b.toNat = .ofUnpacked (ofSpec spec) (unpack spec b) := by
  have hs : (unpackSign b).toNat ≤ 1 := Nat.le_of_lt_succ (unpackSign b).isLt
  have hdecode := (ofSpec spec).decode_parts hs (unpackExponent b).isLt (unpackMantissa b).isLt
  have htop : (unpackExponent b).toNat + 1 = Nat.pow 2 (ofSpec spec).exponentBits ↔
      unpackExponent b = -1#_ := by
    change _ = 2 ^ spec.exponentBits ↔ _
    rw [← BitVec.toNat_inj, BitVec.neg_one_eq_allOnes, BitVec.toNat_allOnes]
    omega
  have hzero (w : Nat) (v : BitVec w) : v.toNat = 0 ↔ v = 0#_ := by
    rw [← BitVec.toNat_inj, BitVec.toNat_zero]
  rw [toNat_eq_parts b]
  refine hdecode.trans ?_
  rw [← isNegative_ofBitVec, unpack, if_congr htop rfl rfl, if_congr (hzero _ _) rfl rfl,
    if_congr (hzero _ _) rfl rfl]
  by_cases hi : unpackExponent b = -1#_
  · rw [if_pos hi, if_pos hi]
    split <;> rfl
  · rw [if_neg hi, if_neg hi]
    by_cases h0 : unpackExponent b = 0#_
    · have hexponent : ((unpackExponent b).toNat : Int) = 0 := by simp [h0]
      rw [if_pos h0, if_pos h0]
      split
      · next hm0 => rw [hm0]; rfl
      · rw [Value.ofUnpacked, hexponent, minExponent_ofSpec]
        congr 1
        omega
    · have hexponent : (unpackExponent b).toNat ≠ 0 := fun h => h0 ((hzero _ _).1 h)
      rw [if_neg h0, if_neg h0, Value.ofUnpacked, toNat_one_append, minExponent_ofSpec,
        Nat.add_comm]
      congr 1
      omega

/-! ## Finite numbers and zeros -/

theorem isFinite_unpack (b : BitVec spec.numBits) : (unpack spec b).isFinite = true ↔
    ∃ negative m e, (Format.ofSpec spec).decode b.toNat = .finite negative m e := by
  rw [Format.decode_toNat]
  cases unpack spec b with
  | infinity s => exact iff_of_false Bool.false_ne_true nofun
  | notANumber => exact iff_of_false Bool.false_ne_true nofun
  | zero s => exact iff_of_true rfl ⟨_, _, _, rfl⟩
  | finite s m e hm => exact iff_of_true rfl ⟨_, _, _, rfl⟩

theorem beq_zero_unpack (b : BitVec spec.numBits) (s : Sign) :
    (unpack spec b).beq (.zero s) = true ↔
      ∃ negative e, (Format.ofSpec spec).decode b.toNat = .finite negative 0 e := by
  rw [Format.decode_toNat]
  cases unpack spec b with
  | infinity s => cases s <;> exact iff_of_false Bool.false_ne_true nofun
  | notANumber => exact iff_of_false Bool.false_ne_true nofun
  | zero s => exact iff_of_true rfl ⟨_, _, rfl⟩
  | finite s m e hm =>
      have hne : ¬ ∃ negative e', Value.ofUnpacked (Format.ofSpec spec) (.finite s m e hm) =
          .finite negative 0 e' := by
        rintro ⟨negative, e', h⟩
        exact hm.ne' (Value.finite.inj h).2.1
      cases s <;> exact iff_of_false Bool.false_ne_true hne

end Binary

open Binary

theorem double_isFinite_iff (x : Float) : x.isFinite = true ↔ Element.IsFinite x :=
  @isFinite_unpack .binary64 x.toBits.toBitVec

theorem single_isFinite_iff (x : Float32) : x.isFinite = true ↔ Element.IsFinite x :=
  @isFinite_unpack .binary32 x.toBits.toBitVec

theorem single_beq_zero_iff (x : Float32) : (x == 0) = true ↔
    ∃ negative e, Format.single.decode (Element.bits x) = .finite negative 0 e :=
  @beq_zero_unpack .binary32 x.toBits.toBitVec .positive

/-- A pattern that is no NaN is valid. -/
theorem valid_of_unpack_ne {b : BitVec spec.numBits} (h : unpack spec b ≠ .notANumber) :
    spec.Valid b := by
  refine ⟨fun he hm => absurd ?_ h⟩
  rw [unpack, if_pos he, if_neg hm]

theorem unpack_pack_unpack_single (b : BitVec 32) :
    unpack .binary32 (pack .binary32 (unpack .binary32 b)) = unpack .binary32 b := by
  by_cases h : unpack .binary32 b = .notANumber
  · rw [h]
    rfl
  · rw [pack_unpack (by decide) (valid_of_unpack_ne h)]

theorem decode_bits_singleOfBits {n : Nat} (h : n < 2 ^ 32) :
    Format.single.decode (Element.bits (singleOfBits n)) = Format.single.decode n := by
  have hn : (UInt32.ofNat n).toBitVec.toNat = n := Nat.mod_eq_of_lt h
  have hpacked := @Format.decode_toNat .binary32
    (pack .binary32 (unpack .binary32 (UInt32.ofNat n).toBitVec))
  have hplain := @Format.decode_toNat .binary32 (UInt32.ofNat n).toBitVec
  rw [unpack_pack_unpack_single, ← hplain, hn] at hpacked
  exact hpacked

end TensorFormula
