import Mathlib
import TensorFormula.Element

/-!
# Bit patterns determine numbers

A float is stored as its bit pattern, and reading a pattern takes it apart and puts it together
again. On the patterns that a float can have this changes nothing, so `Element.bits` loses nothing.
-/

namespace TensorFormula

open Float.Model.UnpackedFloat

variable {spec : Float.Model.Format}

theorem packComponents_unpack (b : BitVec spec.numBits) :
    packComponents spec (Sign.ofBitVec (unpackSign b)) (unpackExponent b) (unpackMantissa b) =
      b := by
  have hs (v : BitVec 1) : (Sign.ofBitVec v).toBitVec = v := by
    revert v
    decide
  have hm := spec.hm
  have he := spec.he
  rw [packComponents, hs]
  apply BitVec.eq_of_getLsbD_eq
  intro i hi
  simp only [BitVec.getLsbD_append, unpackMantissa, unpackExponent, unpackSign,
    BitVec.getLsbD_cast, BitVec.getLsbD_extractLsb]
  split
  · simp only [Nat.zero_add, Bool.and_eq_right_iff_imp, decide_eq_true_eq]
    omega
  · split
    · rw [Nat.add_sub_cancel' (by omega), Bool.and_eq_right_iff_imp, decide_eq_true_eq]
      omega
    · have hi' : spec.mantissaBitsWithoutImplicit + spec.exponentBits +
          (i - spec.mantissaBitsWithoutImplicit - spec.exponentBits) = i := by omega
      rw [hi', Bool.and_eq_right_iff_imp, decide_eq_true_eq]
      omega

theorem pack_subnormal (h : 1 < spec.exponentBits) (s : Sign) {e : BitVec spec.exponentBits}
    (m : BitVec spec.mantissaBitsWithoutImplicit) (he : e = 0#_) (hm : 0 < m.toNat) :
    pack spec (.finite s m.toNat
      ((e.toNat : Int) - (spec.exponentBias + spec.mantissaBitsWithoutImplicit) + 1) hm) =
      packComponents spec s e m := by
  have hb : ((e.toNat : Int) - (spec.exponentBias + spec.mantissaBitsWithoutImplicit) + 1 +
      spec.exponentBias + spec.mantissaBitsWithoutImplicit).toNat = 1 := by
    rw [he, BitVec.toNat_ofNat, Nat.zero_mod]
    omega
  have h4 : 2 ^ 2 ≤ 2 ^ spec.exponentBits := Nat.pow_le_pow_right (by decide) h
  have hlog : m.toNat.log2 < spec.mantissaBitsWithoutImplicit :=
    (Nat.log2_lt (by omega)).2 m.isLt
  rw [pack]
  simp only [hb]
  rw [if_neg (by omega), if_neg (by rw [Float.Model.Format.mantissaBits]; omega),
    BitVec.ofNat_toNat, BitVec.setWidth_eq, he]

/-- The significand of a normal number has a leading one that its pattern leaves out. -/
theorem toNat_one_append {n : Nat} (m : BitVec n) : (1#1 ++ m).toNat = 2 ^ n + m.toNat := by
  rw [BitVec.toNat_append, ← Nat.shiftLeft_add_eq_or_of_lt m.isLt, Nat.shiftLeft_eq]
  simp

theorem pack_normal (s : Sign) (e : BitVec spec.exponentBits)
    (m : BitVec spec.mantissaBitsWithoutImplicit) (he : e ≠ -1#_) (h : 0 < (1#1 ++ m).toNat) :
    pack spec (.finite s (1#1 ++ m).toNat
      ((e.toNat : Int) - (spec.exponentBias + spec.mantissaBitsWithoutImplicit)) h) =
      packComponents spec s e m := by
  have hb : ((e.toNat : Int) - (spec.exponentBias + spec.mantissaBitsWithoutImplicit) +
      spec.exponentBias + spec.mantissaBitsWithoutImplicit).toNat = e.toNat := by omega
  have hmax : e.toNat + 1 < 2 ^ spec.exponentBits := by
    have hne : e.toNat ≠ 2 ^ spec.exponentBits - 1 := by
      intro hc
      exact he (BitVec.toNat_inj.1 (by simp [hc, BitVec.neg_one_eq_allOnes]))
    have := e.isLt
    omega
  have hv := toNat_one_append m
  have hlog : (1#1 ++ m).toNat.log2 = spec.mantissaBitsWithoutImplicit := by
    have := m.isLt
    rw [hv, Nat.log2_eq_iff (by omega), Nat.pow_succ]
    omega
  have hmod : BitVec.ofNat spec.mantissaBitsWithoutImplicit (1#1 ++ m).toNat = m := by
    apply BitVec.eq_of_toNat_eq
    rw [BitVec.toNat_ofNat, hv, Nat.add_mod_left, Nat.mod_eq_of_lt m.isLt]
  rw [pack]
  simp only [hb]
  rw [if_neg (by omega), if_pos (by rw [hlog, Float.Model.Format.mantissaBits]; omega), hmod,
    BitVec.ofNat_toNat, BitVec.setWidth_eq]

theorem pack_unpack (h : 1 < spec.exponentBits) {b : BitVec spec.numBits} (hv : spec.Valid b) :
    pack spec (unpack spec b) = b := by
  have hb := packComponents_unpack b
  rw [unpack]
  split
  · next he =>
      split
      · next hm =>
          rw [he, hm] at hb
          exact hb
      · next hm => exact (hv.eq_packedNaN he hm).symm
  · next hi =>
      split
      · next he =>
          split
          · next hm =>
              rw [he, hm] at hb
              exact hb
          · next hm =>
              exact (pack_subnormal h _ _ he _).trans hb
      · next he => exact (pack_normal _ _ _ hi _).trans hb

theorem double_pack_unpack (z : Float) : Float.ofModel (.pack z.toModel.unpack) = z := by
  obtain ⟨⟨bits, valid⟩⟩ := z
  have hp := pack_unpack (by decide) valid
  simp only [Float.Model.pack, Float.Model.unpack, hp]

theorem single_pack_unpack (z : Float32) : Float32.ofModel (.pack z.toModel.unpack) = z := by
  obtain ⟨⟨bits, valid⟩⟩ := z
  have hp := pack_unpack (by decide) valid
  simp only [Float32.Model.pack, Float32.Model.unpack, hp]

theorem double_unpack_zero : (0 : Float).toModel.unpack = .zero .positive := by
  with_unfolding_all rfl

theorem single_unpack_zero : (0 : Float32).toModel.unpack = .zero .positive := by
  with_unfolding_all rfl

theorem double_unpack_ne {z : Float} (h : z ≠ -0) : z.toModel.unpack ≠ .zero .negative := by
  intro hz
  apply h
  rw [← double_pack_unpack z, hz]
  decide +kernel

theorem single_unpack_ne {z : Float32} (h : z ≠ -0) : z.toModel.unpack ≠ .zero .negative := by
  intro hz
  apply h
  rw [← single_pack_unpack z, hz]
  decide +kernel

theorem ofBits_toBits (v : Float) : Float.ofBits v.toBits = v := by
  obtain ⟨⟨bits, valid⟩⟩ := v
  have hp := pack_unpack (by decide) valid
  simp only [Float.ofBits, Float.toBits, Float.Model.ofBits, Float.Model.pack, hp]

/-- A double is the one with its bits. -/
theorem doubleOfBits_bits (v : Float) : doubleOfBits (Element.bits v) = v := by
  change Float.ofBits (UInt64.ofNat v.toBits.toNat) = v
  rw [UInt64.ofNat_toNat, ofBits_toBits]

/-- The patterns up to infinity are no NaN, so they are patterns that a double can have. -/
theorem valid_of_le_infinity {p : Nat} (h : p ≤ Binary.Format.double.infinity) :
    Float.Model.Format.binary64.Valid (UInt64.ofNat p).toBitVec := by
  have hp : p ≤ 2047 * 2 ^ 52 := h
  constructor
  intro he hm
  have hexponent : p / 2 ^ 52 % 2 ^ 11 = 2047 := by
    have hv := congrArg BitVec.toNat he
    simp [unpackExponent, Nat.shiftRight_eq_div_pow] at hv
    omega
  have hmantissa : p % 2 ^ 52 ≠ 0 := by
    intro h0
    apply hm
    apply BitVec.eq_of_toNat_eq
    simpa [unpackMantissa] using h0
  omega

theorem bits_doubleOfBits {p : Nat} (h : p ≤ Binary.Format.double.infinity) :
    Element.bits (doubleOfBits p) = p := by
  have hp : p ≤ 2047 * 2 ^ 52 := h
  have hpack := pack_unpack (by decide) (valid_of_le_infinity h)
  have hbits : Element.bits (doubleOfBits p) =
      (pack .binary64 (unpack .binary64 (UInt64.ofNat p).toBitVec)).toNat := rfl
  rw [hbits, hpack]
  simp
  omega

end TensorFormula
