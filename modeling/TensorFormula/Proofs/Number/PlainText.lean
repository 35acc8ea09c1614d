import Mathlib.Data.List.TakeWhile
import TensorFormula.Formula.Canonical
import TensorFormula.Number.Reading
import TensorFormula.Proofs.Number.FloatBits
import TensorFormula.Proofs.Number.Rounding

/-!
# Numbers as plain text

A decimal without an exponent is written as digits, perhaps with a point and digits after it, and
the text stands for the same number. For a finite double without a sign the text therefore reads
back to that very double.
-/

namespace TensorFormula

open Binary

/-- Digits, which a point and more digits may follow. -/
inductive IsLiteral : List Char → Prop
  | whole {ds : List Char} (hne : ds ≠ []) (hd : ∀ c ∈ ds, c.isDigit = true) : IsLiteral ds
  | fraction {ds fs : List Char} (hne : ds ≠ []) (hd : ∀ c ∈ ds, c.isDigit = true)
      (hne' : fs ≠ []) (hd' : ∀ c ∈ fs, c.isDigit = true) : IsLiteral (ds ++ '.' :: fs)

namespace Decimal

variable (f : Format) (d : Decimal)

theorem ofLiteral_whole {ds : List Char} (hd : ∀ c ∈ ds, c.isDigit = true) :
    ofLiteral ds = ofDigits ds [] := by
  rw [ofLiteral, List.takeWhile_eq_self_iff.2 hd, List.dropWhile_eq_nil_iff.2 hd, List.drop_nil]

theorem ofLiteral_fraction {ds fs : List Char} (hd : ∀ c ∈ ds, c.isDigit = true) :
    ofLiteral (ds ++ '.' :: fs) = ofDigits ds fs := by
  rw [ofLiteral, List.takeWhile_append_of_pos hd, List.dropWhile_append_of_pos hd]
  rw [List.takeWhile_cons_of_neg (by decide), List.dropWhile_cons_of_neg (by decide),
    List.append_nil, List.drop_one, List.tail_cons]

theorem isDigit_digitText {c : Char} (h : c ∈ d.digitText) : c.isDigit = true :=
  Nat.isDigit_of_mem_toDigits (by decide) le_rfl h

theorem digitText_ne_nil : d.digitText ≠ [] := Nat.toDigits_ne_nil

theorem isDigit_zeros {n : Nat} {c : Char} (h : c ∈ zeros n) : c.isDigit = true := by
  obtain ⟨-, rfl⟩ := List.mem_replicate.1 h
  rfl

theorem ofDigitChars_digitText : Nat.ofDigitChars 10 d.digitText 0 = d.digits :=
  Nat.ofDigitChars_ten_toDigits

/-- A decimal whose digits all stand before the point. -/
theorem literal_integral (h : (-d.exponent).toNat = 0) :
    IsLiteral (d.digitText ++ zeros d.exponent.toNat) ∧
      (ofLiteral (d.digitText ++ zeros d.exponent.toNat)).toPattern f = d.toPattern f := by
  have hd : ∀ c ∈ d.digitText ++ zeros d.exponent.toNat, c.isDigit = true := by
    intro c hc
    exact (List.mem_append.1 hc).elim d.isDigit_digitText isDigit_zeros
  refine ⟨.whole (by simp [d.digitText_ne_nil]) hd, ?_⟩
  have hv : Nat.ofDigitChars 10 (d.digitText ++ zeros d.exponent.toNat) 0 =
      d.digits * 10 ^ d.exponent.toNat := by
    rw [Nat.ofDigitChars_append, ofDigitChars_digitText, zeros, Nat.ofDigitChars_replicate_zero,
      mul_comm]
  rw [ofLiteral_whole hd, ofDigits, List.append_nil, hv]
  simp [toPattern, numerator, denominator, h]

/-- A decimal whose last digits `fs` stand after the point. -/
theorem literal_fraction (ds fs : List Char) (hne : ds ≠ []) (hne' : fs ≠ [])
    (hds : ∀ c ∈ ds ++ fs, c.isDigit = true) (hv : Nat.ofDigitChars 10 (ds ++ fs) 0 = d.digits)
    (he : d.exponent = -(fs.length : Int)) :
    IsLiteral (ds ++ '.' :: fs) ∧ (ofLiteral (ds ++ '.' :: fs)).toPattern f = d.toPattern f := by
  have hd : ∀ c ∈ ds, c.isDigit = true := fun c hc => hds c (List.mem_append_left fs hc)
  have hd' : ∀ c ∈ fs, c.isDigit = true := fun c hc => hds c (List.mem_append_right ds hc)
  refine ⟨.fraction hne hd hne' hd', ?_⟩
  rw [ofLiteral_fraction hd, ofDigits, hv, ← he]

/-- The text of a decimal without an exponent stands for the decimal. -/
theorem literal_positional : IsLiteral (d.positional false) ∧
    (ofLiteral (d.positional false)).toPattern f = d.toPattern f := by
  have hne := d.digitText_ne_nil
  have hv := d.ofDigitChars_digitText
  have hd : ∀ c ∈ d.digitText, c.isDigit = true := fun c => d.isDigit_digitText
  unfold positional
  generalize hplaces : (-d.exponent).toNat = places
  dsimp only
  split
  · next hp =>
      rw [if_neg Bool.false_ne_true, List.append_nil]
      exact d.literal_integral f (hplaces.trans hp)
  · next hp =>
      split
      · next hlt =>
          have hcut := List.take_append_drop (d.digitText.length - places) d.digitText
          apply d.literal_fraction
          · rw [ne_eq, List.take_eq_nil_iff]
            simp only [hne, or_false]
            omega
          · rw [ne_eq, List.drop_eq_nil_iff]
            omega
          · rwa [hcut]
          · rwa [hcut]
          · rw [List.length_drop]
            omega
      · next hge =>
          have hz : ['0'] ++ (zeros (places - d.digitText.length) ++ d.digitText) =
              zeros (places - d.digitText.length + 1) ++ d.digitText := rfl
          apply d.literal_fraction f ['0'] (zeros (places - d.digitText.length) ++ d.digitText)
          · simp
          · simp [hne]
          · intro c hc
            rw [hz] at hc
            exact (List.mem_append.1 hc).elim isDigit_zeros (hd c)
          · rw [hz, Nat.ofDigitChars_append, zeros, Nat.ofDigitChars_replicate_zero, Nat.mul_zero,
              hv]
          · rw [List.length_append, zeros, List.length_replicate]
            omega

end Decimal

/-! ## Doubles without a sign -/

/-- A finite number without a sign. -/
def IsPlain (v : Float) : Prop := ∃ m e, Format.double.decode (Element.bits v) = .finite false m e

theorem bits_lt_infinity {v : Float} (h : IsPlain v) :
    Element.bits v < Format.double.infinity ∧ Element.bits v % Format.double.signBit =
      Element.bits v := by
  obtain ⟨m, e, h⟩ := h
  unfold Format.decode at h
  dsimp only at h
  split at h
  · cases h
  · split at h
    · cases h
    · simp only [Value.finite.injEq, decide_eq_false_iff_not] at h
      have hm : Element.bits v % Format.double.signBit = Element.bits v :=
        Nat.mod_eq_of_lt (by omega)
      omega

theorem plainText_eq {v : Float} (h : IsPlain v) :
    plainText v = (Decimal.shortest .double .up (Element.bits v)).positional false := by
  have hb := (bits_lt_infinity h).2
  obtain ⟨m, e, h⟩ := h
  unfold plainText Layout.text
  rw [h, hb]
  rfl

theorem isLiteral_plainText {v : Float} (h : IsPlain v) : IsLiteral (plainText v) :=
  plainText_eq h ▸ (Decimal.literal_positional .double _).1

/-- The text of a finite number without a sign reads back to it. -/
theorem toDouble_plainText {v : Float} (h : IsPlain v) :
    (Decimal.ofLiteral (plainText v)).toDouble false = v := by
  rw [Decimal.toDouble, plainText_eq h, (Decimal.literal_positional .double _).2,
    Decimal.toPattern_shortest .up (bits_lt_infinity h).1]
  exact doubleOfBits_bits v

/-! ## Past the range -/

def IsInfinite (v : Float) : Prop := Format.double.decode (Element.bits v) = .infinite false

theorem IsInfinite.not_isPlain {v : Float} (h : IsInfinite v) : ¬ IsPlain v := by
  rintro ⟨m, e, h'⟩
  cases h.symm.trans h'

theorem plainText_of_isInfinite {v : Float} (h : IsInfinite v) : plainText v = ['i', 'n', 'f'] := by
  unfold plainText Layout.text
  rw [h]
  rfl

theorem Binary.Format.infinity_lt_signBit (f : Format) : f.infinity < f.signBit := by
  simp only [Format.infinity, Format.signBit, Nat.pow_eq, pow_add]
  rw [mul_comm]
  exact Nat.mul_lt_mul_of_pos_left (Nat.sub_lt (Nat.pow_pos (by decide)) Nat.one_pos)
    (Nat.pow_pos (by decide))

/-- A signed pattern up to infinity is no NaN and is decoded by its magnitude. -/
theorem Binary.Format.decode_withSign (f : Format) (negative : Bool) {p : Nat}
    (h : p ≤ f.infinity) :
    f.decode (f.withSign negative p) = if p = f.infinity then .infinite negative
      else .finite negative (f.magnitude p).1 (f.magnitude p).2 := by
  have hlt : p < f.signBit := h.trans_lt f.infinity_lt_signBit
  have hmod : f.withSign negative p % f.signBit = p := by
    cases negative with
    | false => exact Nat.mod_eq_of_lt hlt
    | true => exact (Nat.add_mod_left ..).trans (Nat.mod_eq_of_lt hlt)
  have hsign : decide (f.signBit ≤ f.withSign negative p) = negative := by
    cases negative with
    | false => exact decide_eq_false (Nat.not_le.2 hlt)
    | true => exact decide_eq_true (Nat.le_add_right ..)
  unfold Format.decode
  simp only [hmod, hsign, if_neg (Nat.not_lt.2 h)]

theorem isPlain_or_isInfinite {v : Float} (h : Element.bits v ≤ Format.double.infinity) :
    IsPlain v ∨ IsInfinite v := by
  have hd := Format.double.decode_withSign false h
  by_cases hv : Element.bits v = Format.double.infinity
  · exact .inr (hd.trans (if_pos hv))
  · exact .inl ⟨_, _, hd.trans (if_neg hv)⟩

theorem bits_toDouble (d : Decimal) : Element.bits (d.toDouble false) = d.toPattern .double := by
  have hle : d.toPattern .double ≤ Format.double.infinity :=
    Format.double.nearest_le_infinity d.numerator d.denominator
  rw [Decimal.toDouble, Format.withSign, if_neg Bool.false_ne_true, bits_doubleOfBits hle]

/-- The double nearest to a decimal is finite or, past the range, infinite. -/
theorem isPlain_or_isInfinite_toDouble (d : Decimal) :
    IsPlain (d.toDouble false) ∨ IsInfinite (d.toDouble false) := by
  apply isPlain_or_isInfinite
  rw [bits_toDouble]
  exact Format.double.nearest_le_infinity d.numerator d.denominator

theorem not_isPlain_toDouble {d : Decimal} (h : d.toPattern .double = Format.double.infinity) :
    ¬ IsPlain (d.toDouble false) := by
  intro hp
  have hlt := (bits_lt_infinity hp).1
  rw [bits_toDouble, h] at hlt
  exact absurd hlt (Nat.lt_irrefl _)

/-! ## Elements that stand for numbers -/

/-- An element that stands for a number. -/
def Element.IsFinite {α : Type} [Element α] (x : α) : Prop :=
  ∃ negative m e, (Element.width α).format.decode (Element.bits x) = .finite negative m e

instance {α : Type} [Element α] (x : α) : Decidable (Element.IsFinite x) :=
  match h : (Element.width α).format.decode (Element.bits x) with
  | .finite negative m e => .isTrue ⟨negative, m, e, h⟩
  | .nan => .isFalse fun ⟨_, _, _, hx⟩ => nomatch h.symm.trans hx
  | .infinite _ => .isFalse fun ⟨_, _, _, hx⟩ => nomatch h.symm.trans hx

end TensorFormula
