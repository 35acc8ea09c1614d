import Mathlib.Order.Monotone.Basic
import TensorFormula.Proofs.Number.PlainText

/-!
# The number nearest to a literal

The numbers of a format grow with their patterns, and each pattern has its number between two powers
of two that bound the step to the next. A ratio therefore lies between two neighbours, of which
rounding takes the nearer one, or the even one at the same distance. What counts as the neighbour of
the greatest number is the power of two after it, which has the pattern of infinity.
-/

namespace TensorFormula

namespace Binary

namespace Format

variable (f : Format)

/-- The number of a magnitude pattern. For the pattern of infinity it is the first power of two past
the range. -/
def value (p : Nat) : ℚ := (f.magnitude p).1 * 2 ^ (f.magnitude p).2

/-- The pattern `p` has the number nearest to `r`, and is even if there is another one as near. -/
structure Rounds (r : ℚ) (p : Nat) : Prop where
  le_infinity : p ≤ f.infinity
  closest : ∀ p' ≤ f.infinity, |r - f.value p| ≤ |r - f.value p'|
  even_of_tie : ∀ p' ≤ f.infinity, p' ≠ p → |r - f.value p'| = |r - f.value p| → p % 2 = 0

/-! ## Numbers in order -/

theorem value_of_lt {p : Nat} (h : p < Nat.pow 2 f.fractionBits) :
    f.value p = p * 2 ^ f.minExponent := by
  rw [value, magnitude_eq, if_pos (Nat.div_eq_of_lt h)]
  simp only [Nat.mod_eq_of_lt h]

theorem value_zero : f.value 0 = 0 := by
  rw [f.value_of_lt (Nat.pow_pos (by decide)), Nat.cast_zero, zero_mul]

theorem value_normal {e j : Nat} (hj : j < Nat.pow 2 f.fractionBits) :
    f.value ((e + 1) * Nat.pow 2 f.fractionBits + j) =
      (j + Nat.pow 2 f.fractionBits : Nat) * 2 ^ (f.minExponent + e) := by
  rw [value, f.magnitude_parts hj, if_neg (Nat.succ_ne_zero e)]
  rfl

/-- The numbers of one exponent, and the first of the next. -/
theorem value_grid {e m : Nat} (hm : m ≤ Nat.pow 2 (f.fractionBits + 1))
    (hlow : e = 0 ∨ Nat.pow 2 f.fractionBits ≤ m) :
    f.value (e * Nat.pow 2 f.fractionBits + m) = m * 2 ^ (f.minExponent + e) := by
  have hdouble : Nat.pow 2 (f.fractionBits + 1) = 2 * Nat.pow 2 f.fractionBits := by
    simp only [Nat.pow_eq, pow_succ, mul_comm]
  rw [hdouble] at hm
  obtain hlt | hge := Nat.lt_or_ge m (Nat.pow 2 f.fractionBits)
  · obtain rfl : e = 0 := hlow.resolve_right (Nat.not_le.2 hlt)
    rw [Nat.zero_mul, Nat.zero_add, f.value_of_lt hlt, Nat.cast_zero, add_zero]
  · obtain hlt' | rfl := Nat.lt_or_eq_of_le hm
    · have hplace : e * Nat.pow 2 f.fractionBits + m =
          (e + 1) * Nat.pow 2 f.fractionBits + (m - Nat.pow 2 f.fractionBits) := by
        rw [Nat.succ_mul]
        omega
      rw [hplace, f.value_normal (by omega), Nat.sub_add_cancel hge]
    · have hplace : e * Nat.pow 2 f.fractionBits + 2 * Nat.pow 2 f.fractionBits =
          (e + 1 + 1) * Nat.pow 2 f.fractionBits + 0 := by ring
      rw [hplace, f.value_normal (Nat.pow_pos (by decide)), Nat.zero_add, Nat.cast_succ,
        ← add_assoc, zpow_add_one₀ (by norm_num), Nat.cast_mul]
      ring

theorem value_lt_succ (p : Nat) : f.value p < f.value (p + 1) := by
  have hpat := f.magnitude_pattern p
  obtain ⟨hup, hmin, hlow⟩ := f.magnitude_bounds p
  have hvalue : f.value p = (f.magnitude p).1 * 2 ^ (f.magnitude p).2 := rfl
  generalize (f.magnitude p).1 = m at *
  generalize (f.magnitude p).2 = q at *
  have hq : f.minExponent + ((q - f.minExponent).toNat : Int) = q := by omega
  have hnext := f.value_grid (e := (q - f.minExponent).toNat) (m := m + 1) hup (by omega)
  rw [← Nat.add_assoc, hpat, hq] at hnext
  rw [hvalue, hnext]
  gcongr
  exact_mod_cast Nat.lt_succ_self m

theorem strictMono_value : StrictMono f.value := strictMono_nat_of_lt_succ f.value_lt_succ

variable {f} {r : ℚ} {a p : Nat}

/-! ## Between neighbours -/

/-- The nearer neighbour of a ratio, or the even one of two at the same distance. -/
inductive Picks (f : Format) (r : ℚ) (a : Nat) : Nat → Prop
  | below (h : r - f.value a ≤ f.value (a + 1) - r)
      (tie : r - f.value a = f.value (a + 1) - r → a % 2 = 0) : Picks f r a a
  | above (h : f.value (a + 1) - r ≤ r - f.value a)
      (tie : r - f.value a = f.value (a + 1) - r → (a + 1) % 2 = 0) : Picks f r a (a + 1)

theorem dist_of_le (hlow : f.value a ≤ r) (h : p ≤ a) : |r - f.value p| = r - f.value p :=
  abs_of_nonneg (sub_nonneg.2 ((f.strictMono_value.monotone h).trans hlow))

theorem dist_of_lt (hup : r < f.value (a + 1)) (h : a < p) : |r - f.value p| = f.value p - r := by
  have hle : f.value (a + 1) ≤ f.value p := f.strictMono_value.monotone h
  rw [abs_sub_comm, abs_of_nonneg]
  exact sub_nonneg.2 (hup.le.trans hle)

/-- A ratio past the range is nearest to what comes first there. -/
theorem rounds_infinity (h : f.value f.infinity ≤ r) : f.Rounds r f.infinity := by
  refine ⟨le_rfl, fun p' hp' => ?_, fun p' hp' hne heq => ?_⟩
  · have hle : f.value p' ≤ f.value f.infinity := f.strictMono_value.monotone hp'
    rw [dist_of_le h le_rfl, dist_of_le h hp']
    exact sub_le_sub_left hle r
  · rw [dist_of_le h le_rfl, dist_of_le h hp'] at heq
    exact absurd (f.strictMono_value.injective (sub_right_injective heq)) hne

/-- Of the patterns up to a neighbour only the neighbour can be as near. -/
theorem Picks.rounds (hlow : f.value a ≤ r) (hup : r < f.value (a + 1)) (hp : Picks f r a p)
    (hi : a < f.infinity) : f.Rounds r p := by
  have hbelow (p' : Nat) (h : p' ≤ a) : r - f.value a ≤ |r - f.value p'| := by
    rw [dist_of_le hlow h]
    exact sub_le_sub_left (f.strictMono_value.monotone h) r
  have habove (p' : Nat) (h : a < p') : f.value (a + 1) - r ≤ |r - f.value p'| := by
    rw [dist_of_lt hup h]
    exact sub_le_sub_right (f.strictMono_value.monotone h) r
  cases hp with
  | below h tie =>
      have hdist : |r - f.value a| = r - f.value a := dist_of_le hlow le_rfl
      refine ⟨hi.le, fun p' _ => ?_, fun p' _ hne heq => ?_⟩
      · rw [hdist]
        obtain hle | hlt := Nat.lt_or_ge a p'
        · exact h.trans (habove p' hle)
        · exact hbelow p' hlt
      · rw [hdist] at heq
        obtain hlt | hle := Nat.lt_or_ge a p'
        · exact tie (h.antisymm ((habove p' hlt).trans heq.le))
        · rw [dist_of_le hlow hle] at heq
          exact absurd (f.strictMono_value.injective (sub_right_injective heq)) hne
  | above h tie =>
      have hdist : |r - f.value (a + 1)| = f.value (a + 1) - r :=
        dist_of_lt hup (Nat.lt_succ_self a)
      refine ⟨hi, fun p' _ => ?_, fun p' _ hne heq => ?_⟩
      · rw [hdist]
        obtain hlt | hle := Nat.lt_or_ge a p'
        · exact habove p' hlt
        · exact h.trans (hbelow p' hle)
      · rw [hdist] at heq
        obtain hlt | hle := Nat.lt_or_ge a p'
        · rw [dist_of_lt hup hlt] at heq
          exact absurd (f.strictMono_value.injective (sub_left_injective heq)) hne
        · exact tie (((hbelow p' hle).trans heq.le).antisymm h)

/-- Rounding picks a neighbour, unless infinity comes before it. -/
theorem Picks.rounds_min (hlow : f.value a ≤ r) (hup : r < f.value (a + 1))
    (hp : Picks f r a p) : f.Rounds r (min f.infinity p) := by
  have hap : a ≤ p ∧ p ≤ a + 1 := by cases hp <;> omega
  obtain hlt | hge := Nat.lt_or_ge a f.infinity
  · rw [Nat.min_eq_right (by omega)]
    exact hp.rounds hlow hup hlt
  · rw [Nat.min_eq_left (by omega)]
    exact rounds_infinity ((f.strictMono_value.monotone hge).trans hlow)

/-! ## Rounding -/

/-- An integer quotient is rounded to the nearer of the integers next to it. -/
theorem roundEven_cases (num den : Nat) :
    (roundEven num den = num / den ∧ 2 * (num % den) ≤ den ∧
      (2 * (num % den) = den → num / den % 2 = 0)) ∨
    (roundEven num den = num / den + 1 ∧ den ≤ 2 * (num % den) ∧
      (2 * (num % den) = den → (num / den + 1) % 2 = 0)) := by
  simp only [roundEven]
  split
  · exact .inl ⟨rfl, by omega, by omega⟩
  · split
    · exact .inr ⟨rfl, by omega, by omega⟩
    · split
      · exact .inl ⟨rfl, by omega, by omega⟩
      · exact .inr ⟨rfl, by omega, by omega⟩

theorem picks_roundEven {num den e : Nat} {q : Int} (hd : 0 < den) (hf : 0 < f.fractionBits)
    (hr : r = num / den * 2 ^ q)
    (hlow : f.value (e * Nat.pow 2 f.fractionBits + num / den) = (num / den : Nat) * 2 ^ q)
    (hup : f.value (e * Nat.pow 2 f.fractionBits + num / den + 1) =
      (num / den + 1 : Nat) * 2 ^ q) :
    Picks f r (e * Nat.pow 2 f.fractionBits + num / den)
      (e * Nat.pow 2 f.fractionBits + roundEven num den) := by
  have hd' : (0 : ℚ) < den := by exact_mod_cast hd
  have hnum : (num : ℚ) = den * (num / den : Nat) + (num % den : Nat) := by
    exact_mod_cast (Nat.div_add_mod num den).symm
  have hbelow : r - f.value (e * Nat.pow 2 f.fractionBits + num / den) =
      (num % den : Nat) / den * 2 ^ q := by
    rw [hr, hlow, hnum]
    field_simp
    ring
  have habove : f.value (e * Nat.pow 2 f.fractionBits + num / den + 1) - r =
      (den - (num % den : Nat)) / den * 2 ^ q := by
    rw [hr, hup, hnum, Nat.cast_succ]
    field_simp
    ring
  have hpower : (0 : ℚ) < 2 ^ q := by positivity
  have htie (h : r - f.value (e * Nat.pow 2 f.fractionBits + num / den) =
      f.value (e * Nat.pow 2 f.fractionBits + num / den + 1) - r) : 2 * (num % den) = den := by
    rw [hbelow, habove] at h
    have hsame := (div_left_inj' hd'.ne').1 (mul_right_cancel₀ hpower.ne' h)
    have htwice : (2 * (num % den : Nat) : ℚ) = den := by linarith
    exact_mod_cast htwice
  have heven (m : Nat) : (e * Nat.pow 2 f.fractionBits + m) % 2 = m % 2 := by
    obtain ⟨k, hk⟩ := Nat.exists_eq_add_of_lt hf
    rw [hk, Nat.zero_add, Nat.pow_eq, pow_succ, ← Nat.mul_assoc, Nat.mul_comm _ 2,
      Nat.mul_add_mod]
  obtain ⟨hm, hle, hparity⟩ | ⟨hm, hle, hparity⟩ := roundEven_cases num den
  · rw [hm]
    refine .below ?_ fun h => (heven _).trans (hparity (htie h))
    rw [hbelow, habove]
    have hle' : (2 * (num % den : Nat) : ℚ) ≤ den := by exact_mod_cast hle
    gcongr
    linarith
  · rw [hm]
    refine .above ?_ fun h => ?_
    · rw [hbelow, habove]
      have hle' : (den : ℚ) ≤ 2 * (num % den : Nat) := by exact_mod_cast hle
      gcongr
      linarith
    · rw [Nat.add_assoc, heven]
      exact hparity (htie h)

/-- The exponent of a ratio and the power of two above it. -/
theorem floorLog2_bounds {num den : Nat} (hn : 0 < num) (hd : 0 < den) :
    (2 : ℚ) ^ floorLog2 num den ≤ num / den ∧ (num / den : ℚ) < 2 ^ (floorLog2 num den + 1) := by
  obtain ⟨hl, hu⟩ := div_bounds hn hd
  unfold floorLog2
  simp only [← zpow_two_le_div_iff hd]
  split
  · next h => exact ⟨h, hu⟩
  · next h =>
      refine ⟨hl, ?_⟩
      rw [sub_add_cancel]
      exact not_le.1 h

/-- Scaling by a power of two is exact. -/
theorem scaled_div (num : Nat) {den : Nat} (hd : 0 < den) (q : Int) :
    ((num * Nat.pow 2 (-q).toNat : Nat) / (den * Nat.pow 2 q.toNat : Nat) : ℚ) =
      num / den * 2 ^ (-q) := by
  have hd' : (den : ℚ) ≠ 0 := by exact_mod_cast hd.ne'
  obtain ⟨n, rfl | rfl⟩ := q.eq_nat_or_neg
  · have hn : (-(n : Int)).toNat = 0 := by omega
    simp [hn]
    field_simp
  · have hn : (-(n : Int)).toNat = 0 := by omega
    simp [hn]
    field_simp

theorem div_between (num : Nat) {den : Nat} (hd : 0 < den) :
    ((num / den : Nat) : ℚ) ≤ num / den ∧ (num / den : ℚ) < (num / den + 1 : Nat) := by
  have hd' : (0 : ℚ) < den := by exact_mod_cast hd
  refine ⟨Nat.cast_div_le, ?_⟩
  rw [div_lt_iff₀ hd']
  exact_mod_cast Nat.lt_mul_of_div_lt (Nat.lt_succ_self (num / den)) hd

/-- The quotient of a ratio by a power of two has the bits of a significand. -/
theorem significand_bounds {num den : Nat} {q : Int} (hn : 0 < num) (hd : 0 < den)
    (hq : q = max f.minExponent (floorLog2 num den - f.fractionBits)) :
    num * Nat.pow 2 (-q).toNat / (den * Nat.pow 2 q.toNat) < Nat.pow 2 (f.fractionBits + 1) ∧
      (q = f.minExponent ∨
        Nat.pow 2 f.fractionBits ≤ num * Nat.pow 2 (-q).toNat / (den * Nat.pow 2 q.toNat)) := by
  have hd' : 0 < den * Nat.pow 2 q.toNat := Nat.mul_pos hd (Nat.pow_pos (by decide))
  have hdq : (0 : ℚ) < (den * Nat.pow 2 q.toNat : Nat) := by exact_mod_cast hd'
  have hscaled := scaled_div num hd q
  obtain ⟨hlow, hup⟩ := floorLog2_bounds hn hd
  constructor
  · rw [Nat.div_lt_iff_lt_mul hd']
    have hlt : (num / den * 2 ^ (-q) : ℚ) < 2 ^ (f.fractionBits + 1 : Nat) := by
      calc (num / den * 2 ^ (-q) : ℚ) < 2 ^ (floorLog2 num den + 1) * 2 ^ (-q) := by gcongr
        _ = 2 ^ (floorLog2 num den + 1 - q) := by rw [← zpow_add₀ (by norm_num), sub_eq_add_neg]
        _ ≤ 2 ^ ((f.fractionBits + 1 : Nat) : Int) :=
          zpow_le_zpow_right₀ (by norm_num) (by push_cast; omega)
        _ = 2 ^ (f.fractionBits + 1 : Nat) := zpow_natCast ..
    rw [← hscaled, div_lt_iff₀ hdq] at hlt
    exact_mod_cast hlt
  · obtain hmin | hmin : q = f.minExponent ∨ q = floorLog2 num den - f.fractionBits := by omega
    · exact .inl hmin
    · refine .inr ?_
      rw [Nat.le_div_iff_mul_le hd']
      have hle : (2 ^ f.fractionBits : ℚ) ≤ num / den * 2 ^ (-q) := by
        calc (2 ^ f.fractionBits : ℚ) = 2 ^ (floorLog2 num den - q) := by
              rw [hmin, sub_sub_cancel, zpow_natCast]
          _ = 2 ^ floorLog2 num den * 2 ^ (-q) := by
              rw [← zpow_add₀ (by norm_num), sub_eq_add_neg]
          _ ≤ num / den * 2 ^ (-q) := by gcongr
      rw [← hscaled, le_div_iff₀ hdq] at hle
      exact_mod_cast hle

theorem rounds_zero : f.Rounds 0 0 := by
  refine ⟨Nat.zero_le _, fun p' _ => ?_, fun _ _ _ _ => rfl⟩
  rw [f.value_zero, sub_zero, abs_zero]
  exact abs_nonneg _

/-- Rounding a ratio gives the number nearest to it. -/
theorem rounds_nearest (hf : 0 < f.fractionBits) {num den : Nat} (hd : 0 < den) :
    f.Rounds (num / den) (f.nearest num den) := by
  obtain rfl | hn := Nat.eq_zero_or_pos num
  · rw [Nat.cast_zero, zero_div]
    exact rounds_zero
  rw [nearest, if_neg hn.ne']
  dsimp only
  generalize hq : max f.minExponent (floorLog2 num den - f.fractionBits) = q
  obtain ⟨hup, hlow⟩ := significand_bounds hn hd hq.symm
  have hd' : 0 < den * Nat.pow 2 q.toNat := Nat.mul_pos hd (Nat.pow_pos (by decide))
  have hr : (num / den : ℚ) =
      (num * Nat.pow 2 (-q).toNat : Nat) / (den * Nat.pow 2 q.toNat : Nat) * 2 ^ q := by
    rw [scaled_div num hd, mul_assoc, ← zpow_add₀ (by norm_num), neg_add_cancel, zpow_zero,
      mul_one]
  have he : f.minExponent + ((q - f.minExponent).toNat : Int) = q := by omega
  generalize num * Nat.pow 2 (-q).toNat = num' at *
  generalize den * Nat.pow 2 q.toNat = den' at *
  obtain ⟨hle, hlt⟩ := div_between num' hd'
  have hvalue := f.value_grid (e := (q - f.minExponent).toNat) hup.le (by omega)
  have hvalue' :=
    f.value_grid (e := (q - f.minExponent).toNat) (m := num' / den' + 1) hup (by omega)
  rw [he] at hvalue hvalue'
  have hpower : (0 : ℚ) < 2 ^ q := by positivity
  refine Picks.rounds_min ?_ ?_ (picks_roundEven hd' hf hr hvalue hvalue')
  · rw [hvalue, hr]
    exact mul_le_mul_of_nonneg_right hle hpower.le
  · rw [Nat.add_assoc, hvalue', hr]
    exact mul_lt_mul_of_pos_right hlt hpower

/-- Only one pattern has the nearest number: of two at the same distance both would be even, and a
number between them would be nearer. -/
theorem Rounds.unique {p' : Nat} (h : f.Rounds r p) (h' : f.Rounds r p') : p = p' := by
  wlog hle : p ≤ p' generalizing p p'
  · exact (this h' h (Nat.le_of_not_le hle)).symm
  by_contra hne
  have hsame : |r - f.value p| = |r - f.value p'| :=
    (h.closest p' h'.le_infinity).antisymm (h'.closest p h.le_infinity)
  have heven := h.even_of_tie p' h'.le_infinity (Ne.symm hne) hsame.symm
  have heven' := h'.even_of_tie p h.le_infinity hne hsame
  have hlow : f.value p < f.value (p + 1) := f.value_lt_succ p
  have hup : f.value (p + 1) < f.value p' := f.strictMono_value (by omega)
  have hmiddle : r - f.value p = f.value p' - r := by
    obtain heq | heq := abs_eq_abs.1 hsame
    · linarith
    · linarith
  have hcloser : |r - f.value (p + 1)| < |r - f.value p| := by
    rw [abs_of_pos (show 0 < r - f.value p by linarith), abs_lt]
    constructor <;> linarith
  have hbound := h'.le_infinity
  exact absurd (h.closest (p + 1) (by omega)) (not_le.2 hcloser)

/-- Rounding depends on the ratio only. -/
theorem nearest_congr (hf : 0 < f.fractionBits) {num den num' den' : Nat} (hd : 0 < den)
    (hd' : 0 < den') (h : num * den' = num' * den) : f.nearest num den = f.nearest num' den' := by
  have hne : (den : ℚ) ≠ 0 := by exact_mod_cast hd.ne'
  have hne' : (den' : ℚ) ≠ 0 := by exact_mod_cast hd'.ne'
  have hratio : (num / den : ℚ) = num' / den' := by
    rw [div_eq_div_iff hne hne']
    exact_mod_cast h
  exact (rounds_nearest hf hd).unique (hratio ▸ rounds_nearest hf hd')

end Format

end Binary

/-! ## Literals -/

open Binary

/-- The ratio that digits with an optional fraction stand for. -/
inductive Denotes : List Char → ℚ → Prop
  | whole {ds : List Char} (hne : ds ≠ []) (hd : ∀ c ∈ ds, c.isDigit = true) :
      Denotes ds (Nat.ofDigitChars 10 ds 0)
  | fraction {ds fs : List Char} (hne : ds ≠ []) (hd : ∀ c ∈ ds, c.isDigit = true)
      (hne' : fs ≠ []) (hd' : ∀ c ∈ fs, c.isDigit = true) :
      Denotes (ds ++ '.' :: fs)
        (Nat.ofDigitChars 10 ds 0 + Nat.ofDigitChars 10 fs 0 / 10 ^ fs.length)

theorem exists_denotes {cs : List Char} (h : IsLiteral cs) : ∃ r, Denotes cs r := by
  cases h with
  | whole hne hd => exact ⟨_, .whole hne hd⟩
  | fraction hne hd hne' hd' => exact ⟨_, .fraction hne hd hne' hd'⟩

theorem Decimal.ratio_ofDigits (ds fs : List Char) :
    ((ofDigits ds fs).numerator / (ofDigits ds fs).denominator : ℚ) =
      Nat.ofDigitChars 10 ds 0 + Nat.ofDigitChars 10 fs 0 / 10 ^ fs.length := by
  have hexponent : (-(fs.length : Int)).toNat = 0 := by omega
  simp only [ofDigits, numerator, denominator, hexponent, neg_neg, Int.toNat_natCast, Nat.pow_eq,
    pow_zero, mul_one]
  rw [Nat.ofDigitChars_append, Nat.ofDigitChars_eq_ofDigitChars_zero]
  push_cast
  field_simp

theorem Denotes.ratio_ofLiteral {cs : List Char} {r : ℚ} (h : Denotes cs r) :
    ((Decimal.ofLiteral cs).numerator / (Decimal.ofLiteral cs).denominator : ℚ) = r := by
  cases h with
  | whole hne hd =>
      rw [Decimal.ofLiteral_whole hd, Decimal.ratio_ofDigits]
      simp
  | fraction hne hd hne' hd' => rw [Decimal.ofLiteral_fraction hd, Decimal.ratio_ofDigits]

/-- The double that a literal is read as is the one nearest to the ratio that it denotes. -/
theorem Denotes.rounds {cs : List Char} {r : ℚ} (h : Denotes cs r) :
    Format.double.Rounds r (Element.bits ((Decimal.ofLiteral cs).toDouble false)) := by
  rw [bits_toDouble, Decimal.toPattern, ← h.ratio_ofLiteral]
  exact Format.rounds_nearest (by decide) (Nat.pow_pos (by decide))

end TensorFormula
