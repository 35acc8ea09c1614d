import TensorFormula.Json.Tensor
import TensorFormula.Proofs.Number.PlainText

/-!
# Numbers as JSON text

A number literal has spellings, from each of which it is read back wherever nothing follows that
could belong to it. The text of every finite element is the spelling of a literal; what is no finite
number is written as `null`.
-/

namespace TensorFormula

open Binary

namespace Json

/-! ## Spellings -/

namespace Literal

variable (l : Literal)

def fractionText : List Char := l.fraction.elim [] ('.' :: ·)

def exponentText : List Char :=
  l.exponent.elim [] fun e => 'e' :: (if e.1 then '-' else '+') :: e.2

def magnitudeText : List Char := l.whole ++ (l.fractionText ++ l.exponentText)

/-- The text of a literal, in which an exponent has a sign. -/
def spelling : List Char := Layout.signText l.negative ++ l.magnitudeText

/-- Digits wherever there have to be some, and no zero before others. -/
structure WellFormed : Prop where
  whole : l.whole ≠ [] ∧ ∀ c ∈ l.whole, c.isDigit = true
  leading : l.whole.head? = some '0' → l.whole.length = 1
  fraction : ∀ ds ∈ l.fraction, ds ≠ [] ∧ ∀ c ∈ ds, c.isDigit = true
  exponent : ∀ e ∈ l.exponent, e.2 ≠ [] ∧ ∀ c ∈ e.2, c.isDigit = true

/-- The texts of an exponent: its mark may be capital, and a plus may be left out. -/
inductive SpellsExponent : Option (Bool × List Char) → List Char → Prop
  | none : SpellsExponent none []
  | signed {mark : Char} (h : mark = 'e' ∨ mark = 'E') (negative : Bool) (ds : List Char) :
      SpellsExponent (some (negative, ds)) (mark :: (if negative then '-' else '+') :: ds)
  | unsigned {mark : Char} (h : mark = 'e' ∨ mark = 'E') (ds : List Char) :
      SpellsExponent (some (false, ds)) (mark :: ds)

/-- The texts of a literal. -/
structure Spells (cs : List Char) : Prop where
  wellFormed : l.WellFormed
  text : ∃ exponent, SpellsExponent l.exponent exponent ∧
    cs = Layout.signText l.negative ++ (l.whole ++ (l.fractionText ++ exponent))

variable {l} in
theorem WellFormed.spells (h : l.WellFormed) : l.Spells l.spelling where
  wellFormed := h
  text := by
    refine ⟨l.exponentText, ?_, rfl⟩
    rw [exponentText]
    cases l.exponent with
    | none => exact .none
    | some e => exact .signed (.inl rfl) e.1 e.2

end Literal

/-- What may follow a number: nothing that could belong to it. -/
def Ends (rest : List Char) : Prop :=
  ∀ c ∈ rest.head?, c.isDigit = false ∧ c ≠ '.' ∧ c ≠ 'e' ∧ c ≠ 'E'

theorem ends_nil : Ends [] := nofun

theorem ends_cons {c : Char} {cs : List Char}
    (h : c.isDigit = false ∧ c ≠ '.' ∧ c ≠ 'e' ∧ c ≠ 'E') : Ends (c :: cs) := by
  intro d hd
  obtain rfl := Option.some.inj hd
  exact h

/-- Digits are read up to the first character that is none. -/
theorem readDigits_append {ds rest : List Char} (hne : ds ≠ [])
    (hd : ∀ c ∈ ds, c.isDigit = true) (hr : ∀ c ∈ rest.head?, c.isDigit = false) :
    readDigits (ds ++ rest) = some (ds, rest) := by
  have htake : rest.takeWhile Char.isDigit = [] := by
    cases rest with
    | nil => rfl
    | cons c cs => exact List.takeWhile_cons_of_neg (by simp [hr c rfl])
  have hdrop : rest.dropWhile Char.isDigit = rest := by
    cases rest with
    | nil => rfl
    | cons c cs => exact List.dropWhile_cons_of_neg (by simp [hr c rfl])
  rw [readDigits, List.takeWhile_append_of_pos hd, List.dropWhile_append_of_pos hd, htake, hdrop,
    List.append_nil]
  exact if_neg (by simpa using hne)

namespace Literal

variable {l : Literal}

/-- What an exponent starts with belongs to no digits before it. -/
theorem SpellsExponent.head? {e : Option (Bool × List Char)} {cs : List Char}
    (h : SpellsExponent e cs) {rest : List Char} (hr : Ends rest) :
    ∀ c ∈ (cs ++ rest).head?, c.isDigit = false ∧ c ≠ '.' := by
  cases h with
  | none => exact fun c hc => ⟨(hr c hc).1, (hr c hc).2.1⟩
  | signed h | unsigned h =>
      intro c hc
      obtain rfl := Option.some.inj hc
      obtain rfl | rfl := h <;> decide

theorem SpellsExponent.readExponent_append {e : Option (Bool × List Char)} {cs : List Char}
    (h : SpellsExponent e cs) (he : ∀ p ∈ e, p.2 ≠ [] ∧ ∀ c ∈ p.2, c.isDigit = true)
    {rest : List Char} (hr : Ends rest) : readExponent (cs ++ rest) = some (e, rest) := by
  cases h with
  | none =>
      cases rest with
      | nil => rfl
      | cons c cs =>
          have hc := hr c rfl
          simp [readExponent, hc.2.2.1, hc.2.2.2]
  | signed h negative ds =>
      obtain ⟨hne, hd⟩ := he _ rfl
      have hread := readDigits_append hne hd fun c hc => (hr c hc).1
      cases negative <;> simp [readExponent, readExponentDigits, hread, h]
  | unsigned h ds =>
      obtain ⟨hne, hd⟩ := he _ rfl
      have hread := readDigits_append hne hd fun c hc => (hr c hc).1
      obtain ⟨d, ds, rfl⟩ := List.exists_cons_of_ne_nil hne
      have hdigit := hd d List.mem_cons_self
      have hsign : d ≠ '+' ∧ d ≠ '-' := by
        constructor <;>
          · rintro rfl
            cases hdigit
      rw [List.cons_append] at hread ⊢
      simp [readExponent, readExponentDigits, hread, h, hsign]

namespace WellFormed

variable (h : l.WellFormed)

include h

theorem readFraction_append {after : List Char}
    (ha : ∀ c ∈ after.head?, c.isDigit = false ∧ c ≠ '.') :
    readFraction (l.fractionText ++ after) = some (l.fraction, after) := by
  rw [fractionText]
  cases hf : l.fraction with
  | none =>
      cases after with
      | nil => rfl
      | cons c cs =>
          have hc := (ha c rfl).2
          simp only [Option.elim_none, List.nil_append]
          unfold readFraction
          split
          · next heq => exact absurd (List.cons.inj heq).1 hc
          · rfl
  | some ds =>
      obtain ⟨hne, hd⟩ := h.fraction _ hf
      have hread := readDigits_append hne hd fun c hc => (ha c hc).1
      simp [readFraction, hread]

theorem readWhole_append {after : List Char}
    (ha : ∀ c ∈ after.head?, c.isDigit = false ∧ c ≠ '.') :
    readWhole (l.whole ++ (l.fractionText ++ after)) =
      some (l.whole, l.fractionText ++ after) := by
  have hend : ∀ c ∈ (l.fractionText ++ after).head?, c.isDigit = false := by
    rw [fractionText]
    cases l.fraction with
    | none => exact fun c hc => (ha c hc).1
    | some ds =>
        intro c hc
        obtain rfl := Option.some.inj hc
        rfl
  have hlead : ¬ (l.whole.head? = some '0' ∧ l.whole.length ≠ 1) := fun hc => hc.2 (h.leading hc.1)
  rw [readWhole, readDigits_append h.whole.1 h.whole.2 hend]
  exact if_neg hlead

theorem readUnsigned_append {exponent : List Char} (he : SpellsExponent l.exponent exponent)
    (negative : Bool) {rest : List Char} (hr : Ends rest) :
    readUnsigned negative (l.whole ++ (l.fractionText ++ (exponent ++ rest))) =
      some (.number { l with negative := negative }, rest) := by
  rw [readUnsigned, h.readWhole_append (he.head? hr)]
  dsimp only [bind, Option.bind]
  rw [h.readFraction_append (he.head? hr)]
  dsimp only
  rw [he.readExponent_append h.exponent hr]

end WellFormed

namespace Spells

variable {cs : List Char} (h : l.Spells cs)

include h

/-- A number starts with a sign or a digit. -/
theorem exists_cons : ∃ c ds, cs = c :: ds ∧ (c = '-' ∨ c.isDigit = true) := by
  obtain ⟨exponent, -, rfl⟩ := h.text
  obtain ⟨c, ds, hw⟩ := List.exists_cons_of_ne_nil h.wellFormed.whole.1
  rw [Layout.signText]
  split
  · exact ⟨_, _, rfl, .inl rfl⟩
  · rw [hw]
    exact ⟨_, _, rfl, .inr (h.wellFormed.whole.2 c (by simp [hw]))⟩

/-- A literal is read back from its texts. -/
theorem readNumber_append {rest : List Char} (hr : Ends rest) :
    readNumber (cs ++ rest) = some (.number l, rest) := by
  obtain ⟨exponent, he, rfl⟩ := h.text
  have hread := h.wellFormed.readUnsigned_append he l.negative hr
  obtain ⟨c, ds, hw⟩ := List.exists_cons_of_ne_nil h.wellFormed.whole.1
  rw [Layout.signText]
  simp only [List.append_assoc]
  cases hn : l.negative with
  | true =>
      rw [hn] at hread
      exact hread.trans (by rw [← hn])
  | false =>
      rw [hn] at hread
      have hminus : c ≠ '-' := by
        have hc := h.wellFormed.whole.2 c (by simp [hw])
        rintro rfl
        cases hc
      have hsame : readNumber (l.whole ++ (l.fractionText ++ (exponent ++ rest))) =
          readUnsigned false (l.whole ++ (l.fractionText ++ (exponent ++ rest))) := by
        rw [hw, List.cons_append]
        unfold readNumber
        split
        · next heq => exact absurd (List.cons.inj heq).1 hminus
        · rfl
      exact (hsame.trans hread).trans (by rw [← hn])

end Spells

end Literal

end Json

/-! ## Digits of numbers -/

/-- The digits of a positive number do not start with a zero. -/
theorem head?_toDigits_ne {n : Nat} (h : 0 < n) : (Nat.toDigits 10 n).head? ≠ some '0' := by
  induction n using Nat.strongRecOn with
  | ind n ih =>
      by_cases hn : n < 10
      · have hdigit : ∀ k < 10, 0 < k → [k.digitChar].head? ≠ some '0' := by decide
        rw [Nat.toDigits_of_lt_base hn]
        exact hdigit n hn h
      · rw [Nat.toDigits_of_base_le (by decide) (Nat.not_lt.1 hn), List.head?_append]
        have hrec := ih (n / 10) (by omega) (by omega)
        cases hd : (Nat.toDigits 10 (n / 10)).head? with
        | none => exact absurd (List.head?_eq_none_iff.1 hd) Nat.toDigits_ne_nil
        | some c =>
            rw [hd] at hrec
            exact hrec

theorem isDigit_toDigits {n : Nat} {c : Char} (h : c ∈ Nat.toDigits 10 n) : c.isDigit = true :=
  Nat.isDigit_of_mem_toDigits (by decide) le_rfl h

/-- Digits of a whole number: there are some, and no zero stands before others. -/
structure IsWhole (ds : List Char) : Prop where
  ne_nil : ds ≠ []
  isDigit : ∀ c ∈ ds, c.isDigit = true
  leading : ds.head? = some '0' → ds.length = 1

theorem isWhole_toDigits (n : Nat) : IsWhole (Nat.toDigits 10 n) where
  ne_nil := Nat.toDigits_ne_nil
  isDigit _ := isDigit_toDigits
  leading h := by
    obtain rfl | hn := Nat.eq_zero_or_pos n
    · rfl
    · exact absurd h (head?_toDigits_ne hn)

theorem isWhole_zero : IsWhole ['0'] := isWhole_toDigits 0

namespace Json

/-- A non-negative integer as a literal. -/
def Literal.ofNat (n : Nat) : Literal := ⟨false, Nat.toDigits 10 n, none, none⟩

theorem Literal.wellFormed_ofNat (n : Nat) : (Literal.ofNat n).WellFormed where
  whole := ⟨(isWhole_toDigits n).ne_nil, (isWhole_toDigits n).isDigit⟩
  leading := (isWhole_toDigits n).leading
  fraction := nofun
  exponent := nofun

theorem Literal.spelling_ofNat (n : Nat) : (Literal.ofNat n).spelling = Nat.toDigits 10 n := by
  simp [spelling, magnitudeText, fractionText, exponentText, Layout.signText, ofNat]

theorem Literal.toSize?_ofNat {n : Nat} (h : n < Nat.pow 2 64) :
    (Literal.ofNat n).toSize? = some n := by
  have hn : Nat.ofDigitChars 10 (Nat.toDigits 10 n) 0 = n := Nat.ofDigitChars_ten_toDigits
  simpa [toSize?, integer?, ofNat, hn] using h

end Json

/-! ## Decimals -/

namespace Decimal

open Json

variable (d : Decimal)

theorem head?_digitText_ne {d : Decimal} (h : 0 < d.digits) : d.digitText.head? ≠ some '0' :=
  head?_toDigits_ne h

/-- The digits of a decimal start with a zero only if it has no others. -/
theorem leading_digitText {d : Decimal} (h : d.digitText.head? = some '0') :
    d.digits = 0 ∧ d.digitText = ['0'] := by
  obtain hd | hd := Nat.eq_zero_or_pos d.digits
  · exact ⟨hd, by rw [digitText, hd]; rfl⟩
  · exact absurd h (head?_digitText_ne hd)

/-- A decimal without an exponent is a whole number, a point and more digits, unless it is zero with
places. The digits stand for the same ratio. -/
theorem exists_digits_positional (h : d.digits = 0 → d.exponent = 0) :
    ∃ ds fs, IsWhole ds ∧ (fs ≠ [] ∧ ∀ c ∈ fs, c.isDigit = true) ∧
      d.positional true = ds ++ '.' :: fs ∧
      (ofDigits ds fs).numerator * d.denominator = d.numerator * (ofDigits ds fs).denominator := by
  have hwhole : IsWhole d.digitText := isWhole_toDigits d.digits
  have hv := d.ofDigitChars_digitText
  -- Where the digits stay the same and the places are counted, the decimal is the same.
  have hsame : ∀ {ds fs : List Char}, Nat.ofDigitChars 10 (ds ++ fs) 0 = d.digits →
      d.exponent = -(fs.length : Int) →
      (ofDigits ds fs).numerator * d.denominator =
        d.numerator * (ofDigits ds fs).denominator := by
    intro ds fs hdigits hexponent
    rw [ofDigits, hdigits, ← hexponent]
  unfold positional
  generalize hplaces : (-d.exponent).toNat = places
  dsimp only
  split
  · next hp =>
      refine ⟨d.digitText ++ zeros d.exponent.toNat, ['0'], ⟨?_, ?_, fun hl => ?_⟩, by simp, rfl, ?_⟩
      · simp [hwhole.ne_nil]
      · exact fun c hc => (List.mem_append.1 hc).elim (hwhole.isDigit c) isDigit_zeros
      · rw [List.head?_append_of_ne_nil _ hwhole.ne_nil] at hl
        obtain ⟨h0, hone⟩ := leading_digitText hl
        rw [hone, h h0]
        rfl
      · have hvalue : Nat.ofDigitChars 10 (d.digitText ++ zeros d.exponent.toNat ++ ['0']) 0 =
            d.digits * 10 ^ d.exponent.toNat * 10 := by
          rw [Nat.ofDigitChars_append, Nat.ofDigitChars_append, hv, zeros,
            Nat.ofDigitChars_replicate_zero, mul_comm _ d.digits]
          simp [Nat.ofDigitChars, mul_comm]
        rw [ofDigits, hvalue]
        simp [numerator, denominator, hplaces, hp]
  · next hp =>
      split
      · next hlt =>
          have hcut := List.take_append_drop (d.digitText.length - places) d.digitText
          refine ⟨_, _, ⟨?_, fun c hc => hwhole.isDigit c (List.mem_of_mem_take hc), fun hl => ?_⟩,
            ⟨?_, fun c hc => hwhole.isDigit c (List.mem_of_mem_drop hc)⟩, rfl, hsame ?_ ?_⟩
          · rw [ne_eq, List.take_eq_nil_iff]
            simp only [hwhole.ne_nil, or_false]
            omega
          · rw [List.head?_take, if_neg (by omega)] at hl
            obtain ⟨-, hone⟩ := leading_digitText hl
            rw [hone, List.length_singleton] at hlt
            omega
          · rw [ne_eq, List.drop_eq_nil_iff]
            omega
          · rw [hcut, hv]
          · rw [List.length_drop]
            omega
      · next hge =>
          have hz : ['0'] ++ (zeros (places - d.digitText.length) ++ d.digitText) =
              zeros (places - d.digitText.length + 1) ++ d.digitText := rfl
          refine ⟨['0'], zeros (places - d.digitText.length) ++ d.digitText, isWhole_zero,
            ⟨by simp [hwhole.ne_nil], fun c hc => ?_⟩, rfl, hsame ?_ ?_⟩
          · exact (List.mem_append.1 hc).elim isDigit_zeros (hwhole.isDigit c)
          · rw [hz, Nat.ofDigitChars_append, zeros, Nat.ofDigitChars_replicate_zero, Nat.mul_zero,
              hv]
          · rw [List.length_append, zeros, List.length_replicate]
            omega

/-- A decimal without an exponent is the text of a literal, unless it is zero with places. -/
theorem exists_literal_positional (h : d.digits = 0 → d.exponent = 0) :
    ∃ l : Literal, l.WellFormed ∧ d.positional true = l.magnitudeText := by
  obtain ⟨ds, fs, hds, hfs, htext, -⟩ := d.exists_digits_positional h
  refine ⟨⟨false, ds, some fs, none⟩, ⟨⟨hds.ne_nil, hds.isDigit⟩, hds.leading, ?_, nofun⟩, ?_⟩
  · intro fs' hfs'
    obtain rfl := Option.some.inj hfs'
    exact hfs
  · simp [htext, Literal.magnitudeText, Literal.fractionText, Literal.exponentText]

theorem exists_literal_scientific :
    ∃ l : Literal, l.WellFormed ∧ d.scientific true = l.magnitudeText := by
  have hd : ∀ c ∈ d.digitText, c.isDigit = true := fun c => d.isDigit_digitText
  obtain ⟨c, cs, hc⟩ := List.exists_cons_of_ne_nil d.digitText_ne_nil
  refine ⟨⟨false, [c], if cs = [] then none else some cs,
    some (decide (d.leading < 0), Nat.toDigits 10 d.leading.natAbs)⟩, ?_, ?_⟩
  · refine ⟨⟨by simp, ?_⟩, fun _ => rfl, ?_, ?_⟩
    · intro c' hc'
      obtain rfl := List.mem_singleton.1 hc'
      exact hd _ (by simp [hc])
    · intro ds hds
      by_cases hcs : cs = []
      · simp [hcs] at hds
      · obtain rfl : cs = ds := by simpa [hcs] using hds
        exact ⟨hcs, fun c' hc' => hd c' (by simp [hc, hc'])⟩
    · intro e he
      obtain rfl := Option.some.inj he
      exact ⟨Nat.toDigits_ne_nil, fun _ => isDigit_toDigits⟩
  · by_cases hcs : cs = [] <;>
      by_cases hl : d.leading < 0 <;>
      simp [scientific, hc, hcs, hl, Literal.magnitudeText, Literal.fractionText,
        Literal.exponentText]

/-- The shortest decimal of zero has no places. -/
theorem exponent_shortest {f : Format} {tie : Tie} {p : Nat} (hp : p < f.infinity)
    (h : (shortest f tie p).digits = 0) : (shortest f tie p).exponent = 0 := by
  have hback := toPattern_shortest tie hp
  rw [toPattern, numerator, h, Nat.zero_mul, Format.nearest, if_pos rfl] at hback
  rw [← hback]
  rfl

end Decimal

/-! ## Elements -/

namespace Json

variable {α : Type} [Element α]

theorem lt_infinity_of_decode {f : Format} {bits m : Nat} {negative : Bool} {e : Int}
    (h : f.decode bits = .finite negative m e) : bits % f.signBit < f.infinity := by
  unfold Format.decode at h
  dsimp only at h
  split at h
  · cases h
  · split at h
    · cases h
    · omega

/-- The text of an element that stands for a number is the spelling of a literal. -/
theorem exists_literal {x : α} (h : Element.IsFinite x) :
    ∃ l : Literal, l.WellFormed ∧ elementText x = l.spelling := by
  obtain ⟨negative, m, e, hd⟩ := h
  have hlt := lt_infinity_of_decode hd
  rw [elementText, Layout.text, hd]
  dsimp only
  generalize Element.bits x % (Element.width α).format.signBit = p at hlt
  have hmagnitude : ∃ l : Literal, l.WellFormed ∧
      (Layout.json (Element.width α)).magnitudeText
        (Decimal.shortest (Element.width α).format (Layout.json (Element.width α)).tie p) =
        l.magnitudeText := by
    rw [Layout.magnitudeText]
    split
    · exact Decimal.exists_literal_positional _ (Decimal.exponent_shortest hlt)
    · exact Decimal.exists_literal_scientific _
  obtain ⟨l, hl, ht⟩ := hmagnitude
  refine ⟨{ l with negative := negative }, ⟨hl.whole, hl.leading, hl.fraction, hl.exponent⟩, ?_⟩
  rw [ht]
  rfl

theorem elementText_of_not_isFinite {x : α} (h : ¬ Element.IsFinite x) :
    elementText x = "null".toList := by
  rw [elementText, Layout.text]
  split
  · rfl
  · next negative _ => cases negative <;> rfl
  · next negative m e hd => exact absurd ⟨negative, m, e, hd⟩ h

end Json

end TensorFormula
