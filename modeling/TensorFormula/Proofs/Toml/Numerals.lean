import TensorFormula.Engine.Settings
import TensorFormula.Proofs.Json.NumberText
import TensorFormula.Proofs.Number.Nearest
import TensorFormula.Proofs.Number.Unpacking
import TensorFormula.Proofs.Toml.Assignments

/-!
# Numbers as TOML words

A word of digits is an integer, and digits around a point are the double nearest to the decimal that
they stand for. Neither can be taken for a date, a time or a name, because a date needs a dash behind
its first digits and a time a colon. A finite double is therefore written as a word that stands for
that very double.
-/

namespace TensorFormula

open Binary

theorem Decimal.scale_zero (d : Decimal) : d.scale 0 = d := by
  unfold Decimal.scale
  dsimp only
  rw [min_eq_left (by omega), max_eq_right (by omega), add_zero]

namespace Toml

/-! ## No dates and times -/

theorem eq_drop_of_fixedDigits? {n k : Nat} {cs rest : List Char}
    (h : fixedDigits? n cs = some (k, rest)) : rest = cs.drop n := by
  unfold fixedDigits? at h
  dsimp only at h
  split at h
  · exact (Prod.mk.inj (Option.some.inj h)).2.symm
  · cases h

theorem mem_of_expect? {c : Char} {cs rest : List Char} (h : expect? c cs = some rest) : c ∈ cs := by
  cases cs with
  | nil => cases h
  | cons d ds =>
      rw [expect?] at h
      split at h
      · next hc =>
          obtain rfl := hc
          exact List.mem_cons_self
      · cases h

/-- A date has a dash behind its year. -/
theorem date?_eq_none {cs : List Char} (h : '-' ∉ cs.drop 1) : date? cs = none := by
  unfold date?
  cases hy : fixedDigits? 4 cs with
  | none => rfl
  | some y =>
      obtain ⟨n, rest⟩ := y
      obtain rfl := eq_drop_of_fixedDigits? hy
      cases hd : expect? '-' (cs.drop 4) with
      | none => simp [hd]
      | some _ =>
          have hmem : '-' ∈ (cs.drop 1).drop 3 := by
            rw [List.drop_drop]
            exact mem_of_expect? hd
          exact absurd (List.mem_of_mem_drop hmem) h

/-- A time has a colon behind its hour. -/
theorem time?_eq_none {cs : List Char} (h : ':' ∉ cs) : time? cs = none := by
  unfold time? hourMinute?
  cases hh : fixedDigits? 2 cs with
  | none => rfl
  | some x =>
      obtain ⟨n, rest⟩ := x
      obtain rfl := eq_drop_of_fixedDigits? hh
      cases hc : expect? ':' (cs.drop 2) with
      | none => simp [hc]
      | some _ => exact absurd (List.mem_of_mem_drop (mem_of_expect? hc)) h

theorem isMoment_eq_false {cs : List Char} (hdash : '-' ∉ cs.drop 1) (hcolon : ':' ∉ cs) :
    isMoment cs = false := by
  unfold isMoment
  rw [date?_eq_none hdash, time?_eq_none hcolon]
  rfl

/-! ## Digits -/

theorem ungroup_digits {ds : List Char} (hne : ds ≠ []) (hd : ∀ c ∈ ds, c.isDigit = true) :
    ungroup Char.isDigit ds = some ds := by
  fun_induction ungroup Char.isDigit ds with
  | case1 => exact absurd rfl hne
  | case2 c hc => rfl
  | case3 c hc => exact absurd (hd c List.mem_cons_self) hc
  | case4 c cs hc ih => exact absurd (hd '_' (by simp)) (by decide)
  | case5 c cs hc => exact absurd (hd c List.mem_cons_self) hc
  | case6 c cs hcs _ hc ih =>
      rw [ih (by simpa using hcs) fun d hd' => hd d (List.mem_cons_of_mem c hd')]
      rfl
  | case7 c cs _ _ hc => exact absurd (hd c List.mem_cons_self) hc

theorem decimalDigits?_of_isWhole {ds : List Char} (h : IsWhole ds) :
    decimalDigits? ds = some ds := by
  unfold decimalDigits?
  split
  · rfl
  · next cs hne =>
      have hone := h.leading rfl
      rw [List.length_cons, Nat.add_eq_right, List.length_eq_zero_iff] at hone
      exact absurd (hone ▸ rfl) hne
  · exact ungroup_digits h.ne_nil h.isDigit

theorem splitSign_of_isDigit {ds : List Char} (hd : ∀ c ∈ ds, c.isDigit = true)
    (rest : List Char) (hne : ds ≠ []) : splitSign (ds ++ rest) = (false, ds ++ rest) := by
  obtain ⟨c, cs, rfl⟩ := List.exists_cons_of_ne_nil hne
  have hc := hd c List.mem_cons_self
  rw [List.cons_append]
  unfold splitSign
  split
  · next heq => exact absurd (List.cons.inj heq).1 (ne_of_class hc rfl)
  · next heq => exact absurd (List.cons.inj heq).1 (ne_of_class hc rfl)
  · rfl

/-! ## Words -/

theorem not_isExponentMark {c : Char} (h : c = '.' ∨ c.isDigit = true) :
    (!isExponentMark c) = true := by
  obtain rfl | h := h
  · rfl
  · have he : c ≠ 'e' ∧ c ≠ 'E' := ⟨ne_of_class h rfl, ne_of_class h rfl⟩
    simpa [isExponentMark] using he

theorem bne_point {c : Char} (h : c.isDigit = true) : (c != '.') = true := by
  simpa using ne_of_class h rfl

/-- Digits, perhaps behind a minus and with a point and more digits behind them, are neither a name
nor a date or a time. -/
theorem scalar?_of_isWhole (negative : Bool) {ds : List Char} (hds : IsWhole ds)
    (tail : List Char) (htail : ∀ c ∈ tail, c = '.' ∨ c.isDigit = true) :
    scalar? (Layout.signText negative ++ (ds ++ tail)) =
      ((float? (Layout.signText negative ++ (ds ++ tail))).map .float).or
        ((integer? (Layout.signText negative ++ (ds ++ tail))).map .integer) := by
  have hmem : ∀ c ∈ ds ++ tail, c = '.' ∨ c.isDigit = true :=
    List.forall_mem_append.2 ⟨fun c hc => .inr (hds.isDigit c hc), htail⟩
  obtain ⟨c, cs, hc⟩ := List.exists_cons_of_ne_nil hds.ne_nil
  have hdigit : c.isDigit = true := hds.isDigit c (by simp [hc])
  have hdash : '-' ∉ (Layout.signText negative ++ (ds ++ tail)).drop 1 := by
    have hnot : '-' ∉ ds ++ tail := fun h => by simpa using hmem '-' h
    cases negative with
    | true => exact hnot
    | false => exact fun h => hnot (List.mem_of_mem_drop h)
  have hcolon : ':' ∉ Layout.signText negative ++ (ds ++ tail) := by
    intro h
    obtain h | h := List.mem_append.1 h
    · cases negative <;> simp [Layout.signText] at h
    · simpa using hmem ':' h
  unfold scalar?
  rw [isMoment_eq_false hdash hcolon]
  cases negative with
  | true => rfl
  | false =>
      split
      · next heq =>
          rw [hc] at heq
          exact absurd (List.cons.inj heq).1 (ne_of_class hdigit rfl)
      · next heq =>
          rw [hc] at heq
          exact absurd (List.cons.inj heq).1 (ne_of_class hdigit rfl)
      · rfl

/-! ## Integers -/

theorem decimal?_of_isDigit {ds : List Char} (hd : ∀ c ∈ ds, c.isDigit = true) :
    decimal? ds = none := by
  have hmark : ∀ c ∈ ds, (!isExponentMark c) = true := fun c hc =>
    not_isExponentMark (.inr (hd c hc))
  have hpoint : ∀ c ∈ ds, (c != '.') = true := fun c hc => bne_point (hd c hc)
  unfold decimal?
  simp only [List.takeWhile_eq_self_iff.2 hmark, List.dropWhile_eq_nil_iff.2 hmark,
    List.takeWhile_eq_self_iff.2 hpoint]
  rfl

theorem float?_of_isDigit {ds : List Char} (hne : ds ≠ []) (hd : ∀ c ∈ ds, c.isDigit = true) :
    float? ds = none := by
  have hsign := splitSign_of_isDigit hd [] hne
  rw [List.append_nil] at hsign
  unfold float?
  rw [hsign]
  dsimp only
  split
  · exact absurd (hd 'i' (by simp)) (by decide)
  · exact absurd (hd 'n' (by simp)) (by decide)
  · rw [decimal?_of_isDigit hd, Option.bind_none]

theorem integer?_of_isWhole {ds : List Char} (h : IsWhole ds)
    (hlt : Nat.ofDigitChars 10 ds 0 < Nat.pow 2 63) :
    integer? ds = some ↑(Nat.ofDigitChars 10 ds 0) := by
  have hsign := splitSign_of_isDigit h.isDigit [] h.ne_nil
  rw [List.append_nil] at hsign
  have hrange : inRange (Nat.ofDigitChars 10 ds 0) = true := by
    have hlt' : (Nat.ofDigitChars 10 ds 0 : Int) < Nat.pow 2 63 := Int.ofNat_lt.2 hlt
    rw [inRange, Bool.and_eq_true, decide_eq_true_eq, decide_eq_true_eq]
    exact ⟨by omega, hlt'⟩
  unfold integer?
  split
  · exact absurd (h.isDigit 'x' (by simp)) (by decide)
  · exact absurd (h.isDigit 'o' (by simp)) (by decide)
  · exact absurd (h.isDigit 'b' (by simp)) (by decide)
  · rw [hsign]
    simp [decimalDigits?_of_isWhole h, hrange]

/-- A whole number is an integer, if it fits 64 bits with their sign. -/
theorem scalar?_whole {ds : List Char} (h : IsWhole ds)
    (hlt : Nat.ofDigitChars 10 ds 0 < Nat.pow 2 63) :
    scalar? ds = some (.integer ↑(Nat.ofDigitChars 10 ds 0)) := by
  have hword := scalar?_of_isWhole false h [] (List.forall_mem_nil _)
  rw [List.append_nil] at hword
  have hnone : (float? ds).map Value.float = none := by
    rw [float?_of_isDigit h.ne_nil h.isDigit, Option.map_none]
  change scalar? ds = ((float? ds).map .float).or ((integer? ds).map .integer) at hword
  rw [hword, hnone, Option.none_or, integer?_of_isWhole h hlt, Option.map_some]

/-! ## Doubles -/

theorem decimal?_point {ds fs : List Char} (hds : IsWhole ds) (hfs : fs ≠ [])
    (hd : ∀ c ∈ fs, c.isDigit = true) :
    decimal? (ds ++ '.' :: fs) = some ((Decimal.ofDigits ds fs).scale 0) := by
  have hmark : ∀ c ∈ ds ++ '.' :: fs, (!isExponentMark c) = true :=
    List.forall_mem_append.2 ⟨fun c hc => not_isExponentMark (.inr (hds.isDigit c hc)),
      List.forall_mem_cons.2 ⟨rfl, fun c hc => not_isExponentMark (.inr (hd c hc))⟩⟩
  have hpoint : ∀ c ∈ ds, (c != '.') = true := fun c hc => bne_point (hds.isDigit c hc)
  have htake : (ds ++ '.' :: fs).takeWhile (· != '.') = ds := by
    rw [List.takeWhile_append_of_pos hpoint, List.takeWhile_cons_of_neg (by decide),
      List.append_nil]
  have hdrop : (ds ++ '.' :: fs).dropWhile (· != '.') = '.' :: fs := by
    rw [List.dropWhile_append_of_pos hpoint, List.dropWhile_cons_of_neg (by decide)]
  have hne : ds ≠ ds ++ '.' :: fs := by simp
  unfold decimal?
  simp only [List.takeWhile_eq_self_iff.2 hmark, List.dropWhile_eq_nil_iff.2 hmark, htake, hdrop,
    if_neg hne, decimalDigits?_of_isWhole hds, ungroup_digits hfs hd]
  rfl

theorem isInf_of_isFinite {x : Float} (h : Element.IsFinite x) : x.isInf = false := by
  have hfinite : x.toModel.unpack.isFinite = true := (double_isFinite_iff x).2 h
  change x.toModel.unpack.isInf = false
  cases hx : x.toModel.unpack with
  | infinity s =>
      rw [hx] at hfinite
      cases hfinite
  | notANumber | zero _ | finite _ _ _ _ => rfl

theorem float?_point {ds fs : List Char} (hds : IsWhole ds) (hfs : fs ≠ [])
    (hd : ∀ c ∈ fs, c.isDigit = true) {negative : Bool}
    (hx : Element.IsFinite ((Decimal.ofDigits ds fs).toDouble negative)) :
    float? (Layout.signText negative ++ (ds ++ '.' :: fs)) =
      some ((Decimal.ofDigits ds fs).toDouble negative) := by
  have hsign : splitSign (Layout.signText negative ++ (ds ++ '.' :: fs)) =
      (negative, ds ++ '.' :: fs) := by
    cases negative with
    | true => rfl
    | false => exact splitSign_of_isDigit hds.isDigit _ hds.ne_nil
  have hpoint : '.' ∈ ds ++ '.' :: fs := by simp
  have hdecimal := decimal?_point hds hfs hd
  unfold float?
  rw [hsign]
  dsimp only
  split
  · next heq => exact absurd (heq ▸ hpoint) (by decide)
  · next heq => exact absurd (heq ▸ hpoint) (by decide)
  · rw [hdecimal, Decimal.scale_zero, Option.bind_some, if_neg]
    simp [isInf_of_isFinite hx]

/-- Digits around a point are the double nearest to their decimal, if it is finite. -/
theorem scalar?_point {ds fs : List Char} (hds : IsWhole ds) (hfs : fs ≠ [])
    (hd : ∀ c ∈ fs, c.isDigit = true) {negative : Bool}
    (hx : Element.IsFinite ((Decimal.ofDigits ds fs).toDouble negative)) :
    scalar? (Layout.signText negative ++ (ds ++ '.' :: fs)) =
      some (.float ((Decimal.ofDigits ds fs).toDouble negative)) := by
  have htail : ∀ c ∈ '.' :: fs, c = '.' ∨ c.isDigit = true :=
    List.forall_mem_cons.2 ⟨.inl rfl, fun c hc => .inr (hd c hc)⟩
  rw [scalar?_of_isWhole negative hds _ htail, float?_point hds hfs hd hx]
  rfl

/-! ## Written doubles -/

theorem bits_eq_withSign {x : Float} {negative : Bool} {m : Nat} {e : Int}
    (h : Format.double.decode (Element.bits x) = .finite negative m e) :
    Element.bits x = Format.double.withSign negative (Element.bits x % Format.double.signBit) := by
  have hlt : Element.bits x < 2 * Format.double.signBit := x.toBits.toBitVec.isLt
  unfold Format.decode at h
  dsimp only at h
  split at h
  · cases h
  split at h
  · cases h
  obtain ⟨rfl, -, -⟩ := Value.finite.inj h
  unfold Format.withSign
  by_cases hs : Format.double.signBit ≤ Element.bits x
  · rw [if_pos (decide_eq_true hs), Nat.mod_eq_sub_mod hs, Nat.mod_eq_of_lt (by omega)]
    omega
  · rw [if_neg (by simpa using hs), Nat.mod_eq_of_lt (by omega)]

/-- A finite double is written with a point, as digits whose decimal is nearest to it. -/
theorem exists_digits_text {x : Float} (h : Element.IsFinite x) :
    ∃ negative ds fs, IsWhole ds ∧ (fs ≠ [] ∧ ∀ c ∈ fs, c.isDigit = true) ∧
      Layout.toml.text .double (Element.bits x) =
        Layout.signText negative ++ (ds ++ '.' :: fs) ∧
      (Decimal.ofDigits ds fs).toDouble negative = x := by
  obtain ⟨negative, m, e, hd⟩ := h
  change Format.double.decode (Element.bits x) = _ at hd
  have hlt := Json.lt_infinity_of_decode hd
  obtain ⟨ds, fs, hds, hfs, htext, hratio⟩ :=
    (Decimal.shortest .double .up (Element.bits x % Format.double.signBit)).exists_digits_positional
      (Decimal.exponent_shortest hlt)
  have hpattern : (Decimal.ofDigits ds fs).toPattern .double =
      Element.bits x % Format.double.signBit :=
    (Format.nearest_congr (by decide) (Nat.pow_pos (by decide)) (Nat.pow_pos (by decide))
      hratio).trans (Decimal.toPattern_shortest .up hlt)
  refine ⟨negative, ds, fs, hds, hfs, ?_, ?_⟩
  · unfold Layout.text
    rw [hd, ← htext]
    rfl
  · rw [Decimal.toDouble, hpattern, ← bits_eq_withSign hd, doubleOfBits_bits]

/-- The text of a finite double is a word that stands for that very double. -/
theorem scalar?_text {x : Float} (h : Element.IsFinite x) :
    scalar? (Layout.toml.text .double (Element.bits x)) = some (.float x) := by
  obtain ⟨negative, ds, fs, hds, hfs, htext, rfl⟩ := exists_digits_text h
  rw [htext, scalar?_point hds hfs.1 hfs.2 h]

end Toml

end TensorFormula
