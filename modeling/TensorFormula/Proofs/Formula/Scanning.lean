import Mathlib
import TensorFormula.Formula.Scan
import TensorFormula.Proofs.Number.PlainText

/-!
# Scanning piece by piece

A text is scanned as its first lexeme and then the rest, so a text that is put together from pieces
has the tokens of the pieces, if no piece ends in the middle of a lexeme.
-/

namespace TensorFormula

open Lexeme Text

/-! ## Characters -/

theorem isDigit_iff {c : Char} : c.isDigit = true ↔ 48 ≤ c.toNat ∧ c.toNat ≤ 57 :=
  Char.isDigit_iff_toNat

theorem toNat_of_isNameStart {c : Char} (h : isNameStart c = true) :
    65 ≤ c.toNat ∧ c.toNat ≤ 122 := by
  simp only [isNameStart, Char.isAlpha, Char.isUpper, Char.isLower, Bool.or_eq_true,
    decide_eq_true_eq, Bool.and_eq_true, ge_iff_le, UInt32.le_iff_toNat_le, beq_iff_eq] at h
  rcases h with (h | h) | rfl
  · exact ⟨h.1, Nat.le_trans h.2 (by decide)⟩
  · exact ⟨Nat.le_trans (by decide) h.1, h.2⟩
  · decide

theorem symbol?_of_isBlank {c : Char} (h : isBlank c = true) : symbol? c = none := by
  unfold symbol?
  split <;> first | rfl | exact absurd h (by decide)

theorem toNat_of_isBlank {c : Char} (h : isBlank c = true) : c.toNat < 33 ∨ 127 < c.toNat := by
  simp only [isBlank, blankRanges, List.any_cons, List.any_nil, Bool.or_eq_true, Bool.and_eq_true,
    decide_eq_true_eq, Bool.false_eq_true, or_false] at h
  omega

theorem tokensOf_of_isBlank {c : Char} (h : isBlank c = true) (more : List Char) :
    tokensOf c more = .error (.unknownSymbol c) := by
  have hc := toNat_of_isBlank h
  have hd : c.isDigit = false := by
    rw [Bool.eq_false_iff, ne_eq, isDigit_iff]
    omega
  have hp : c ≠ '%' := by
    rintro rfl
    exact absurd h (by decide)
  have hn : isNameStart c = false := by
    rw [Bool.eq_false_iff]
    intro hn
    have hr := toNat_of_isNameStart hn
    omega
  simp [tokensOf, hd, hp, hn, symbol?_of_isBlank h]

/-- A blank text has no tokens, if it can be scanned at all. -/
theorem eq_nil_of_scanFrom_blank {cs : List Char} (o : Nat) {ts : List Placed}
    (hb : cs.all isBlank = true) (h : scanFrom o cs = .ok ts) : ts = [] := by
  induction cs generalizing o with
  | nil =>
      rw [scanFrom] at h
      exact (Except.ok.inj h).symm
  | cons c cs ih =>
      rw [scanFrom] at h
      rw [List.all_cons, Bool.and_eq_true] at hb
      by_cases hs : isSeparator c = true
      · rw [if_pos hs] at h
        exact ih _ hb.2 h
      · rw [if_neg hs, tokensOf_of_isBlank hb.1] at h
        cases h

theorem eq_nil_of_scan_blank {cs : List Char} {ts : List Placed} (hb : cs.all isBlank = true)
    (h : scan cs = .ok ts) : ts = [] :=
  eq_nil_of_scanFrom_blank 0 hb h

/-! ## Pieces of a text -/

/-- Wherever `cs` stands before `rest`, its tokens are `ts`, and `rest` is scanned by itself. -/
def ScansBefore (rest cs : List Char) (ts : List Token) : Prop :=
  ∀ o, ∃ ps : List Placed, ps.map Placed.token = ts ∧
    scanFrom o (cs ++ rest) = (scanFrom (o + bytes cs) rest).map (ps ++ ·)

variable {rest cs cs' : List Char} {ts ts' : List Token}

theorem ScansBefore.nil : ScansBefore rest [] [] := by
  intro o
  refine ⟨[], rfl, ?_⟩
  cases h : scanFrom o rest <;> simp [h, Except.map]

theorem ScansBefore.append (h : ScansBefore (cs' ++ rest) cs ts) (h' : ScansBefore rest cs' ts') :
    ScansBefore rest (cs ++ cs') (ts ++ ts') := by
  intro o
  obtain ⟨ps, hp, hs⟩ := h o
  obtain ⟨ps', hp', hs'⟩ := h' (o + bytes cs)
  refine ⟨ps ++ ps', by rw [List.map_append, hp, hp'], ?_⟩
  rw [List.append_assoc, hs, hs', bytes_append, ← Nat.add_assoc]
  cases scanFrom (o + bytes cs + bytes cs') rest <;> simp [Except.map]

theorem ScansBefore.separator (rest : List Char) {c : Char} (hc : isSeparator c = true) :
    ScansBefore rest [c] [] := by
  intro o
  refine ⟨[], rfl, ?_⟩
  rw [List.singleton_append, scanFrom, if_pos hc, bytes_cons, bytes_nil, Nat.add_zero]
  cases scanFrom (o + c.utf8Size) rest <;> simp [Except.map]

theorem scanFrom_lexeme {c : Char} {more : List Char} {found : List (Nat × Token)}
    (hc : isSeparator c = false) (hf : further c (more ++ rest) = more.length)
    (ht : tokensOf c more = .ok found) (o : Nat) : scanFrom o (c :: more ++ rest) =
      (scanFrom (o + bytes (c :: more)) rest).map
        (found.map (fun t => ⟨t.2, o + t.1⟩) ++ ·) := by
  rw [List.cons_append, scanFrom, if_neg (by simp [hc]), hf, List.take_left, List.drop_left, ht]
  cases scanFrom (o + bytes (c :: more)) rest <;> simp [Except.map]

theorem scanFrom_refused {c : Char} {more : List Char} {problem : Problem}
    (hc : isSeparator c = false) (hf : further c (more ++ rest) = more.length)
    (ht : tokensOf c more = .error problem) (o : Nat) :
    scanFrom o (c :: more ++ rest) = .error (.malformed o problem) := by
  rw [List.cons_append, scanFrom, if_neg (by simp [hc]), hf, List.take_left, ht]

/-- A lexeme that ends where `rest` begins. -/
theorem ScansBefore.lexeme {c : Char} {more : List Char} (found : List (Nat × Token))
    (hc : isSeparator c = false) (hf : further c (more ++ rest) = more.length)
    (ht : tokensOf c more = .ok found) :
    ScansBefore rest (c :: more) (found.map Prod.snd) := by
  intro o
  refine ⟨found.map fun t => ⟨t.2, o + t.1⟩, by simp, ?_⟩
  exact scanFrom_lexeme hc hf ht o

theorem ScansBefore.scan_eq (h : ScansBefore [] cs ts) :
    ∃ ps, ps.map Placed.token = ts ∧ scan cs = .ok ps := by
  obtain ⟨ps, hp, hs⟩ := h 0
  refine ⟨ps, hp, ?_⟩
  rw [List.append_nil, scanFrom] at hs
  rw [scan, hs]
  simp [Except.map]

/-- No number, operand or name goes on into `rest`. -/
def Stops (rest : List Char) : Prop :=
  (∀ c ∈ rest.head?, isNamePart c = false) ∧ fractionLength rest = 0

theorem stops_nil : Stops [] := ⟨by simp, rfl⟩

theorem stops_cons {c : Char} (hc : isNamePart c = false) (hd : c ≠ '.') : Stops (c :: rest) := by
  refine ⟨by simpa using hc, ?_⟩
  unfold fractionLength
  split
  · next h => exact absurd (List.cons.inj h).1 hd
  · rfl

theorem stops_separators (hne : cs ≠ []) (h : cs.all isSeparator = true) (rest : List Char) :
    Stops (cs ++ rest) := by
  obtain ⟨c, cs, rfl⟩ := List.exists_cons_of_ne_nil hne
  rw [List.all_cons, Bool.and_eq_true] at h
  obtain ⟨hc, -⟩ := h
  have hstop : isNamePart c = false ∧ c ≠ '.' := by
    simp only [isSeparator, Bool.or_eq_true, beq_iff_eq] at hc
    rcases hc with (((rfl | rfl) | rfl) | rfl) | rfl <;> decide
  exact stops_cons hstop.1 hstop.2

theorem isNamePart_of_isDigit {c : Char} (h : c.isDigit = true) : isNamePart c = true := by
  simp [isNamePart, Char.isAlphanum, h]

theorem runLength_append {p : Char → Bool} (hp : ∀ c ∈ cs, p c = true)
    (hr : ∀ c ∈ rest.head?, p c = false) : runLength p (cs ++ rest) = cs.length := by
  rw [runLength, List.takeWhile_append_of_pos hp, List.length_append]
  cases rest with
  | nil => simp
  | cons c rest => simp [hr c rfl]

theorem Stops.not_digit (h : Stops rest) : ∀ c ∈ rest.head?, c.isDigit = false := by
  intro c hc
  have hn := h.1 c hc
  rw [Bool.eq_false_iff] at hn ⊢
  exact fun hd => hn (isNamePart_of_isDigit hd)

/-! ## Lexemes -/

theorem isSeparator_of_toNat {c : Char} (h : 33 ≤ c.toNat) : isSeparator c = false := by
  rw [Bool.eq_false_iff]
  intro hs
  simp only [isSeparator, Bool.or_eq_true, beq_iff_eq] at hs
  rcases hs with (((rfl | rfl) | rfl) | rfl) | rfl <;> exact absurd h (by decide)

theorem scansBefore_symbol (rest : List Char) {c : Char} {t : Token} (h : symbol? c = some t) :
    ScansBefore rest [c] [t] := by
  have hc : c.isDigit = false ∧ c ≠ '%' ∧ isNameStart c = false ∧ isSeparator c = false := by
    unfold symbol? at h
    split at h <;> first | decide | cases h
  obtain ⟨hd, hp, hn, hs⟩ := hc
  apply ScansBefore.lexeme [(0, t)] hs
  · simp [further, hd, hp, hn]
  · simp [tokensOf, hd, hp, hn, h]

theorem scansBefore_operand {i : Nat} (hi : i < Nat.pow 2 64) (h : Stops rest) :
    ScansBefore rest ('%' :: natText i) [.operand i] := by
  have hd : ∀ c ∈ natText i, c.isDigit = true := fun c hc =>
    Nat.isDigit_of_mem_toDigits (by decide) (by decide) hc
  have hv : Nat.ofDigitChars 10 (natText i) 0 = i := Nat.ofDigitChars_ten_toDigits
  have ht : operandToken (natText i) = .ok (.operand i) := by
    have hne : natText i ≠ [] := Nat.toDigits_ne_nil
    rw [operandToken, if_neg hne]
    simp only [hv, if_pos hi]
  apply ScansBefore.lexeme [(0, .operand i)] (by decide)
  · exact runLength_append hd h.not_digit
  · change (operandToken (natText i)).map _ = _
    rw [ht]
    rfl

theorem further_of_isDigit {c : Char} (hc : c.isDigit = true) : further c cs =
    runLength Char.isDigit cs + fractionLength (cs.drop (runLength Char.isDigit cs)) := by
  simp [further, hc]

/-- A number goes on as far as its literal does. -/
theorem further_literal {c : Char} {more : List Char} (hl : IsLiteral (c :: more))
    (h : Stops rest) : c.isDigit = true ∧ further c (more ++ rest) = more.length := by
  generalize he : c :: more = cs at hl
  cases hl with
  | whole hne hd =>
      subst he
      rw [List.forall_mem_cons] at hd
      refine ⟨hd.1, ?_⟩
      rw [further_of_isDigit hd.1, runLength_append hd.2 h.not_digit, List.drop_left, h.2,
        Nat.add_zero]
  | @fraction ds fs hne hd hne' hd' =>
      cases ds with
      | nil => exact absurd rfl hne
      | cons c' ds =>
          obtain ⟨rfl, rfl⟩ := List.cons.inj he
          rw [List.forall_mem_cons] at hd
          refine ⟨hd.1, ?_⟩
          have hn : runLength Char.isDigit (ds ++ '.' :: (fs ++ rest)) = ds.length :=
            runLength_append hd.2 (by simp)
          have hf : fractionLength ('.' :: (fs ++ rest)) = fs.length + 1 := by
            rw [fractionLength, runLength_append hd' h.not_digit, if_neg (by simpa using hne')]
          change further c (ds ++ '.' :: fs ++ rest) = (ds ++ '.' :: fs).length
          rw [List.append_assoc, List.cons_append, further_of_isDigit hd.1, hn, List.drop_left, hf,
            List.length_append, List.length_cons]

theorem scansBefore_number (hl : IsLiteral cs) (h : Stops rest) :
    ScansBefore rest cs [.number ((Decimal.ofLiteral cs).toDouble false)] := by
  match cs, hl with
  | [], hl =>
      generalize he : [] = cs at hl
      cases hl with
      | whole hne _ => exact absurd he.symm hne
      | fraction => simp at he
  | c :: more, hl =>
      obtain ⟨hd, hf⟩ := further_literal hl h
      have hs : isSeparator c = false := isSeparator_of_toNat (by
        have := isDigit_iff.1 hd
        omega)
      apply ScansBefore.lexeme [(0, .number ((Decimal.ofLiteral (c :: more)).toDouble false))] hs hf
      simp [tokensOf, hd]

theorem not_digit_of_isNameStart {c : Char} (hc : isNameStart c = true) :
    c.isDigit = false ∧ c ≠ '%' := by
  have hr := toNat_of_isNameStart hc
  constructor
  · rw [Bool.eq_false_iff, ne_eq, isDigit_iff]
    omega
  · rintro rfl
    exact absurd hc (by decide)

theorem further_of_isNameStart {c : Char} (hc : isNameStart c = true) (cs : List Char) :
    further c cs = runLength isNamePart cs := by
  obtain ⟨hd, hp⟩ := not_digit_of_isNameStart hc
  simp [further, hd, hp, hc]

theorem tokensOf_of_isNameStart {c : Char} (hc : isNameStart c = true) (more : List Char) :
    tokensOf c more = nameTokens (c :: more) := by
  obtain ⟨hd, hp⟩ := not_digit_of_isNameStart hc
  simp [tokensOf, hd, hp, hc]

/-- A name goes on as far as its characters do. -/
theorem further_name {c : Char} {more : List Char} (hc : isNameStart c = true)
    (hm : ∀ d ∈ more, isNamePart d = true) (h : Stops rest) :
    isSeparator c = false ∧ further c (more ++ rest) = more.length ∧
      tokensOf c more = nameTokens (c :: more) := by
  have hr := toNat_of_isNameStart hc
  refine ⟨isSeparator_of_toNat (by omega), ?_, tokensOf_of_isNameStart hc more⟩
  rw [further_of_isNameStart hc]
  exact runLength_append hm h.1

theorem scansBefore_word {t : Token} {c : Char} {more : List Char}
    (hc : isNameStart c = true) (hm : ∀ d ∈ more, isNamePart d = true)
    (ht : word? (c :: more) = some t) (h : Stops rest) :
    ScansBefore rest (c :: more) [t] := by
  obtain ⟨hs, hf, hn⟩ := further_name hc hm h
  apply ScansBefore.lexeme [(0, t)] hs hf
  rw [hn, nameTokens, ht]

/-- A text is refused at a name that is unknown. -/
theorem scanFrom_unknown {c : Char} {more : List Char} {problem : Problem}
    (hc : isNameStart c = true) (hm : ∀ d ∈ more, isNamePart d = true)
    (hu : nameTokens (c :: more) = .error problem) (h : Stops rest) (o : Nat) :
    scanFrom o (c :: more ++ rest) = .error (.malformed o problem) := by
  obtain ⟨hs, hf, hn⟩ := further_name hc hm h
  exact scanFrom_refused hs hf (hn.trans hu) o

end TensorFormula
