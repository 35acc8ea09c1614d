import TensorFormula.Proofs.Formula.Lexemes
import TensorFormula.Proofs.Number.Nearest

/-!
# What a lexeme stands for

A lexeme spells one token. The exception is a name that is unknown as a whole: it spells two tokens
if it is a known name with the operator `x` behind it or before it, and none otherwise. A percent
sign spells no token either without digits, or with digits that do not fit into 64 bits.
-/

namespace TensorFormula

open Binary Text

namespace Lexeme

variable {c : Char} {more w : List Char} {t : Token}

/-! ## Names -/

/-- The known names. -/
inductive Named : Token → List Char → Prop
  | times : Named (.operator .matmul) ['x']
  | function {op : Operation} (h : op ∈ Operation.functions) : Named (.function op) op.letters
  | suffix {op : Operation} (h : op ∈ Operation.suffixes) : Named (.suffix op) op.letters

/-- Two known names, one of them the operator `x`, that together are no known name. -/
structure Glued (w w' : List Char) (t t' : Token) : Prop where
  unknown : ∀ u, ¬ Named u (w ++ w')
  times : w = ['x'] ∨ w' = ['x']
  left : Named t w
  right : Named t' w'

theorem Named.isName (h : Named t w) : IsName w := by
  have hletters (op : Operation) : IsName op.letters := by
    obtain ⟨c, more, he, hc, hm⟩ := letters_eq op
    exact he ▸ .mk hc hm
  cases h with
  | times => exact .mk (by decide) (List.forall_mem_nil _)
  | function => exact hletters _
  | suffix => exact hletters _

theorem letters_of_find? {ops : List Operation} {op : Operation}
    (h : ops.find? (fun op => op.letters == w) = some op) : op.letters = w ∧ op ∈ ops := by
  have hletters := List.find?_some h
  exact ⟨eq_of_beq hletters, List.mem_of_find?_eq_some h⟩

theorem word?_eq_some_iff : word? w = some t ↔ Named t w := by
  constructor
  · intro h
    unfold word? at h
    split at h
    · next hw =>
        obtain rfl := Option.some.inj h
        exact hw ▸ .times
    · rw [Option.or_eq_some_iff, Option.map_eq_some_iff, Option.map_eq_some_iff] at h
      obtain ⟨op, hop, rfl⟩ | ⟨-, op, hop, rfl⟩ := h
      · obtain ⟨rfl, hmem⟩ := letters_of_find? hop
        exact .function hmem
      · obtain ⟨rfl, hmem⟩ := letters_of_find? hop
        exact .suffix hmem
  · intro h
    cases h with
    | times => rfl
    | @function op h =>
        have hfamily : ∀ op ∈ Operation.functions, op.family ≠ .shape := by decide
        rw [word?_letters, if_neg (hfamily op h)]
    | @suffix op h =>
        have hfamily : ∀ op ∈ Operation.suffixes, op.family = .shape := by decide
        rw [word?_letters, if_pos (hfamily op h)]

theorem word?_eq_none_iff : word? w = none ↔ ∀ t, ¬ Named t w := by
  simp only [Option.eq_none_iff_forall_ne_some, ne_eq, word?_eq_some_iff]

theorem utf8Size_of_isNamePart (h : isNamePart c = true) : c.utf8Size = 1 := by
  have hr : c.toNat ≤ 122 := by
    rw [isNamePart, Char.isAlphanum, Bool.or_right_comm, Bool.or_eq_true] at h
    obtain hn | hd := h
    · exact (toNat_of_isNameStart hn).2
    · exact (isDigit_iff.1 hd).2.trans (by decide)
  rw [Char.utf8Size_eq_one_iff, UInt32.le_iff_toNat_le]
  exact hr.trans (by decide)

theorem isNamePart_of_isNameStart (h : isNameStart c = true) : isNamePart c = true := by
  rw [isNamePart, Char.isAlphanum, Bool.or_right_comm, Bool.or_eq_true]
  exact .inl h

theorem IsName.all_isNamePart (h : IsName w) : ∀ c ∈ w, isNamePart c = true := by
  obtain ⟨hc, hm⟩ := h
  exact List.forall_mem_cons.2 ⟨isNamePart_of_isNameStart hc, hm⟩

theorem bytes_eq_length (h : ∀ c ∈ w, isNamePart c = true) : bytes w = w.length := by
  induction w with
  | nil => rfl
  | cons c w ih =>
      rw [List.forall_mem_cons] at h
      rw [bytes_cons, utf8Size_of_isNamePart h.1, ih h.2, List.length_cons, Nat.add_comm]

end Lexeme

/-! ## Tokens -/

open Lexeme

/-- The texts of a token. -/
inductive Token.SpelledBy : Token → List Char → Prop
  /-- The double is the one nearest to the number that is written. -/
  | number {v : Float} {w : List Char} {r : ℚ} (hr : Denotes w r)
      (hv : Format.double.Rounds r (Element.bits v)) : SpelledBy (.number v) w
  | operand {ds : List Char} (hne : ds ≠ []) (hd : ∀ c ∈ ds, c.isDigit = true)
      (hi : Nat.ofDigitChars 10 ds 0 < Nat.pow 2 64) :
      SpelledBy (.operand (Nat.ofDigitChars 10 ds 0)) ('%' :: ds)
  | operator (op : Operator) : SpelledBy (.operator op) [op.symbol]
  | openBracket : SpelledBy .openBracket ['(']
  | closeBracket : SpelledBy .closeBracket [')']
  | comma : SpelledBy .comma [',']
  | dot : SpelledBy .dot ['.']
  | name {t : Token} {w : List Char} (h : Named t w) : SpelledBy t w

namespace Lexeme

variable {c : Char} {more w : List Char} {t : Token}

/-- What a match of the patterns is read as. -/
inductive ReadAs (w : List Char) : Except Problem (List (Nat × Token)) → Prop
  | token {t : Token} (h : t.SpelledBy w) : ReadAs w (.ok [(0, t)])
  | glued {u u' : List Char} {t t' : Token} (he : w = u ++ u') (h : Glued u u' t t') :
      ReadAs w (.ok [(0, t), (bytes u, t')])
  | percent (h : w = ['%']) : ReadAs w (.error .operandDigitsMissing)
  | large {ds : List Char} (h : w = '%' :: ds)
      (hi : Nat.pow 2 64 ≤ Nat.ofDigitChars 10 ds 0) : ReadAs w (.error (.operandTooLarge w))
  | unknown (hw : IsName w) (h : ∀ t, ¬ Named t w)
      (hu : ∀ u u' t t', w = u ++ u' → ¬ Glued u u' t t') : ReadAs w (.error (.unknownName w))

theorem readAs_nameTokens (hw : IsName w) : ReadAs w (nameTokens w) := by
  unfold nameTokens
  cases hword : word? w with
  | some t => exact .token (.name (word?_eq_some_iff.1 hword))
  | none =>
      have hunknown := word?_eq_none_iff.1 hword
      dsimp only
      split
      · next t ht =>
          obtain ⟨hx, ht⟩ := Option.ite_none_right_eq_some.1 ht
          obtain ⟨u, rfl⟩ := List.getLast?_eq_some_iff.1 hx
          rw [List.dropLast_concat] at ht
          have hu := word?_eq_some_iff.1 ht
          have hlast : (u ++ ['x']).length - 1 = bytes u := by
            rw [bytes_eq_length hu.isName.all_isNamePart, List.length_append]
            rfl
          rw [hlast]
          exact .glued rfl ⟨hunknown, .inr rfl, hu, .times⟩
      · next hlast =>
          split
          · next t ht =>
              obtain ⟨hx, ht⟩ := Option.ite_none_right_eq_some.1 ht
              obtain ⟨u, rfl⟩ := List.head?_eq_some_iff.1 hx
              exact .glued (u := ['x']) rfl ⟨hunknown, .inl rfl, .times, word?_eq_some_iff.1 ht⟩
          · next hfirst =>
              refine .unknown hw hunknown ?_
              rintro u u' t t' rfl h
              obtain rfl | rfl := h.times
              · simp [word?_eq_some_iff.2 h.right] at hfirst
              · simp [word?_eq_some_iff.2 h.left] at hlast

theorem readAs_operand {ds : List Char} (hd : ∀ c ∈ ds, c.isDigit = true) :
    ReadAs ('%' :: ds) ((operandToken ds).map fun t => [(0, t)]) := by
  unfold operandToken
  split
  · next hnil => exact .percent (hnil ▸ rfl)
  · next hne =>
      dsimp only
      split
      · next hi => exact .token (.operand hne hd hi)
      · next hi => exact .large rfl (Nat.not_lt.1 hi)

theorem readAs_symbol (h : c ∈ symbols) : ReadAs [c] (tokensOf c []) := by
  simp only [symbols, List.mem_cons, List.not_mem_nil, or_false] at h
  rcases h with rfl | rfl | rfl | rfl | rfl | rfl | rfl | rfl
  · exact .token .openBracket
  · exact .token .closeBracket
  · exact .token .comma
  · exact .token .dot
  · exact .token (.operator .add)
  · exact .token (.operator .sub)
  · exact .token (.operator .mul)
  · exact .token (.operator .div)

theorem readAs_literal (h : IsLiteral (c :: more)) : ReadAs (c :: more) (tokensOf c more) := by
  obtain ⟨hd, -⟩ := further_literal h stops_nil
  obtain ⟨r, hr⟩ := exists_denotes h
  rw [tokensOf, if_pos hd]
  exact .token (.number hr hr.rounds)

/-- Every match of the patterns is read as what it spells, or refused for what it is. -/
theorem readAs_tokensOf (h : IsLexeme (c :: more)) : ReadAs (c :: more) (tokensOf c more) := by
  generalize he : c :: more = w at h
  cases h with
  | number h =>
      subst he
      exact readAs_literal h
  | operand hd =>
      obtain ⟨rfl, rfl⟩ := List.cons.inj he
      exact readAs_operand hd
  | name h =>
      obtain ⟨hc, hm⟩ := h
      obtain ⟨rfl, rfl⟩ := List.cons.inj he
      rw [tokensOf_of_isNameStart hc]
      exact readAs_nameTokens (.mk hc hm)
  | symbol h =>
      obtain ⟨rfl, rfl⟩ := List.cons.inj he
      exact readAs_symbol h

theorem tokensOf_of_not_starts (hc : ¬ Starts c) (more : List Char) :
    tokensOf c more = .error (.unknownSymbol c) := by
  have hsymbol : symbol? c = none := by
    unfold symbol?
    split <;> first | rfl | exact absurd (by decide) fun h => hc (.inr (.inr (.inr h)))
  simp only [Starts, not_or] at hc
  simp [tokensOf, hc.1, hc.2.1, hc.2.2.1, hsymbol]

end Lexeme

end TensorFormula
