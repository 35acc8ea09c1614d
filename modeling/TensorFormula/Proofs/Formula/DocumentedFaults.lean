import TensorFormula.Proofs.Formula.Blame
import TensorFormula.Proofs.Formula.CanonicalText
import TensorFormula.Proofs.Memory.Registry
import TensorFormula.Proofs.Memory.Room

/-!
# The faults of an accepted formula

When all its operands are there, an accepted formula fails only in the ways that are documented:
for the arguments of a call, for shapes that an operator does not take, or for a shape that a suffix
does not take. Evaluating it over blocks by the standard registry adds no other way, since every
operation is registered and every buffer has the elements that its sizes call for.
-/

namespace TensorFormula

variable {α : Type} [Element α] {xs : List (Tensor α)} {formula : String} {n : Node}

theorem ok_or_mayRaise_of_parse (slope : α) (h : parse formula = .ok n)
    (hx : ∀ i ∈ n.indices, i < xs.length) :
    (∃ t, n.evaluate xs slope = .ok t) ∨
      ∃ f, n.evaluate xs slope = .error f ∧ n.MayRaise f := by
  cases he : n.evaluate xs slope with
  | ok t => exact .inl ⟨t, rfl⟩
  | error f =>
      obtain hf | ⟨i, hi, hle, -⟩ := Node.blames_of_evaluate n (linked_of_parse h) he
      · exact .inr ⟨f, rfl, hf⟩
      · exact absurd (hx i hi) (Nat.not_lt.2 hle)

/-- An accepted formula on enough operands has a value, or a part of it raises one of its faults. By
the standard registry the outcome is the same, the value being a sound block, unless an operand is
so large that a product of sizes does not fit in a word. -/
theorem fails_only_as_documented (formula : String) (n : Node) (xs : List (Tensor α)) (slope : α)
    (h : parse formula = .ok n) (hx : ∀ i ∈ n.indices, i < xs.length) :
    ((∃ t, n.evaluate xs slope = .ok t) ∨
      ∃ f, n.evaluate xs slope = .error f ∧ n.MayRaise f) ∧
    ((∃ t, n.evaluate xs slope = .ok t ∧
        (Registry.standard slope).evaluate (xs.map Tensor.block) n = .ok t.block ∧
        t.block.Sound) ∨
      (∃ f, n.evaluate xs slope = .error f ∧
        (Registry.standard slope).evaluate (xs.map Tensor.block) n =
          .error (.fault (.formula f)) ∧
        n.MayRaise f) ∨
      (Registry.standard slope).evaluate (xs.map Tensor.block) n = .error (.trap .oversize) ∧
        ∃ x ∈ xs, ∃ d ∈ x.shape.dims, Nat.pow 2 32 ≤ d) := by
  have htensors := ok_or_mayRaise_of_parse slope h hx
  refine ⟨htensors, ?_⟩
  rw [Registry.evaluate_standard]
  obtain hsame | ⟨htrap, hlarge⟩ := Block.evaluate_cases xs slope n
  · rw [hsame]
    obtain ⟨t, ht⟩ | ⟨f, hf, hm⟩ := htensors
    · rw [ht]
      exact .inl ⟨t, rfl, rfl, (Block.sound_iff _).2 ⟨t, rfl⟩⟩
    · rw [hf]
      exact .inr (.inl ⟨f, rfl, rfl, hm⟩)
  · rw [htrap]
    exact .inr (.inr ⟨rfl, hlarge⟩)

/-- The tree of `Dsigmoid(%0 x %1).v / leakyReLu(%1, max(%0))`. -/
def sampleRefusal : Node :=
  .chain .product
    [.apply .vector [.apply .dSigmoid [.chain .product [.operand 0, .operand 1] [.matmul]]],
      .apply .leakyRelu [.operand 1, .apply .max [.operand 0]]]
    [.div]

theorem parse_sampleRefusal : parse sampleRefusal.toText = .ok sampleRefusal := by
  have hw : sampleRefusal.WellFormed := by
    simp [sampleRefusal, Node.WellFormed, Node.AllWellFormed, Rank.of, Operation.family]
  exact hw.parse_toText.1 (by decide)

def samplePerceptron : List (Tensor Float) :=
  [⟨.matrix 3 5, Array.replicate 15 2, by decide, rfl⟩,
    ⟨.matrix 5 3, Array.replicate 15 (-1), by decide, rfl⟩]

/-- A product of three rows and columns is no vector. -/
theorem fails_only_as_documented_vector :
    parse sampleRefusal.toText = .ok sampleRefusal ∧
    sampleRefusal.toText = "Dsigmoid(%0 x %1).v / leakyReLu(%1, max(%0))" ∧
    (∀ i ∈ sampleRefusal.indices, i < samplePerceptron.length) ∧
    sampleRefusal.MayRaise (.tensor (.unsupported .vector (.matrix 3 3))) ∧
    sampleRefusal.evaluate samplePerceptron 0.1 =
      .error (.tensor (.unsupported .vector (.matrix 3 3))) ∧
    (Registry.standard (0.1 : Float)).evaluate (samplePerceptron.map Tensor.block) sampleRefusal =
      .error (.fault (.formula (.tensor (.unsupported .vector (.matrix 3 3))))) := by
  have hx : ∀ i ∈ sampleRefusal.indices, i < samplePerceptron.length := by decide
  have he : sampleRefusal.evaluate samplePerceptron 0.1 =
      .error (.tensor (.unsupported .vector (.matrix 3 3))) := rfl
  refine ⟨parse_sampleRefusal, rfl, hx, ?_⟩
  obtain ⟨-, ⟨t, ht, -⟩ | ⟨f, hf, hr, hm⟩ | ⟨-, x, hxs, d, hd, hlarge⟩⟩ :=
    fails_only_as_documented _ sampleRefusal samplePerceptron 0.1 parse_sampleRefusal hx
  · cases he.symm.trans ht
  · obtain rfl := Except.error.inj (he.symm.trans hf)
    exact ⟨hm, he, hr⟩
  · have hsmall : ∀ x ∈ samplePerceptron, ∀ d ∈ x.shape.dims, d < Nat.pow 2 32 := by decide
    exact absurd (hsmall x hxs d hd) (Nat.not_lt.2 hlarge)

end TensorFormula
