import TensorFormula.Proofs.Formula.Blame
import TensorFormula.Proofs.Formula.CanonicalText

/-!
# How many operands a formula needs

The highest operand of a tree tells how many operands it takes. With fewer, the evaluation of an
accepted formula fails, although perhaps for another reason; with more, none is ever missing, and
only those that the tree mentions matter.
-/

namespace TensorFormula

/-! ## The highest operand -/

theorem max?_append (xs ys : List Nat) :
    (xs ++ ys).max? = Option.merge max xs.max? ys.max? := by
  induction xs with
  | nil => cases hy : ys.max? <;> simp [Option.merge, hy]
  | cons x xs ih =>
      rw [List.cons_append, List.max?_cons, ih, List.max?_cons]
      cases xs.max? with
      | none => cases ys.max? <;> simp [Option.merge]
      | some m => cases ys.max? <;> simp [Option.merge, Nat.max_assoc]

namespace Node

mutual

theorem highestOperand?_eq : (n : Node) → n.highestOperand? = n.indices.max?
  | constant _ => rfl
  | operand _ => rfl
  | negate n => highestOperand?_eq n
  | chain _ ns _ => highestOperandOf?_eq ns
  | apply _ ns => highestOperandOf?_eq ns

theorem highestOperandOf?_eq : (ns : List Node) → highestOperandOf? ns = (indicesOf ns).max?
  | [] => rfl
  | n :: ns => by
      rw [highestOperandOf?, highestOperand?_eq n, highestOperandOf?_eq ns, indicesOf, max?_append]

end

theorem highestOperand?_eq_some_iff {n : Node} {k : Nat} :
    n.highestOperand? = some k ↔ k ∈ n.indices ∧ ∀ i ∈ n.indices, i ≤ k := by
  rw [highestOperand?_eq, List.max?_eq_some_iff]

/-- More operands than the highest index are operands for all indices. -/
theorem lt_highestOperand?_iff {n : Node} {count : Nat} :
    (∀ k ∈ n.highestOperand?, k < count) ↔ ∀ i ∈ n.indices, i < count := by
  constructor
  · intro h i hi
    cases hk : n.highestOperand? with
    | none =>
        rw [highestOperand?_eq, List.max?_eq_none_iff] at hk
        rw [hk] at hi
        cases hi
    | some k => exact Nat.lt_of_le_of_lt ((highestOperand?_eq_some_iff.1 hk).2 i hi) (h k hk)
  · exact fun h k hk => h k (highestOperand?_eq_some_iff.1 hk).1

end Node

variable {α : Type} [Element α] {xs ys : List (Tensor α)} {slope : α} {formula : String} {n : Node}

/-! ## Missing operands -/

theorem Node.Raises.ne_operandMissing {f : FormulaFault} (h : n.Raises f) (i available : Nat) :
    f ≠ .operandMissing i available := by
  cases h <;> nofun

/-- An operand is missing only if the tree mentions it, and then the fault tells which one it was
and how many there were. -/
theorem missing_of_evaluate {i available : Nat} (h : parse formula = .ok n)
    (he : n.evaluate xs slope = .error (.operandMissing i available)) :
    i ∈ n.indices ∧ available = xs.length ∧ available ≤ i := by
  obtain ⟨m, -, hm⟩ | ⟨j, hj, hle, hf⟩ := Node.blames_of_evaluate n (linked_of_parse h) he
  · exact absurd rfl (hm.ne_operandMissing i available)
  · obtain ⟨rfl, rfl⟩ := FormulaFault.operandMissing.inj hf
    exact ⟨hj, rfl, hle⟩

theorem evaluate_congr_of_agree (hx : ∀ i ∈ n.indices, i < xs.length)
    (hxy : ∀ i ∈ n.indices, xs[i]? = ys[i]?) : n.evaluate xs slope = n.evaluate ys slope := by
  refine Node.sameOutcome_of_agree n fun i hi => ?_
  rw [operandAt, operandAt, ← hxy i hi, List.getElem?_eq_getElem (hx i hi)]

/-! ## Main statement -/

/-- With more operands than the highest that the tree mentions, none is ever missing and the others
do not matter. With no more than its number, the evaluation fails. Whichever operand is found to be
missing, the tree mentions it and it is not there. -/
theorem highest_operand_is_demand (formula : String) (n : Node) (slope : α)
    (h : parse formula = .ok n) :
    (∀ xs : List (Tensor α), (∀ k ∈ n.highestOperand?, k < xs.length) →
      (∀ i available, n.evaluate xs slope ≠ .error (.operandMissing i available)) ∧
      ∀ ys : List (Tensor α), (∀ k ∈ n.highestOperand?, k < ys.length) →
        (∀ i ∈ n.indices, xs[i]? = ys[i]?) → n.evaluate xs slope = n.evaluate ys slope) ∧
    (∀ (xs : List (Tensor α)) k, n.highestOperand? = some k → xs.length ≤ k →
      ∃ f, n.evaluate xs slope = .error f) ∧
    ∀ (xs : List (Tensor α)) i available,
      n.evaluate xs slope = .error (.operandMissing i available) →
        i ∈ n.indices ∧ available = xs.length ∧ available ≤ i := by
  refine ⟨fun xs hx => ?_, fun xs k hk hle => ?_, fun xs i available => missing_of_evaluate h⟩
  · rw [Node.lt_highestOperand?_iff] at hx
    refine ⟨fun i available he => ?_, fun ys _ hxy => evaluate_congr_of_agree hx hxy⟩
    obtain ⟨hi, rfl, hle⟩ := missing_of_evaluate h he
    exact Nat.not_lt.2 hle (hx i hi)
  · cases he : n.evaluate xs slope with
    | error f => exact ⟨f, rfl⟩
    | ok t =>
        have hmem := (Node.highestOperand?_eq_some_iff.1 hk).1
        exact absurd (Node.lt_of_evaluate n (linked_of_parse h) he k hmem) (Nat.not_lt.2 hle)

/-- The tree of `sumAbs(%0) * %3.T - %1`. -/
def sampleDemand : Node :=
  .chain .sum
    [.chain .product [.apply .sumAbs [.operand 0], .apply .transpose [.operand 3]] [.mul],
      .operand 1]
    [.sub]

theorem parse_sampleDemand : parse sampleDemand.toText = .ok sampleDemand := by
  have hw : sampleDemand.WellFormed := by
    simp [sampleDemand, Node.WellFormed, Node.AllWellFormed, Rank.of, Operation.family]
  exact hw.parse_toText.1 (by decide)

def tallMatrix : Tensor Float := ⟨.matrix 6 2, Array.replicate 12 3, by decide, rfl⟩

def flatMatrix : Tensor Float := ⟨.matrix 2 6, Array.replicate 12 1, by decide, rfl⟩

/-- The third operand is not mentioned, and the first three are not enough. -/
theorem highest_operand_is_demand_gap :
    parse sampleDemand.toText = .ok sampleDemand ∧ sampleDemand.toText = "sumAbs(%0) * %3.T - %1" ∧
    sampleDemand.highestOperand? = some 3 ∧ sampleDemand.indices = [0, 3, 1] ∧
    (∃ f, sampleDemand.evaluate [flatMatrix, tallMatrix, flatMatrix] 0.1 = .error f) ∧
    (∃ u, sampleDemand.evaluate [flatMatrix, tallMatrix, flatMatrix, flatMatrix] 0.1 = .ok u ∧
      u.shape = .matrix 6 2) ∧
    sampleDemand.evaluate [flatMatrix, tallMatrix, flatMatrix, flatMatrix] 0.1 =
      sampleDemand.evaluate [flatMatrix, tallMatrix, tallMatrix, flatMatrix, tallMatrix] 0.1 := by
  obtain ⟨hmore, hfewer, -⟩ := highest_operand_is_demand _ sampleDemand (0.1 : Float)
    parse_sampleDemand
  have hk : sampleDemand.highestOperand? = some 3 := rfl
  have hindices : sampleDemand.indices = [0, 3, 1] := rfl
  refine ⟨parse_sampleDemand, rfl, hk, hindices, hfewer _ 3 hk (by decide), ⟨_, rfl, rfl⟩, ?_⟩
  refine (hmore _ ?_).2 _ ?_ ?_
  · exact Node.lt_highestOperand?_iff.2 (by decide)
  · exact Node.lt_highestOperand?_iff.2 (by decide)
  · intro i hi
    rw [hindices] at hi
    obtain rfl | rfl | rfl : i = 0 ∨ i = 3 ∨ i = 1 := by simpa using hi
    all_goals rfl

end TensorFormula
