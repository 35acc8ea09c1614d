import TensorFormula.Proofs.Formula.Subtrees

/-!
# Chains associate to the left

A chain of several operands stands for chains of two operands, each the first operand of the next:
`a - b + c` for `(a - b) + c`. Both have the same outcome, and where they fail it is for the same
reason, because a chain evaluates an operand only when all operators before it have been applied.
-/

namespace TensorFormula.Node

/-- Chains of two operands each, the innermost of which begins with `first`. -/
def nestLeft (r : Rank) (first : Node) (links : List (Node × Operator)) : Node :=
  links.foldl (fun inner l => .chain r [inner, l.1] [l.2]) first

mutual

/-- The tree with each of its chains nested to the left. A chain of one operand is that operand. -/
def leftNested : Node → Node
  | constant v => constant v
  | operand i => operand i
  | negate n => negate n.leftNested
  | chain r [] os => chain r [] os
  | chain r (n :: ns) os => nestLeft r n.leftNested ((leftNestedAll ns).zip os)
  | apply op ns => apply op (leftNestedAll ns)

def leftNestedAll : List Node → List Node
  | [] => []
  | n :: ns => n.leftNested :: leftNestedAll ns

end

example (r : Rank) (i j k : Nat) (o o' : Operator) :
    (chain r [operand i, operand j, operand k] [o, o']).leftNested =
      chain r [chain r [operand i, operand j] [o], operand k] [o'] := rfl

/-! ## Form -/

mutual

/-- Every chain in the tree has two operands with an operator between them. -/
def Binary : Node → Prop
  | constant _ => True
  | operand _ => True
  | negate n => n.Binary
  | chain _ ns os => ns.length = 2 ∧ os.length = 1 ∧ AllBinary ns
  | apply _ ns => AllBinary ns

def AllBinary : List Node → Prop
  | [] => True
  | n :: ns => n.Binary ∧ AllBinary ns

end

theorem AllBinary.of_mem {n : Node} {ns : List Node} (h : AllBinary ns) (hn : n ∈ ns) :
    n.Binary := by
  induction ns with
  | nil => cases hn
  | cons m ns ih =>
      obtain rfl | hn := List.mem_cons.1 hn
      · exact h.1
      · exact ih h.2 hn

theorem binary_nestLeft (r : Rank) {first : Node} {links : List (Node × Operator)}
    (hf : first.Binary) (h : ∀ l ∈ links, l.1.Binary) : (nestLeft r first links).Binary := by
  induction links generalizing first with
  | nil => exact hf
  | cons l links ih =>
      rw [List.forall_mem_cons] at h
      exact ih ⟨rfl, rfl, hf, h.1, trivial⟩ h.2

mutual

theorem Linked.binary : (n : Node) → n.Linked → n.leftNested.Binary
  | constant _, _ => trivial
  | operand _, _ => trivial
  | negate n, h => Linked.binary n h
  | chain _ [] _, h => absurd h.1 (Nat.succ_ne_zero _)
  | chain r (n :: ns) _, h =>
      have hns := AllLinked.allBinary ns h.2.2
      binary_nestLeft r (Linked.binary n h.2.1) fun _ hl => hns.of_mem (List.of_mem_zip hl).1
  | apply _ ns, h => AllLinked.allBinary ns h

theorem AllLinked.allBinary : (ns : List Node) → AllLinked ns → AllBinary (leftNestedAll ns)
  | [], _ => trivial
  | n :: ns, h => ⟨Linked.binary n h.1, AllLinked.allBinary ns h.2⟩

end

/-! ## Outcome -/

variable {α : Type} [Element α] (xs : List (Tensor α)) (slope : α)

/-- One step of a chain: the next operand, then its operator. -/
def link (t : Tensor α) (l : Node × Operator) : Except FormulaFault (Tensor α) := do
  let u ← l.1.evaluate xs slope
  liftFault (t.combine u l.2)

theorem evaluateLinks_eq_foldlM (t : Tensor α) (ns : List Node) (os : List Operator) :
    evaluateLinks xs slope t ns os = (ns.zip os).foldlM (link xs slope) t := by
  induction ns generalizing t os with
  | nil => rfl
  | cons n ns ih =>
      cases os with
      | nil => rfl
      | cons o os =>
          simp only [evaluateLinks, List.zip_cons_cons, List.foldlM_cons, link, bind_assoc, ih]

theorem evaluate_chain_cons (r : Rank) (n : Node) (ns : List Node) (os : List Operator) :
    (chain r (n :: ns) os).evaluate xs slope =
      n.evaluate xs slope >>= (ns.zip os).foldlM (link xs slope) := by
  simp only [evaluate, evaluateLinks_eq_foldlM]

/-- Nested chains take the same steps in the same order as the chain of all their links. -/
theorem evaluate_nestLeft (r : Rank) (first : Node) (links : List (Node × Operator)) :
    (nestLeft r first links).evaluate xs slope =
      first.evaluate xs slope >>= links.foldlM (link xs slope) := by
  induction links generalizing first with
  | nil => exact (bind_pure _).symm
  | cons l links ih =>
      have hpair : (chain r [first, l.1] [l.2]).evaluate xs slope =
          first.evaluate xs slope >>= fun t => link xs slope t l := by
        simp [evaluate_chain_cons]
      calc (nestLeft r first (l :: links)).evaluate xs slope
        _ = (chain r [first, l.1] [l.2]).evaluate xs slope >>= links.foldlM (link xs slope) :=
          ih (chain r [first, l.1] [l.2])
        _ = first.evaluate xs slope >>= (l :: links).foldlM (link xs slope) := by
          simp only [hpair, bind_assoc, List.foldlM_cons]

mutual

theorem sameOutcome_leftNested : (n : Node) → SameOutcome xs xs slope n.leftNested n
  | constant _ => rfl
  | operand _ => rfl
  | negate n => (sameOutcome_leftNested n).negate
  | chain _ [] _ => rfl
  | chain r (n :: ns) os => by
      have hchain : SameOutcome xs xs slope (chain r (n.leftNested :: leftNestedAll ns) os)
          (chain r (n :: ns) os) :=
        .chain r os (.cons (sameOutcome_leftNested n) (forall₂_leftNested ns))
      rw [leftNested, SameOutcome, evaluate_nestLeft, ← evaluate_chain_cons xs slope r]
      exact hchain
  | apply op ns => .apply op (forall₂_leftNested ns)

theorem forall₂_leftNested : (ns : List Node) →
    List.Forall₂ (SameOutcome xs xs slope) (leftNestedAll ns) ns
  | [] => .nil
  | n :: ns => .cons (sameOutcome_leftNested n) (forall₂_leftNested ns)

end

/-- Nesting the chains of a tree to the left leaves chains of two operands only, and the same value
or the same fault on all operands. -/
theorem chains_associate_to_left (n : Node) (h : n.Linked) :
    n.leftNested.Binary ∧ n.leftNested.evaluate xs slope = n.evaluate xs slope :=
  ⟨Linked.binary n h, sameOutcome_leftNested xs slope n⟩

/-- The tree of `%0 - %1 / 2 * %2 - (%0 + %7 + %8)`. -/
def sampleDifference : Node :=
  .chain .sum
    [.operand 0, .chain .product [.operand 1, .constant 2, .operand 2] [.div, .mul],
      .chain .sum [.operand 0, .operand 7, .operand 8] [.add, .add]]
    [.sub, .sub]

/-- Twos in a vector of length `m + 1`. -/
def sampleVector (m : Nat) : Tensor Float :=
  ⟨.vector (m + 1), Array.replicate (m + 1) 2, Shape.valid_vector_iff.2 m.succ_pos, by simp⟩

/-- Vectors of three lengths, of which the last two cannot be multiplied. -/
def unevenVectors : List (Tensor Float) :=
  [sampleVector 2, sampleVector 3, sampleVector 4]

def evenVectors (m : Nat) : List (Tensor Float) := List.replicate m (sampleVector 1)

/-- The nested chains have the value of the tree, or its first fault: lengths that do not fit come
before the operands that are missing behind them. -/
theorem chains_associate_to_left_sampleDifference :
    sampleDifference.Linked ∧
    sampleDifference.leftNested =
      .chain .sum
        [.chain .sum
          [.operand 0,
            .chain .product [.chain .product [.operand 1, .constant 2] [.div], .operand 2] [.mul]]
          [.sub],
          .chain .sum [.chain .sum [.operand 0, .operand 7] [.add], .operand 8] [.add]]
        [.sub] ∧
    sampleDifference.leftNested.Binary ∧
    (∃ u, sampleDifference.leftNested.evaluate (evenVectors 9) 0.1 = .ok u ∧
      u.content = #[-6, -6]) ∧
    sampleDifference.leftNested.evaluate (evenVectors 3) 0.1 = .error (.operandMissing 7 3) ∧
    sampleDifference.leftNested.evaluate unevenVectors 0.1 =
      .error (.tensor (.incompatible .mul (.vector 4) (.vector 5))) := by
  have h : sampleDifference.Linked := by simp [sampleDifference, Linked, AllLinked]
  have hsame (xs : List (Tensor Float)) := chains_associate_to_left xs 0.1 sampleDifference h
  exact ⟨h, rfl, (hsame []).1, ⟨_, (hsame _).2, by decide +kernel⟩, (hsame _).2, (hsame _).2⟩

end TensorFormula.Node
