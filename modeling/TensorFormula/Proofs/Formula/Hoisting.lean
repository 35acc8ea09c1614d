import TensorFormula.Proofs.Formula.Subtrees

/-!
# Hoisting a part of a tree into an operand

A context is a tree with one gap, given by what lies around the gap at each level. Whatever fills
the gap contributes nothing but its outcome, so a part that has a value can be replaced by a new
operand that is bound to this value.
-/

namespace TensorFormula.Node

/-- One level around a gap: the node above it, and its other children before and after the gap. -/
inductive Frame
  | negate
  | chain (rank : Rank) (before after : List Node) (operators : List Operator)
  | apply (op : Operation) (before after : List Node)

def Frame.fill : Frame → Node → Node
  | negate, n => .negate n
  | chain r before after os, n => .chain r (before ++ n :: after) os
  | apply op before after, n => .apply op (before ++ n :: after)

/-- The levels around a gap, the outermost first. -/
abbrev Context := List Frame

/-- The tree with the gap filled. -/
def Context.fill (c : Context) (n : Node) : Node := c.foldr Frame.fill n

@[simp] theorem Context.fill_nil (n : Node) : Context.fill [] n = n := rfl

@[simp] theorem Context.fill_cons (f : Frame) (c : Context) (n : Node) :
    Context.fill (f :: c) n = f.fill (Context.fill c n) := rfl

/-! ## Operands around a gap -/

theorem indicesOf_append (ns ms : List Node) :
    indicesOf (ns ++ ms) = indicesOf ns ++ indicesOf ms := by
  induction ns with
  | nil => rfl
  | cons n ns ih => rw [List.cons_append, indicesOf, indicesOf, ih, List.append_assoc]

theorem mem_indices_surrounded {before after : List Node} {n : Node} {i : Nat} :
    i ∈ indicesOf (before ++ n :: after) ↔
      i ∈ indicesOf before ∨ i ∈ n.indices ∨ i ∈ indicesOf after := by
  rw [indicesOf_append, indicesOf, List.mem_append, List.mem_append]

theorem Frame.mem_indices_fill (f : Frame) {n : Node} {i : Nat} (h : i ∈ n.indices) :
    i ∈ (f.fill n).indices := by
  cases f with
  | negate => exact h
  | chain | apply => exact mem_indices_surrounded.2 (.inr (.inl h))

theorem Context.mem_indices_fill (c : Context) {n : Node} {i : Nat} (h : i ∈ n.indices) :
    i ∈ (c.fill n).indices := by
  induction c with
  | nil => exact h
  | cons f c ih => exact f.mem_indices_fill ih

/-! ## A further operand -/

variable {α : Type}

theorem operandAt_append {xs : List (Tensor α)} {i : Nat} (h : i < xs.length)
    (ys : List (Tensor α)) : operandAt (xs ++ ys) i = operandAt xs i := by
  rw [operandAt, operandAt, List.getElem?_append_left h, List.getElem?_eq_getElem h]

theorem operandAt_length (xs : List (Tensor α)) (v : Tensor α) :
    operandAt (xs ++ [v]) xs.length = .ok v := by
  rw [operandAt, List.getElem?_concat_length]

/-! ## Outcomes around a gap -/

variable [Element α] {xs ys : List (Tensor α)} {slope : α} {n m : Node}

theorem forall₂_surrounded {before after : List Node} (h : SameOutcome xs ys slope n m)
    (ha : ∀ i ∈ indicesOf (before ++ n :: after), operandAt xs i = operandAt ys i) :
    List.Forall₂ (SameOutcome xs ys slope) (before ++ n :: after) (before ++ m :: after) := by
  have hbefore : List.Forall₂ (SameOutcome xs ys slope) before before :=
    forall₂_of_agree before fun i hi => ha i (mem_indices_surrounded.2 (.inl hi))
  have hafter : List.Forall₂ (SameOutcome xs ys slope) after after :=
    forall₂_of_agree after fun i hi => ha i (mem_indices_surrounded.2 (.inr (.inr hi)))
  exact List.rel_append hbefore (.cons h hafter)

theorem Frame.sameOutcome_fill (f : Frame) (h : SameOutcome xs ys slope n m)
    (ha : ∀ i ∈ (f.fill n).indices, operandAt xs i = operandAt ys i) :
    SameOutcome xs ys slope (f.fill n) (f.fill m) := by
  cases f with
  | negate => exact h.negate
  | chain r before after os => exact .chain r os (forall₂_surrounded h ha)
  | apply op before after => exact .apply op (forall₂_surrounded h ha)

theorem Context.sameOutcome_fill (c : Context) (h : SameOutcome xs ys slope n m)
    (ha : ∀ i ∈ (c.fill n).indices, operandAt xs i = operandAt ys i) :
    SameOutcome xs ys slope (c.fill n) (c.fill m) := by
  induction c with
  | nil => exact h
  | cons f c ih => exact f.sameOutcome_fill (ih fun i hi => ha i (f.mem_indices_fill hi)) ha

/-! ## Main statement -/

/-- A part that has a value can be bound to a new operand behind all others. -/
theorem hoist_into_operand (c : Context) (m : Node) (xs : List (Tensor α)) (slope : α)
    (v : Tensor α) (hi : ∀ i ∈ (c.fill m).indices, i < xs.length)
    (hv : m.evaluate xs slope = .ok v) :
    (c.fill (operand xs.length)).evaluate (xs ++ [v]) slope = (c.fill m).evaluate xs slope := by
  have hpart : SameOutcome xs (xs ++ [v]) slope m (operand xs.length) := by
    rw [SameOutcome, hv, evaluate, operandAt_length]
  have hagree : ∀ i ∈ (c.fill m).indices, operandAt xs i = operandAt (xs ++ [v]) i :=
    fun i h => (operandAt_append (hi i h) [v]).symm
  exact (c.sameOutcome_fill hpart hagree).symm

/-- The context of the parameter in `leakyReLu(%0 x %1 - 1, _) / %0`. -/
def sampleContext : Context :=
  [.chain .product [] [operand 0] [.div],
    .apply .leakyRelu
      [.chain .sum [.chain .product [operand 0, operand 1] [.matmul], constant 1] [.sub]] []]

def samplePair : List (Tensor Float) :=
  [⟨.matrix 4 2, #[1, -2, 3, -4, 5, -6, 7, -8], by decide, rfl⟩,
    ⟨.matrix 2 2, Array.replicate 4 (-1), by decide, rfl⟩]

/-- The largest element of the second operand as a parameter. -/
theorem hoist_into_operand_parameter :
    ∃ v : Tensor Float, (apply .max [operand 1]).evaluate samplePair 0.1 = .ok v ∧
      (∀ i ∈ (sampleContext.fill (apply .max [operand 1])).indices, i < samplePair.length) ∧
      (∃ u, (sampleContext.fill (apply .max [operand 1])).evaluate samplePair 0.1 = .ok u ∧
        u.shape = .matrix 4 2) ∧
      (sampleContext.fill (operand 2)).evaluate (samplePair ++ [v]) 0.1 =
        (sampleContext.fill (apply .max [operand 1])).evaluate samplePair 0.1 := by
  have hi : ∀ i ∈ (sampleContext.fill (apply .max [operand 1])).indices, i < samplePair.length := by
    decide
  exact ⟨_, rfl, hi, ⟨_, rfl, rfl⟩, hoist_into_operand sampleContext _ samplePair 0.1 _ hi rfl⟩

end TensorFormula.Node
