import Mathlib.Data.List.Forall2
import TensorFormula.Formula.Evaluate

/-!
# Outcomes of subtrees

The outcome of a tree depends on nothing but the outcomes of its subtrees, and in the end on the
operands that it mentions: trees of the same form whose subtrees have equal outcomes have equal
outcomes, whatever the subtrees look like and whichever operands each side is evaluated on.
-/

namespace TensorFormula.Node

variable {α : Type} [Element α] {xs ys : List (Tensor α)} {slope : α} {n m : Node}
  {ns ms : List Node}

/-- The outcome of one tree on one list of operands is that of another tree on another list. -/
abbrev SameOutcome (xs ys : List (Tensor α)) (slope : α) (n m : Node) : Prop :=
  n.evaluate xs slope = m.evaluate ys slope

theorem evaluateLinks_congr (h : List.Forall₂ (SameOutcome xs ys slope) ns ms) (t : Tensor α)
    (os : List Operator) : evaluateLinks xs slope t ns os = evaluateLinks ys slope t ms os := by
  induction h generalizing t os with
  | nil => rfl
  | cons hn _ ih =>
      cases os with
      | nil => rfl
      | cons o os => simp only [evaluateLinks, hn, ih]

theorem SameOutcome.negate (h : SameOutcome xs ys slope n m) :
    SameOutcome xs ys slope n.negate m.negate := by
  simp only [SameOutcome, evaluate, h]

theorem SameOutcome.chain (r : Rank) (os : List Operator)
    (h : List.Forall₂ (SameOutcome xs ys slope) ns ms) :
    SameOutcome xs ys slope (.chain r ns os) (.chain r ms os) := by
  cases h with
  | nil => rfl
  | cons hn hns => simp only [SameOutcome, evaluate, hn, evaluateLinks_congr hns]

theorem SameOutcome.apply (op : Operation) (h : List.Forall₂ (SameOutcome xs ys slope) ns ms) :
    SameOutcome xs ys slope (.apply op ns) (.apply op ms) := by
  match h with
  | .nil => rfl
  | .cons hn .nil => simp only [SameOutcome, evaluate, hn]
  | .cons hn (.cons hp .nil) => simp only [SameOutcome, evaluate, hn, hp]
  | .cons _ (.cons _ (.cons _ hrest)) =>
      simp only [SameOutcome, evaluate, List.length_cons, hrest.length_eq]

/-! ## Operands that a tree mentions -/

mutual

/-- The indices of the operands in a tree, from left to right. -/
def indices : Node → List Nat
  | constant _ => []
  | operand i => [i]
  | negate n => n.indices
  | chain _ ns _ => indicesOf ns
  | apply _ ns => indicesOf ns

def indicesOf : List Node → List Nat
  | [] => []
  | n :: ns => n.indices ++ indicesOf ns

end

mutual

/-- Operands that a tree does not mention do not matter. -/
theorem sameOutcome_of_agree : (n : Node) →
    (∀ i ∈ n.indices, operandAt xs i = operandAt ys i) → SameOutcome xs ys slope n n
  | constant _, _ => rfl
  | operand i, h => h i (List.mem_singleton_self i)
  | negate n, h => (sameOutcome_of_agree n h).negate
  | chain r ns os, h => .chain r os (forall₂_of_agree ns h)
  | apply op ns, h => .apply op (forall₂_of_agree ns h)

theorem forall₂_of_agree : (ns : List Node) →
    (∀ i ∈ indicesOf ns, operandAt xs i = operandAt ys i) →
    List.Forall₂ (SameOutcome xs ys slope) ns ns
  | [], _ => .nil
  | n :: ns, h =>
      have h := List.forall_mem_append.1 h
      .cons (sameOutcome_of_agree n h.1) (forall₂_of_agree ns h.2)

end

/-! ## Chains of a formula -/

mutual

/-- Every chain in the tree has one operator fewer than operands. -/
def Linked : Node → Prop
  | constant _ => True
  | operand _ => True
  | negate n => n.Linked
  | chain _ ns os => os.length + 1 = ns.length ∧ AllLinked ns
  | apply _ ns => AllLinked ns

def AllLinked : List Node → Prop
  | [] => True
  | n :: ns => n.Linked ∧ AllLinked ns

end

end TensorFormula.Node
