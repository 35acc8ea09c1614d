import TensorFormula.Proofs.Engine.CachedReplies
import TensorFormula.Proofs.Memory.Operations

/-!
# Formulas over blocks

A formula is evaluated over blocks as it is over tensors: each operation changes the block of the
value so far in its place. The values are the blocks of the tensors that the formula has, whatever
the formula is, so none of its accesses goes beyond a buffer.
-/

namespace TensorFormula.Block

open Arithmetic

variable {α β : Type}

/-- Runs a program on a block that nothing else holds. -/
def finish (p : InPlace α Unit) (b : Block α) : Except (Stop TensorFault) (Block α) :=
  match p.run b with
  | .ok () b' => .ok b'
  | .error s _ => .error s

def inFormula (r : Except (Stop TensorFault) β) : Except (Stop FormulaFault) β :=
  r.mapError (Stop.map .tensor)

def aggregate (start : α) (step : α → α → α) : InPlace α Unit := modify fun b =>
  scalar (b.buffer.foldl step start)

def parameterOf (op : Operation) (b : Block α) : Except (Stop FormulaFault) α :=
  if b.buffer.size = 1 then load b.buffer 0
  else .error (.fault (.parameterNotSingle op ⟨b.sizes⟩))

def operandAt (operands : List (Block α)) (i : Nat) : Except (Stop FormulaFault) (Block α) :=
  match operands[i]? with
  | some b => .ok b
  | none => .error (.fault (.operandMissing i operands.length))

theorem finish_eq {p : InPlace α Unit} {t : Tensor α} {r : Except TensorFault (Tensor α)}
    (h : p.run t.block = settled t (r.map fun u => ((), u))) :
    finish p t.block = told Tensor.block r := by
  rw [finish, h]
  cases r <;> rfl

theorem finish_follows {p : InPlace α Unit} {t : Tensor α} {r : Except TensorFault (Tensor α)}
    (h : Performs p t (r.map fun u => ((), u))) : Follows (finish p t.block) Tensor.block r := by
  obtain h | h := h
  · rw [finish, h]
    exact .inl rfl
  · exact .inr (finish_eq h)

theorem inFormula_eq {p : InPlace α Unit} {t : Tensor α} {r : Except TensorFault (Tensor α)}
    (h : p.run t.block = settled t (r.map fun u => ((), u))) :
    inFormula (finish p t.block) = told Tensor.block (liftFault r) := by
  rw [finish_eq h]
  cases r <;> rfl

theorem inFormula_follows {p : InPlace α Unit} {t : Tensor α} {r : Except TensorFault (Tensor α)}
    (h : Performs p t (r.map fun u => ((), u))) :
    Follows (inFormula (finish p t.block)) Tensor.block (liftFault r) := by
  have hr : liftFault r = r.mapError .tensor := by cases r <;> rfl
  rw [hr]
  exact (finish_follows h).mapError FormulaFault.tensor

theorem parameterOf_block (op : Operation) (t : Tensor α) :
    parameterOf op t.block = told id (asParameter op t) := by
  rw [parameterOf, asParameter, Tensor.count]
  change (if t.content.size = 1 then load t.content 0 else _) = _
  rw [load_first]
  by_cases h : t.content.size = 1
  · rw [if_pos h, if_pos h]
    rfl
  · rw [if_neg h, if_neg h]
    rfl

theorem operandAt_block (operands : List (Tensor α)) (i : Nat) :
    operandAt (operands.map Tensor.block) i =
      told Tensor.block (TensorFormula.operandAt operands i) := by
  rw [operandAt, TensorFormula.operandAt, List.getElem?_map, List.length_map]
  cases operands[i]? <;> rfl

/-- What an operation does to its first argument. -/
def perform [Arithmetic α] (slope : α) (parameter : Option α) : Operation → InPlace α Unit
  | .min => aggregate infinity smaller
  | .max => aggregate (-infinity) larger
  | .sumAbs => aggregate 0 fun sum x => sum + abs x
  | .sumSqr => aggregate 0 fun sum x => sum + x * x
  | .sqrt => mapAll Arithmetic.sqrt
  | .linear => mapAll id
  | .dLinear => mapAll fun _ => 1
  | .relu => mapAll Arithmetic.relu
  | .dRelu => mapAll reluSlope
  | .sigmoid => mapAll Arithmetic.sigmoid
  | .dSigmoid => mapAll fun x => complement (Arithmetic.sigmoid x)
  | .tanh => mapAll Arithmetic.tanh
  | .dTanh => mapAll tanhSlope
  | .leakyRelu => mapAll (leaky (parameter.getD slope))
  | .dLeakyRelu => mapAll (leakySlope (parameter.getD slope))
  | .softmax => softmax
  | .dSoftmax => do
      softmax
      mapAll complement
  | .transpose => rearrange .transpose
  | .rowMatrix => rearrange .rowMatrix
  | .columnMatrix => rearrange .columnMatrix
  | .vector => rearrange .vector

variable [Element α]

mutual

def evaluate (operands : List (Block α)) (slope : α) : Node → Except (Stop FormulaFault) (Block α)
  | .constant v => .ok (scalar (Element.ofDouble v))
  | .operand i => operandAt operands i
  | .negate n => do
      let b ← evaluate operands slope n
      inFormula (finish (mapAll fun x => -x) b)
  | .chain _ [] _ => .error (.fault .empty)
  | .chain _ (n :: ns) os => do
      let b ← evaluate operands slope n
      evaluateLinks operands slope b ns os
  | .apply op [n] => do
      let b ← evaluate operands slope n
      inFormula (finish (perform slope none op) b)
  | .apply op [n, p] =>
      if op.arity = .oneOrTwo then do
        let b ← evaluate operands slope n
        let c ← evaluate operands slope p
        let v ← parameterOf op c
        inFormula (finish (perform slope (some v) op) b)
      else .error (.fault (.argumentCount op op.arity 2))
  | .apply op ns => .error (.fault (.argumentCount op op.arity ns.length))

def evaluateLinks (operands : List (Block α)) (slope : α) (b : Block α) :
    List Node → List Operator → Except (Stop FormulaFault) (Block α)
  | n :: ns, o :: os => do
      let c ← evaluate operands slope n
      let b' ← inFormula (finish (apply o c) b)
      evaluateLinks operands slope b' ns os
  | _, _ => .ok b

end

def calculate (b : Block α) (formula : String) (operands : List (Block α)) :
    Except (Stop FormulaFault) (Block α) :=
  match parse formula with
  | .ok tree => evaluate (b :: operands) (Engine.standard (α := α)).slope tree
  | .error f => .error (.fault f)

/-! ## The same values -/

/-- Operations need no product of sizes. -/
theorem run_perform (slope : α) (parameter : Option α) (op : Operation) (t : Tensor α) :
    (perform slope parameter op).run t.block =
      settled t (((op.meaning slope).run parameter t).map fun u => ((), u)) := by
  cases op with
  | transpose => exact run_rearrange .transpose t
  | rowMatrix => exact run_rearrange .rowMatrix t
  | columnMatrix => exact run_rearrange .columnMatrix t
  | vector => exact run_rearrange .vector t
  | softmax => exact run_softmax t
  | dSoftmax =>
      rw [perform, run_bind_of_ok (run_softmax t)]
      exact run_mapAll t.softmax complement
  | _ => rfl

theorem perform_performs (slope : α) (parameter : Option α) (op : Operation) (t : Tensor α) :
    Performs (perform slope parameter op) t
      (((op.meaning slope).run parameter t).map fun u => ((), u)) :=
  .inr (run_perform slope parameter op t)

mutual

theorem evaluate_follows (operands : List (Tensor α)) (slope : α) : (n : Node) →
    Follows (evaluate (operands.map Tensor.block) slope n) Tensor.block (n.evaluate operands slope)
  | .constant v => .inr rfl
  | .operand i => .inr (operandAt_block operands i)
  | .negate n => by
      rw [evaluate, Node.evaluate]
      refine (evaluate_follows operands slope n).bind fun t => ?_
      have hneg : Performs (mapAll fun x => -x) t
          ((Except.ok (t.map fun x => -x)).map fun u => ((), u)) := Performs.ok (run_mapAll t _)
      exact inFormula_follows hneg
  | .chain _ [] _ => .inr rfl
  | .chain _ (n :: ns) os => by
      rw [evaluate, Node.evaluate]
      exact (evaluate_follows operands slope n).bind fun t =>
        evaluateLinks_follows operands slope t ns os
  | .apply op [n] => by
      rw [evaluate, Node.evaluate]
      refine (evaluate_follows operands slope n).bind fun t => ?_
      exact inFormula_follows (perform_performs slope none op t)
  | .apply op [n, p] => by
      rw [evaluate, Node.evaluate]
      by_cases h : op.arity = .oneOrTwo
      · rw [if_pos h, if_pos h]
        refine (evaluate_follows operands slope n).bind fun t => ?_
        refine (evaluate_follows operands slope p).bind fun u => ?_
        refine Follows.bind (.inr (parameterOf_block op u)) fun v => ?_
        exact inFormula_follows (perform_performs slope (some v) op t)
      · rw [if_neg h, if_neg h]
        exact .inr rfl
  | .apply op [] => .inr rfl
  | .apply op (_ :: _ :: _ :: _) => .inr rfl

theorem evaluateLinks_follows (operands : List (Tensor α)) (slope : α) (t : Tensor α) :
    (ns : List Node) → (os : List Operator) →
    Follows (evaluateLinks (operands.map Tensor.block) slope t.block ns os) Tensor.block
      (Node.evaluateLinks operands slope t ns os)
  | n :: ns, o :: os => by
      rw [evaluateLinks, Node.evaluateLinks]
      refine (evaluate_follows operands slope n).bind fun u => ?_
      refine (inFormula_follows (apply_performs o t u)).bind fun v => ?_
      exact evaluateLinks_follows operands slope v ns os
  | [], _ => .inr rfl
  | _ :: _, [] => .inr rfl

end

theorem calculate_follows (t : Tensor α) (formula : String) (operands : List (Tensor α)) :
    Follows (calculate t.block formula (operands.map Tensor.block)) Tensor.block
      (t.calculate formula operands) := by
  have hs : (Engine.standard : Engine α).Sound := Engine.sound_ofSettings .standard
  rw [calculate, Tensor.calculate, Engine.calculate, Engine.evaluate_fst hs]
  cases parse formula with
  | error f => exact .inr rfl
  | ok tree => exact evaluate_follows (t :: operands) _ tree

end TensorFormula.Block
