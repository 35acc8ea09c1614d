import TensorFormula.Formula.Fault
import TensorFormula.Formula.Meaning

/-!
# Evaluation

A tree is evaluated against a list of operands, `%0` being the first. Chains go from left to right,
an operand being evaluated just before its operator is applied, and stop where operands or operators
run out. The number of arguments of a call is checked before any of them is evaluated.
-/

namespace TensorFormula

variable {α : Type}

def liftFault : Except TensorFault (Tensor α) → Except FormulaFault (Tensor α)
  | .ok t => .ok t
  | .error f => .error (.tensor f)

/-- The only element of a tensor, as a parameter of `op`. -/
def asParameter (op : Operation) (t : Tensor α) : Except FormulaFault α :=
  if t.count = 1 then .ok t.first else .error (.parameterNotSingle op t.shape)

def operandAt (operands : List (Tensor α)) (i : Nat) : Except FormulaFault (Tensor α) :=
  match operands[i]? with
  | some t => .ok t
  | none => .error (.operandMissing i operands.length)

namespace Node

variable [Element α]

mutual

def evaluate (operands : List (Tensor α)) (slope : α) : Node → Except FormulaFault (Tensor α)
  | constant v => .ok (.scalar (Element.ofDouble v))
  | operand i => operandAt operands i
  | negate n => do
      let t ← n.evaluate operands slope
      .ok (t.map fun x => -x)
  | chain _ [] _ => .error .empty
  | chain _ (n :: ns) os => do
      let t ← n.evaluate operands slope
      evaluateLinks operands slope t ns os
  | apply op [n] => do
      let t ← n.evaluate operands slope
      liftFault ((op.meaning slope).run none t)
  | apply op [n, p] =>
      if op.arity = .oneOrTwo then do
        let t ← n.evaluate operands slope
        let u ← p.evaluate operands slope
        let v ← asParameter op u
        liftFault ((op.meaning slope).run (some v) t)
      else .error (.argumentCount op op.arity 2)
  | apply op ns => .error (.argumentCount op op.arity ns.length)

/-- Applies the rest of a chain to the value so far. -/
def evaluateLinks (operands : List (Tensor α)) (slope : α) (t : Tensor α) :
    List Node → List Operator → Except FormulaFault (Tensor α)
  | n :: ns, o :: os => do
      let u ← n.evaluate operands slope
      let v ← liftFault (t.combine u o)
      evaluateLinks operands slope v ns os
  | _, _ => .ok t

end

end Node

end TensorFormula
