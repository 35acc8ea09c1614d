import TensorFormula.Proofs.Memory.Formulas

/-!
# Strategies by operation

An implementation finds out how to evaluate an operation from a table that is filled at run time,
and refuses an operation without an entry before it looks at the arguments. The standard table has
an entry for every operation, each of the family and with the arguments that the operation has, so
that the run of a tree by the table is its run by the meanings of the operations.
-/

namespace TensorFormula

open Block

/-- What is done to the block of a first argument. -/
inductive Strategy (α : Type)
  | aggregate (start : α) (step : α → α → α)
  | elementwise (takesParameter : Bool) (f : Option α → InPlace α Unit)
  | shape (f : InPlace α Unit)

namespace Strategy

variable {α : Type}

def family : Strategy α → Family
  | aggregate .. => .aggregate
  | elementwise .. => .elementwise
  | shape _ => .shape

def arity : Strategy α → Arity
  | elementwise true _ => .oneOrTwo
  | _ => .one

def run (parameter : Option α) : Strategy α → InPlace α Unit
  | aggregate start step => Block.aggregate start step
  | elementwise _ f => f parameter
  | shape f => f

/-- The strategy is of the family of an operation, has its arguments and does what it does. -/
structure Implements [Arithmetic α] (s : Strategy α) (slope : α) (op : Operation) : Prop where
  family : s.family = op.family
  arity : s.arity = op.arity
  run : ∀ parameter, s.run parameter = perform slope parameter op

end Strategy

inductive RegistryFault
  | unregistered (op : Operation)
  | formula (f : FormulaFault)

abbrev Registry (α : Type) := Operation → Option (Strategy α)

namespace Registry

variable {α β γ : Type}

def empty : Registry α := fun _ => none

/-- A later entry for an operation takes the place of an earlier one. -/
def register (r : Registry α) (op : Operation) (s : Strategy α) : Registry α :=
  Function.update r op (some s)

def registerAll (r : Registry α) (entries : List (Operation × Strategy α)) : Registry α :=
  entries.foldl (fun r entry => r.register entry.1 entry.2) r

def find (r : Registry α) (op : Operation) : Except (Stop RegistryFault) (Strategy α) :=
  match r op with
  | some s => .ok s
  | none => .error (.fault (.unregistered op))

def inRegistry (r : Except (Stop FormulaFault) β) : Except (Stop RegistryFault) β :=
  r.mapError (Stop.map .formula)

/-! ## The standard registry -/

section Standard

open Arithmetic

variable [Arithmetic α]

/-- The functions that map each element by itself and take no parameter. -/
def pointwise? : Operation → Option (α → α)
  | .sqrt => some Arithmetic.sqrt
  | .linear => some id
  | .dLinear => some fun _ => 1
  | .relu => some Arithmetic.relu
  | .dRelu => some reluSlope
  | .sigmoid => some Arithmetic.sigmoid
  | .dSigmoid => some fun x => complement (Arithmetic.sigmoid x)
  | .tanh => some Arithmetic.tanh
  | .dTanh => some tanhSlope
  | _ => none

def aggregates : List (Operation × Strategy α) :=
  [(.min, .aggregate infinity smaller),
    (.max, .aggregate (-infinity) larger),
    (.sumAbs, .aggregate 0 fun sum x => sum + abs x),
    (.sumSqr, .aggregate 0 fun sum x => sum + x * x)]

/-- Operations without a function of single elements are passed over. -/
def pointwise : List (Operation × Strategy α) :=
  [.sqrt, .linear, .dLinear, .relu, .dRelu, .sigmoid, .dSigmoid, .tanh, .dTanh].filterMap
    fun op => (pointwise? op).map fun f => (op, .elementwise false fun _ => mapAll f)

def activations (slope : α) : List (Operation × Strategy α) :=
  [(.leakyRelu, .elementwise true fun p => mapAll (leaky (p.getD slope))),
    (.dLeakyRelu, .elementwise true fun p => mapAll (leakySlope (p.getD slope))),
    (.softmax, .elementwise false fun _ => Block.softmax),
    (.dSoftmax, .elementwise false fun _ => do
      Block.softmax
      mapAll complement)]

def shapes : List (Operation × Strategy α) :=
  [(.transpose, .shape (rearrange .transpose)),
    (.rowMatrix, .shape (rearrange .rowMatrix)),
    (.columnMatrix, .shape (rearrange .columnMatrix)),
    (.vector, .shape (rearrange .vector))]

/-- The slope is what the leaky functions use without a parameter. -/
def standard (slope : α) : Registry α :=
  (((empty.registerAll aggregates).registerAll pointwise).registerAll
    (activations slope)).registerAll shapes

/-- Every operation is registered. -/
theorem exists_find_standard (slope : α) (op : Operation) :
    ∃ s, (standard slope).find op = .ok s ∧ s.Implements slope op := by
  cases op <;> exact ⟨_, rfl, rfl, rfl, fun _ => rfl⟩

end Standard

/-! ## Evaluation -/

variable [Element α]

mutual

def evaluate (r : Registry α) (operands : List (Block α)) :
    Node → Except (Stop RegistryFault) (Block α)
  | .constant v => .ok (scalar (Element.ofDouble v))
  | .operand i => inRegistry (Block.operandAt operands i)
  | .negate n => do
      let b ← evaluate r operands n
      inRegistry (inFormula (finish (mapAll fun x => -x) b))
  | .chain _ [] _ => .error (.fault (.formula .empty))
  | .chain _ (n :: ns) os => do
      let b ← evaluate r operands n
      evaluateLinks r operands b ns os
  | .apply op [n] => do
      let s ← r.find op
      let b ← evaluate r operands n
      inRegistry (inFormula (finish (s.run none) b))
  | .apply op [n, p] => do
      let s ← r.find op
      if s.arity = .oneOrTwo then do
        let b ← evaluate r operands n
        let c ← evaluate r operands p
        let v ← inRegistry (parameterOf op c)
        inRegistry (inFormula (finish (s.run (some v)) b))
      else .error (.fault (.formula (.argumentCount op s.arity 2)))
  | .apply op ns => do
      let s ← r.find op
      .error (.fault (.formula (.argumentCount op s.arity ns.length)))

def evaluateLinks (r : Registry α) (operands : List (Block α)) (b : Block α) :
    List Node → List Operator → Except (Stop RegistryFault) (Block α)
  | n :: ns, o :: os => do
      let c ← evaluate r operands n
      let b' ← inRegistry (inFormula (finish (Block.apply o c) b))
      evaluateLinks r operands b' ns os
  | _, _ => .ok b

end

theorem inRegistry_bind (p : Except (Stop FormulaFault) β)
    (q : β → Except (Stop FormulaFault) γ) :
    inRegistry (p >>= q) = inRegistry p >>= fun x => inRegistry (q x) := by
  cases p <;> rfl

mutual

/-- Looking up strategies in the standard registry makes no difference. -/
theorem evaluate_standard (slope : α) (bs : List (Block α)) : (n : Node) →
    (standard slope).evaluate bs n = inRegistry (Block.evaluate bs slope n)
  | .constant v => rfl
  | .operand i => rfl
  | .negate n => by
      rw [evaluate, Block.evaluate, inRegistry_bind, evaluate_standard slope bs n]
  | .chain _ [] _ => rfl
  | .chain _ (n :: ns) os => by
      rw [evaluate, Block.evaluate, inRegistry_bind, evaluate_standard slope bs n]
      simp only [evaluateLinks_standard slope bs _ ns os]
  | .apply op [n] => by
      obtain ⟨s, hs, hop⟩ := exists_find_standard slope op
      rw [evaluate, Block.evaluate, inRegistry_bind, evaluate_standard slope bs n, hs, ← hop.run]
      rfl
  | .apply op [n, p] => by
      obtain ⟨s, hs, hop⟩ := exists_find_standard slope op
      rw [evaluate, Block.evaluate, hs, ← hop.arity]
      change (if s.arity = .oneOrTwo then _ else _) = _
      split
      · simp only [inRegistry_bind, evaluate_standard slope bs, hop.run]
      · rfl
  | .apply op [] => by
      obtain ⟨s, hs, hop⟩ := exists_find_standard slope op
      rw [evaluate, Block.evaluate, hs, ← hop.arity]
      · rfl
      all_goals nofun
  | .apply op (n :: m :: k :: ns) => by
      obtain ⟨s, hs, hop⟩ := exists_find_standard slope op
      rw [evaluate, Block.evaluate, hs, ← hop.arity]
      · rfl
      all_goals nofun

theorem evaluateLinks_standard (slope : α) (bs : List (Block α)) (b : Block α) :
    (ns : List Node) → (os : List Operator) →
    (standard slope).evaluateLinks bs b ns os = inRegistry (Block.evaluateLinks bs slope b ns os)
  | n :: ns, o :: os => by
      rw [evaluateLinks, Block.evaluateLinks]
      simp only [inRegistry_bind, evaluate_standard slope bs n,
        evaluateLinks_standard slope bs _ ns os]
  | [], _ => rfl
  | _ :: _, [] => rfl

end

end Registry

end TensorFormula
