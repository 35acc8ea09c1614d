import TensorFormula.Formula.Evaluate
import TensorFormula.Proofs.Memory.Operations

/-!
# Shapes of formulas

An operation decides by the shapes of its arguments whether it fails and which shape its result has.
So a tree can be run on shapes alone, and its run on tensors has the fault or the shape of that run,
whatever the elements are and whichever width they have.
-/

namespace TensorFormula

namespace Shape

/-- The shape of the product of an `[m, k]` and a `[k, n]` tensor. -/
def times (s t : Shape) : Shape := ⟨s.dims.take 1 ++ t.dims.drop 1⟩

def combine (op : Operator) (l r : Shape) : Except TensorFault Shape :=
  if op = .matmul ∧ l.multipliesWith r then .ok (l.times r)
  else if op ≠ .matmul ∧ l.count = r.count then .ok l
  else if r.count = 1 then .ok l
  else if l.count = 1 then .ok r
  else .error (.incompatible op l r)

def rearrange (r : Rearrangement) (s : Shape) : Except TensorFault Shape :=
  match r, s.dims with
  | .transpose, [m, n] => .ok (.matrix n m)
  | .transpose, _ => .error (.notMatrix .transpose s)
  | .rowMatrix, [n] => .ok (.matrix 1 n)
  | .columnMatrix, [n] => .ok (.matrix n 1)
  | .vector, _ =>
      if Tensor.isLinear s then .ok (.vector s.count) else .error (.unsupported .vector s)
  | r, _ => .error (.unsupported r s)

/-- What an operation makes of the shape of its first argument. -/
def perform (op : Operation) (s : Shape) : Except TensorFault Shape :=
  match op with
  | .min | .max | .sumAbs | .sumSqr => .ok .scalar
  | .transpose => s.rearrange .transpose
  | .rowMatrix => s.rearrange .rowMatrix
  | .columnMatrix => s.rearrange .columnMatrix
  | .vector => s.rearrange .vector
  | _ => .ok s

end Shape

namespace Node

/-- The parameter of an operation has to be a single element. -/
def checkParameter (op : Operation) (s : Shape) : Except FormulaFault Unit :=
  if s.count = 1 then .ok () else .error (.parameterNotSingle op s)

mutual

/-- The run of a tree on shapes. -/
def outline (operands : List Shape) : Node → Except FormulaFault Shape
  | constant _ => .ok .scalar
  | operand i =>
      match operands[i]? with
      | some s => .ok s
      | none => .error (.operandMissing i operands.length)
  | negate n => n.outline operands
  | chain _ [] _ => .error .empty
  | chain _ (n :: ns) os => do
      let s ← n.outline operands
      outlineLinks operands s ns os
  | apply op [n] => do
      let s ← n.outline operands
      (s.perform op).mapError .tensor
  | apply op [n, p] =>
      if op.arity = .oneOrTwo then do
        let s ← n.outline operands
        let u ← p.outline operands
        checkParameter op u
        (s.perform op).mapError .tensor
      else .error (.argumentCount op op.arity 2)
  | apply op ns => .error (.argumentCount op op.arity ns.length)

def outlineLinks (operands : List Shape) (s : Shape) :
    List Node → List Operator → Except FormulaFault Shape
  | n :: ns, o :: os => do
      let u ← n.outline operands
      let v ← (s.combine o u).mapError .tensor
      outlineLinks operands v ns os
  | _, _ => .ok s

end

end Node

/-! ## Operations -/

namespace Tensor

variable {α : Type}

theorem map_shape_rearrange (r : Rearrangement) (t : Tensor α) :
    (t.rearrange r).map shape = t.shape.rearrange r := by
  obtain ⟨⟨ds⟩, a, hv, ha⟩ := t
  cases r with
  | transpose =>
      match ds, hv, ha with
      | [_, _], _, _ => rfl
      | [], _, _ | [_], _, _ | _ :: _ :: _ :: _, _, _ => rfl
  | rowMatrix | columnMatrix =>
      match ds, hv, ha with
      | [_], _, _ => rfl
      | [], _, _ | _ :: _ :: _, _, _ => rfl
  | vector =>
      change (toVector _).map shape = if isLinear ⟨ds⟩ then _ else _
      rw [toVector]
      split <;> rfl

variable [Arithmetic α]

theorem map_shape_matmul {l r : Tensor α} (h : l.shape.multipliesWith r.shape = true) :
    (l.matmul r).map shape = .ok (l.shape.times r.shape) := by
  obtain ⟨m, k, n, hl, hr⟩ := Block.multipliesWith_iff.1 h
  obtain ⟨p, hp, hs, -⟩ := Block.exists_matmul_matrix hl hr
  rw [hp, hl, hr]
  exact congrArg Except.ok hs

theorem map_shape_combine (l r : Tensor α) (op : Operator) :
    (l.combine r op).map shape = l.shape.combine op r.shape := by
  rw [combine, Shape.combine]
  split
  · next h => exact map_shape_matmul h.2
  · split
    · rfl
    · split
      · rfl
      · split <;> rfl

theorem shape_softmax (t : Tensor α) : t.softmax.shape = t.shape := by
  rw [softmax, normalize]
  split <;> rfl

theorem map_shape_run (slope : α) (parameter : Option α) (op : Operation) (t : Tensor α) :
    ((op.meaning slope).run parameter t).map shape = t.shape.perform op := by
  cases op with
  | transpose => exact t.map_shape_rearrange .transpose
  | rowMatrix => exact t.map_shape_rearrange .rowMatrix
  | columnMatrix => exact t.map_shape_rearrange .columnMatrix
  | vector => exact t.map_shape_rearrange .vector
  | softmax | dSoftmax => exact congrArg Except.ok t.shape_softmax
  | _ => rfl

end Tensor

/-! ## Trees -/

section Runs

variable {α β γ δ ε : Type}

/-- Two runs that agree in what `f` shows of them go on in step if each continuation depends on
that alone. -/
theorem map_bind_eq {r : Except ε α} {f : α → β} {s : Except ε β} {p : α → Except ε γ} {g : γ → δ}
    {q : β → Except ε δ} (h : r.map f = s) (hq : ∀ x, (p x).map g = q (f x)) :
    (r >>= p).map g = s >>= q := by
  subst h
  cases r with
  | error e => rfl
  | ok x => exact hq x

theorem map_shape_liftFault {r : Except TensorFault (Tensor α)} {s : Except TensorFault Shape}
    (h : r.map Tensor.shape = s) :
    (liftFault r).map Tensor.shape = s.mapError FormulaFault.tensor := by
  subst h
  cases r <;> rfl

theorem map_asParameter (op : Operation) (t : Tensor α) :
    (asParameter op t).map (fun _ => ()) = Node.checkParameter op t.shape := by
  rw [asParameter, Node.checkParameter, Tensor.count, t.size_content]
  split <;> rfl

theorem map_shape_operandAt (operands : List (Tensor α)) (i : Nat) :
    (operandAt operands i).map Tensor.shape =
      (Node.operand i).outline (operands.map Tensor.shape) := by
  rw [operandAt, Node.outline, List.getElem?_map, List.length_map]
  cases operands[i]? <;> rfl

end Runs

namespace Node

variable {α β : Type} [Element α] [Element β]

mutual

/-- A run on tensors has the fault or the shape of the run on their shapes. -/
theorem map_shape_evaluate (operands : List (Tensor α)) (slope : α) : (n : Node) →
    (n.evaluate operands slope).map Tensor.shape = n.outline (operands.map Tensor.shape)
  | constant _ => rfl
  | operand i => map_shape_operandAt operands i
  | negate n => by
      rw [evaluate, outline, ← map_shape_evaluate operands slope n]
      cases n.evaluate operands slope <;> rfl
  | chain _ [] _ => rfl
  | chain _ (n :: ns) os => by
      rw [evaluate, outline]
      exact map_bind_eq (map_shape_evaluate operands slope n) fun t =>
        map_shape_evaluateLinks operands slope t ns os
  | apply op [n] => by
      rw [evaluate, outline]
      exact map_bind_eq (map_shape_evaluate operands slope n) fun t =>
        map_shape_liftFault (t.map_shape_run slope none op)
  | apply op [n, p] => by
      rw [evaluate, outline]
      split
      · refine map_bind_eq (map_shape_evaluate operands slope n) fun t => ?_
        refine map_bind_eq (map_shape_evaluate operands slope p) fun u => ?_
        refine map_bind_eq (map_asParameter op u) fun v => ?_
        exact map_shape_liftFault (t.map_shape_run slope (some v) op)
      · rfl
  | apply op [] => rfl
  | apply op (_ :: _ :: _ :: _) => rfl

theorem map_shape_evaluateLinks (operands : List (Tensor α)) (slope : α) (t : Tensor α) :
    (ns : List Node) → (os : List Operator) →
    (evaluateLinks operands slope t ns os).map Tensor.shape =
      outlineLinks (operands.map Tensor.shape) t.shape ns os
  | n :: ns, o :: os => by
      rw [evaluateLinks, outlineLinks]
      refine map_bind_eq (map_shape_evaluate operands slope n) fun u => ?_
      refine map_bind_eq (map_shape_liftFault (t.map_shape_combine u o)) fun v => ?_
      exact map_shape_evaluateLinks operands slope v ns os
  | [], _ => rfl
  | _ :: _, [] => rfl

end

/-- Whatever the elements of the operands, the slopes and the widths: a tree has the same fault on
operands of equal shapes, or it has values of the same shape. -/
theorem outcome_depends_on_shapes {xs : List (Tensor α)} {ys : List (Tensor β)}
    (h : xs.map Tensor.shape = ys.map Tensor.shape) (slope : α) (slope' : β) (n : Node) :
    (n.evaluate xs slope).map Tensor.shape = (n.evaluate ys slope').map Tensor.shape := by
  rw [map_shape_evaluate, map_shape_evaluate, h]

/-- The tree of `leakyReLu((%0 x %1).T, max(%0)) / sumAbs(%1)`. -/
def sampleQuotient : Node :=
  .chain .product
    [.apply .leakyRelu
      [.apply .transpose [.chain .product [.operand 0, .operand 1] [.matmul]],
        .apply .max [.operand 0]],
      .apply .sumAbs [.operand 1]]
    [.div]

def sampleFactors : List (Tensor Float) :=
  [⟨.matrix 2 3, #[1, 2, 3, 4, 5, 6], by decide, rfl⟩,
    ⟨.matrix 3 2, #[1, -1, 0.5, 2, 0, 3], by decide, rfl⟩]

/-- The same shapes in the other width, filled with what is no number and with zeros. -/
def degenerateFactors : List (Tensor Float32) :=
  [⟨.matrix 2 3, Array.replicate 6 (0 / 0), by decide, rfl⟩,
    ⟨.matrix 3 2, Array.replicate 6 0, by decide, rfl⟩]

theorem outcome_depends_on_shapes_degenerate :
    sampleFactors.map Tensor.shape = degenerateFactors.map Tensor.shape ∧
      sampleQuotient.outline (sampleFactors.map Tensor.shape) = .ok (.matrix 2 2) ∧
      (sampleQuotient.evaluate sampleFactors 0.1).map Tensor.shape =
        (sampleQuotient.evaluate degenerateFactors 0).map Tensor.shape := by
  have h : sampleFactors.map Tensor.shape = degenerateFactors.map Tensor.shape := rfl
  exact ⟨h, rfl, outcome_depends_on_shapes h 0.1 0 sampleQuotient⟩

end Node

end TensorFormula
