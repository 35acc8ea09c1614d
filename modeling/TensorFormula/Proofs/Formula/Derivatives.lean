import TensorFormula.Proofs.Formula.LiteralOperands

/-!
# Derivatives in the formula language

The derivatives of softmax and of the sigmoid are given by the value `p` of the function, as
`p * (1 - p)`, and that of the hyperbolic tangent by its value `t`, as `1 - t * t`. A call computes
them element by element, a formula by arithmetic on whole tensors. Both do the same operations on
every element in the same order, so that rounding does not tell them apart, and nothing has to be
known of the functions themselves. Shapes tell the two apart in one case: a difference takes the
shape of the literal on its left where the tensor has a single element.
-/

namespace TensorFormula

/-! ## The two formulas -/

/-- The tree of `%0 * (1 - %0)`. -/
def complementTree : Node :=
  .chain .product [.operand 0, .chain .sum [.constant 1, .operand 0] [.sub]] [.mul]

/-- The tree of `1 - %0 * %0`. -/
def squareComplementTree : Node :=
  .chain .sum [.constant 1, .chain .product [.operand 0, .operand 0] [.mul]] [.sub]

theorem isPlain_one : IsPlain 1 := ⟨_, _, rfl⟩

theorem parse_complementTree : parse "%0 * (1 - %0)" = .ok complementTree := by
  have hw : complementTree.WellFormed := by
    simp [complementTree, Node.WellFormed, Node.AllWellFormed, Rank.of, isPlain_one]
  exact hw.parse_toText.1 (by decide)

theorem parse_squareComplementTree : parse "1 - %0 * %0" = .ok squareComplementTree := by
  have hw : squareComplementTree.WellFormed := by
    simp [squareComplementTree, Node.WellFormed, Node.AllWellFormed, Rank.of, isPlain_one]
  exact hw.parse_toText.1 (by decide)

variable {α : Type} [Element α]

theorem evaluate_complementTree (hone : (Element.ofDouble 1 : α) = 1) (t : Tensor α) (slope : α) :
    complementTree.evaluate [t] slope = .ok (t.map Arithmetic.complement) := by
  have hsub : Operator.sub ≠ .matmul := by decide
  obtain ⟨d, hd, -, hcontent⟩ := Tensor.scalar_combine hsub (1 : α) t
  have hinner : (Node.chain .sum [.constant 1, .operand 0] [.sub]).evaluate [t] slope = .ok d := by
    refine Node.evaluate_pair .sum (l := .scalar 1) (m := t) ?_ rfl hd
    rw [Node.evaluate, hone]
  exact Node.evaluate_pair .product rfl hinner (Tensor.combine_map_self (by decide) hcontent)

theorem evaluate_squareComplementTree (hone : (Element.ofDouble 1 : α) = 1) (t : Tensor α)
    (slope : α) : ∃ v, squareComplementTree.evaluate [t] slope = .ok v ∧
      v.content = t.content.map fun x => 1 - x * x := by
  have hself : t.content = t.content.map id := (Array.map_id _).symm
  have hsquare : (Node.chain .product [.operand 0, .operand 0] [.mul]).evaluate [t] slope =
      .ok (t.map fun x => x * x) :=
    Node.evaluate_pair .product (l := t) (m := t) rfl rfl
      (Tensor.combine_map_self (by decide) hself)
  have hsub : Operator.sub ≠ .matmul := by decide
  obtain ⟨v, hv, -, hcontent⟩ := Tensor.scalar_combine hsub (1 : α) (t.map fun x => x * x)
  refine ⟨v, Node.evaluate_pair .sum (l := .scalar 1) ?_ hsquare hv, ?_⟩
  · rw [Node.evaluate, hone]
  · rw [hcontent, Tensor.map, Array.map_map]
    rfl

/-! ## Functions and their derivatives -/

/-- The value of a formula for what a run gives as `%0`, or the fault of the run. -/
def valueOn (formula : String) (slope : α) (run : Except FormulaFault (Tensor α)) :
    Except FormulaFault (Tensor α) := do
  let t ← run
  let n ← parse formula
  n.evaluate [t] slope

theorem valueOn_ok {formula : String} {n : Node} (h : parse formula = .ok n) (slope : α)
    (t : Tensor α) : valueOn formula slope (.ok t) = n.evaluate [t] slope := by
  change (parse formula >>= fun n => n.evaluate [t] slope) = _
  rw [h]
  rfl

/-- A function without a parameter is applied to the value of its argument. -/
theorem Node.evaluate_apply_one {op : Operation} {slope : α} {f : Tensor α → Tensor α}
    (hf : ∀ t, (op.meaning slope).run none t = .ok (f t)) (operands : List (Tensor α)) (n : Node) :
    (Node.apply op [n]).evaluate operands slope = (n.evaluate operands slope).map f := by
  change (do
    let t ← n.evaluate operands slope
    liftFault ((op.meaning slope).run none t)) = _
  cases n.evaluate operands slope with
  | error fault => rfl
  | ok t => exact congrArg liftFault (hf t)

/-- The calls of derivatives agree with arithmetic on the values of the functions, whatever the
argument and the operands. -/
structure DerivativesAgree (α : Type) [Element α] : Prop where
  softmax : ∀ (operands : List (Tensor α)) (slope : α) (n : Node),
    (Node.apply .dSoftmax [n]).evaluate operands slope =
      valueOn "%0 * (1 - %0)" slope ((Node.apply .softmax [n]).evaluate operands slope)
  sigmoid : ∀ (operands : List (Tensor α)) (slope : α) (n : Node),
    (Node.apply .dSigmoid [n]).evaluate operands slope =
      valueOn "%0 * (1 - %0)" slope ((Node.apply .sigmoid [n]).evaluate operands slope)
  tanh_fault : ∀ (operands : List (Tensor α)) (slope : α) (n : Node) (fault : FormulaFault),
    n.evaluate operands slope = .error fault →
      (Node.apply .dTanh [n]).evaluate operands slope = .error fault ∧
      valueOn "1 - %0 * %0" slope ((Node.apply .tanh [n]).evaluate operands slope) = .error fault
  tanh : ∀ (operands : List (Tensor α)) (slope : α) (n : Node) (t : Tensor α),
    n.evaluate operands slope = .ok t →
      ∃ u v, (Node.apply .dTanh [n]).evaluate operands slope = .ok u ∧ u.shape = t.shape ∧
        valueOn "1 - %0 * %0" slope ((Node.apply .tanh [n]).evaluate operands slope) = .ok v ∧
        u.content = v.content

/-- It is enough that a literal one is the one of the elements. -/
theorem derivativesAgree (hone : (Element.ofDouble 1 : α) = 1) : DerivativesAgree α where
  softmax operands slope n := by
    rw [Node.evaluate_apply_one (fun _ => rfl), Node.evaluate_apply_one (fun _ => rfl)]
    cases n.evaluate operands slope with
    | error fault => rfl
    | ok t => exact ((valueOn_ok parse_complementTree slope _).trans
        (evaluate_complementTree hone t.softmax slope)).symm
  sigmoid operands slope n := by
    rw [Node.evaluate_apply_one (fun _ => rfl), Node.evaluate_apply_one (fun _ => rfl)]
    cases n.evaluate operands slope with
    | error fault => rfl
    | ok t =>
        refine Eq.symm ((valueOn_ok parse_complementTree slope _).trans
          ((evaluate_complementTree hone (t.map Arithmetic.sigmoid) slope).trans ?_))
        refine congrArg Except.ok (Tensor.ext rfl ?_)
        exact Array.map_map
  tanh_fault operands slope n fault h := by
    rw [Node.evaluate_apply_one (fun _ => rfl), Node.evaluate_apply_one (fun _ => rfl), h]
    exact ⟨rfl, rfl⟩
  tanh operands slope n t h := by
    obtain ⟨v, hv, hcontent⟩ :=
      evaluate_squareComplementTree hone (t.map Arithmetic.tanh) slope
    rw [Node.evaluate_apply_one (fun _ => rfl), Node.evaluate_apply_one (fun _ => rfl), h]
    refine ⟨_, v, rfl, rfl, (valueOn_ok parse_squareComplementTree slope _).trans hv, ?_⟩
    rw [hcontent]
    exact (Array.map_map (f := Arithmetic.tanh) (g := fun x => 1 - x * x)).symm

/-- The derivatives agree with arithmetic in both widths. -/
theorem derivatives_by_arithmetic : DerivativesAgree Float ∧ DerivativesAgree Float32 := by
  have hsingle : (Element.ofDouble 1 : Float32) = 1 := by decide +kernel
  exact ⟨derivativesAgree rfl, derivativesAgree hsingle⟩

end TensorFormula
