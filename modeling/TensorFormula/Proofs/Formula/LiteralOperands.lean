import TensorFormula.Proofs.Engine.CachedReplies
import TensorFormula.Proofs.Formula.CanonicalText
import TensorFormula.Proofs.Tensor.Broadcasting

/-!
# A literal beside a tensor

A literal is a tensor with a single element, and an operator repeats it against every element of the
other side. On the right it never decides the shape of the result. On the left it does where the
tensor has a single element too: then nothing is repeated, and the two elements are a pair like any
other, which takes the shape of the left side.
-/

namespace TensorFormula

open Grammar Lexeme Text

/-! ## The text of an operation -/

variable {cs cs' gap gap' : List Char} {ts ts' : List Token} {n n' : Node} {k k' : Nat}
  {op : Operator}

theorem scansBefore_gap (h : gap.all isSeparator = true) (rest : List Char) :
    ScansBefore rest gap [] := by
  induction gap with
  | nil => exact .nil
  | cons c gap ih =>
      rw [List.all_cons, Bool.and_eq_true] at h
      exact (ScansBefore.separator (gap ++ rest) h.1).append (ih h.2)

theorem stops_gap (h : gap.all isSeparator = true) {rest : List Char} (hr : Stops rest) :
    Stops (gap ++ rest) := by
  cases gap with
  | nil => exact hr
  | cons c gap => exact stops_separators (List.cons_ne_nil c gap) h rest

theorem symbol?_symbol (h : op ≠ .matmul) : symbol? op.symbol = some (.operator op) := by
  cases op with
  | matmul => exact absurd rfl h
  | _ => rfl

theorem stops_symbol (h : op ≠ .matmul) (rest : List Char) : Stops (op.symbol :: rest) := by
  cases op with
  | matmul => exact absurd rfl h
  | _ => exact stops_cons (by decide) (by decide)

/-- The texts of two operands with an operator between them. -/
def operationText (left gap : List Char) (op : Operator) (gap' right : List Char) : List Char :=
  left ++ (gap ++ ([op.symbol] ++ (gap' ++ right)))

theorem Spells.operation (h : Spells cs ts) (h' : Spells cs' ts') (hop : op ≠ .matmul)
    (hg : gap.all isSeparator = true) (hg' : gap'.all isSeparator = true) :
    Spells (operationText cs gap op gap' cs') (ts ++ .operator op :: ts') := by
  intro rest hr
  have hright := (scansBefore_gap hg' (cs' ++ rest)).append (h' rest hr)
  have hsymbol := (scansBefore_symbol (gap' ++ cs' ++ rest) (symbol?_symbol hop)).append hright
  have hgap := (scansBefore_gap hg ([op.symbol] ++ (gap' ++ cs') ++ rest)).append hsymbol
  refine (h _ ?_).append hgap
  rw [List.append_assoc]
  exact stops_gap hg (stops_symbol hop _)

theorem SpellsTerm.operation (h : SpellsTerm cs n k) (h' : SpellsTerm cs' n' k')
    (hop : op ≠ .matmul) (hg : gap.all isSeparator = true) (hg' : gap'.all isSeparator = true) :
    SpellsSum (operationText cs gap op gap' cs') (.chain (Rank.of op) [n, n'] [op])
      (max k k') := by
  obtain ⟨t, hs, rfl, rfl⟩ := h
  obtain ⟨t', hs', rfl, rfl⟩ := h'
  have hall := hs.operation hs' hop hg hg'
  cases hr : Rank.of op with
  | sum =>
      refine ⟨.mk (.mk (.plain t) .nil) (.cons op hr (.mk (.plain t') .nil) .nil), ?_, rfl, ?_⟩
      · simpa [Additive.tokens, Addends.tokens, Multiplicative.tokens, Multipliers.tokens,
          Unary.tokens] using hall
      · simp [Additive.nesting, Addends.nesting, Multiplicative.nesting, Multipliers.nesting,
          Unary.nesting]
  | product =>
      refine ⟨.mk (.mk (.plain t) (.cons op hr (.plain t') .nil)) .nil, ?_, rfl, ?_⟩
      · simpa [Additive.tokens, Addends.tokens, Multiplicative.tokens, Multipliers.tokens,
          Unary.tokens] using hall
      · simp [Additive.nesting, Addends.nesting, Multiplicative.nesting, Multipliers.nesting,
          Unary.nesting]

/-! ## Its value -/

variable {α : Type} [Element α]

theorem Node.evaluate_pair (r : Rank) {operands : List (Tensor α)} {slope : α} {l m u : Tensor α}
    (hl : n.evaluate operands slope = .ok l) (hm : n'.evaluate operands slope = .ok m)
    (hu : l.combine m op = .ok u) :
    (Node.chain r [n, n'] [op]).evaluate operands slope = .ok u := by
  rw [evaluate, hl]
  change evaluateLinks operands slope l [n'] [op] = _
  rw [evaluateLinks, hm]
  change (liftFault (l.combine m op) >>= fun v => evaluateLinks operands slope v [] []) = _
  rw [hu]
  rfl

/-- Every element is paired with the number, also where the other side has the one element only. -/
theorem Tensor.content_of_paired_scalar {v : α} {t u : Tensor α}
    (h : Paired op (.scalar v) t u) : u.content = t.content.map (op.eval v) := by
  have hcount : u.count = t.count := by
    rw [count_eq, h.shape]
    by_cases hone : t.count = 1
    · rw [if_neg fun hne => hne.2 hone, hone]
      rfl
    · rw [if_pos ⟨rfl, hone⟩, count_eq]
  refine Array.ext_getElem? fun i => ?_
  rw [Array.getElem?_map]
  by_cases hi : i < u.count
  · have hit : i < t.count := hcount ▸ hi
    obtain ⟨x, y, hx, hy, he⟩ := h.element i hi
    rw [facing_single rfl] at hx
    rw [facing_of_lt hit] at hy
    rw [he, Array.getElem?_eq_getElem hit, Option.map_some, Option.some.inj hy,
      ← Option.some.inj hx]
    rfl
  · have hit : ¬ i < t.count := hcount ▸ hi
    rw [Array.getElem?_eq_none (Nat.le_of_not_lt hi),
      Array.getElem?_eq_none (Nat.le_of_not_lt hit)]
    rfl

theorem Tensor.scalar_combine (hop : op ≠ .matmul) (v : α) (t : Tensor α) :
    ∃ u, (Tensor.scalar v).combine t op = .ok u ∧
      u.shape = (if t.count = 1 then .scalar else t.shape) ∧
      u.content = t.content.map (op.eval v) := by
  have hm : ¬ Multiplies op (.scalar v) t := fun h => hop h.1
  obtain ⟨u, hu, hp⟩ := combine_of_pairable hm (.inr (.inl rfl))
  refine ⟨u, hu, ?_, content_of_paired_scalar hp⟩
  rw [hp.shape]
  by_cases h : t.count = 1
  · rw [if_pos h, if_neg fun hone => hone.2 h]
    rfl
  · rw [if_neg h, if_pos ⟨rfl, h⟩]

/-- The value of a literal as an element. -/
def literalValue (α : Type) [Element α] (literal : List Char) : α :=
  Element.ofDouble ((Decimal.ofLiteral literal).toDouble false)

namespace Engine

variable {e : Engine α} {t l m u : Tensor α} {rest : List (Tensor α)}

theorem calculate_operation (he : e.Sound) (h : SpellsTerm cs n 0) (h' : SpellsTerm cs' n' 0)
    (hop : op ≠ .matmul) (hg : gap.all isSeparator = true) (hg' : gap'.all isSeparator = true)
    (hl : n.evaluate (t :: rest) e.slope = .ok l) (hm : n'.evaluate (t :: rest) e.slope = .ok m)
    (hu : l.combine m op = .ok u) :
    (e.calculate t (.ofList (operationText cs gap op gap' cs')) rest).1 = .ok u := by
  have hparse := (h.operation h' hop hg hg').parse_eq (Nat.zero_le _)
  rw [calculate, evaluate_fst he, hparse]
  exact Node.evaluate_pair (Rank.of op) hl hm hu

theorem spellsTerm_receiver : SpellsTerm ['%', '0'] (.operand 0) 0 :=
  spellsTerm_operand (i := 0) (by decide)

theorem calculate_literal_right (he : e.Sound) (t : Tensor α) (rest : List (Tensor α))
    (hl : IsLiteral cs) (hop : op ≠ .matmul) (hg : gap.all isSeparator = true)
    (hg' : gap'.all isSeparator = true) :
    (e.calculate t (.ofList (operationText ['%', '0'] gap op gap' cs)) rest).1 =
      .ok (t.applyScalar op (literalValue α cs)) :=
  calculate_operation he spellsTerm_receiver (spellsTerm_literal hl) hop hg hg' rfl rfl
    (Tensor.combine_scalar op t _)

theorem calculate_literal_left (he : e.Sound) (t : Tensor α) (rest : List (Tensor α))
    (cs gap gap' : List Char) (op : Operator) (hl : IsLiteral cs) (hop : op ≠ .matmul)
    (hg : gap.all isSeparator = true) (hg' : gap'.all isSeparator = true) :
    ∃ u, (e.calculate t (.ofList (operationText cs gap op gap' ['%', '0'])) rest).1 = .ok u ∧
      u.shape = (if t.count = 1 then .scalar else t.shape) ∧
      u.content = t.content.map (op.eval (literalValue α cs)) := by
  obtain ⟨u, hu, hshape, hcontent⟩ := Tensor.scalar_combine hop (literalValue α cs) t
  refine ⟨u, ?_, hshape, hcontent⟩
  exact calculate_operation he (spellsTerm_literal hl) spellsTerm_receiver hop hg hg' rfl rfl hu

/-! ## Main statement -/

/-- An operator between a literal and a tensor always has a value. With the literal on the right it
has the shape of the tensor, and on the left it has that shape as well, unless the tensor has a
single element: that value has the shape of the literal. -/
theorem calculate_with_literal (e : Engine α) (he : e.Sound) (t : Tensor α)
    (rest : List (Tensor α)) (literal gap gap' : List Char) (op : Operator)
    (hl : IsLiteral literal) (hop : op ≠ .matmul) (hg : gap.all isSeparator = true)
    (hg' : gap'.all isSeparator = true) :
    (∃ u, (e.calculate t (.ofList (operationText ['%', '0'] gap op gap' literal)) rest).1 = .ok u ∧
      u.shape = t.shape ∧
      u.content = t.content.map fun x => op.eval x (literalValue α literal)) ∧
    ∃ u, (e.calculate t (.ofList (operationText literal gap op gap' ['%', '0'])) rest).1 = .ok u ∧
      u.shape = (if t.count = 1 then .scalar else t.shape) ∧
      u.content = t.content.map fun x => op.eval (literalValue α literal) x :=
  ⟨⟨_, calculate_literal_right he t rest hl hop hg hg', rfl, rfl⟩,
    calculate_literal_left he t rest literal gap gap' op hl hop hg hg'⟩

/-- A single element in two dimensions. -/
def singleCell : Tensor Float := ⟨.matrix 1 1, #[5], by decide, rfl⟩

def twoCells : Tensor Float := ⟨.matrix 1 2, #[5, 6], by decide, rfl⟩

theorem isLiteral_two : IsLiteral ['2'] := .whole (by decide) (List.all_eq_true.1 (by decide))

theorem calculate_with_literal_cells :
    (∃ u, twoCells.calculate "2 - %0" [] = .ok u ∧ u.shape = .matrix 1 2 ∧
      u.content = #[-3, -4]) ∧
    (∃ u, singleCell.calculate "%0 - 2" [] = .ok u ∧ u.shape = .matrix 1 1 ∧
      u.content = #[3]) ∧
    ∃ u, singleCell.calculate "2/%0" [] = .ok u ∧ u.shape = .scalar := by
  have hs : (standard : Engine Float).Sound := sound_ofSettings .standard
  obtain ⟨-, w, hw, hshape, hcontent⟩ := calculate_with_literal standard hs twoCells [] ['2'] [' ']
    [' '] .sub isLiteral_two (by decide) (by decide) (by decide)
  obtain ⟨⟨u, hu, hshape', hcontent'⟩, -⟩ := calculate_with_literal standard hs singleCell [] ['2']
    [' '] [' '] .sub isLiteral_two (by decide) (by decide) (by decide)
  obtain ⟨-, v, hv, hshape'', -⟩ := calculate_with_literal standard hs singleCell [] ['2'] [] []
    .div isLiteral_two (by decide) (by decide) (by decide)
  refine ⟨⟨w, hw, hshape, ?_⟩, ⟨u, hu, hshape', ?_⟩, v, hv, hshape''⟩
  · rw [hcontent]
    decide +kernel
  · rw [hcontent']
    decide +kernel

/-- The shape of a single element in several dimensions is lost behind a literal. -/
theorem singleCell_loses_shape :
    ¬ ∃ u, singleCell.calculate "2 - %0" [] = .ok u ∧ u.shape = singleCell.shape := by
  have hs : (standard : Engine Float).Sound := sound_ofSettings .standard
  obtain ⟨w, hw, hshape, -⟩ := calculate_literal_left hs singleCell [] ['2'] [' '] [' '] .sub
    isLiteral_two (by decide) (by decide) (by decide)
  rintro ⟨u, hu, hkept⟩
  obtain rfl : u = w := Except.ok.inj (hu.symm.trans hw)
  exact absurd (hshape.symm.trans hkept) (by decide)

end Engine

end TensorFormula
