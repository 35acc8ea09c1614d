import TensorFormula.Proofs.Tensor.MatrixProduct

/-!
# Broadcasting, element by element

Where an operator does not make a matrix product, it pairs elements in the same place, and a tensor
with a single element repeats it. The result has the shape of the left side unless only the left
side is single. What can be paired is decided by the counts of elements alone, and whatever cannot
is refused with the operator and both shapes.
-/

namespace TensorFormula.Tensor

variable {α : Type}

/-- The element of a tensor that goes with the `i`-th of a result: the one in the same place, or the
only one. -/
def facing (t : Tensor α) (i : Nat) : Option α := t.content[if t.count = 1 then 0 else i]?

theorem facing_single {t : Tensor α} (h : t.count = 1) (i : Nat) : t.facing i = some t.first := by
  rw [facing, if_pos h]
  exact Array.getElem?_eq_getElem _

theorem facing_of_lt {t : Tensor α} {i : Nat} (h : i < t.count) :
    t.facing i = some (getElem t.content i h) := by
  by_cases hone : t.count = 1
  · obtain rfl : i = 0 := by omega
    exact facing_single hone 0
  · rw [facing, if_neg hone]
    exact Array.getElem?_eq_getElem _

theorem count_eq (t : Tensor α) : t.count = t.shape.count := t.size_content

variable {op : Operator} {l r u u' : Tensor α}

/-- Whether an operator makes the matrix product of two tensors. -/
def Multiplies (op : Operator) (l r : Tensor α) : Prop :=
  op = .matmul ∧ ∃ m k n, l.shape = .matrix m k ∧ r.shape = .matrix k n

theorem multiplies_iff :
    Multiplies op l r ↔ op = .matmul ∧ l.shape.multipliesWith r.shape = true := by
  rw [Multiplies, Block.multipliesWith_iff]

theorem not_multiplies_scalar (op : Operator) (l : Tensor α) (v : α) :
    ¬ Multiplies op l (.scalar v) := by
  rintro ⟨-, m, k, n, -, h⟩
  cases congrArg Shape.rank h

/-- Whether the elements of two tensors can be paired. -/
def Pairable (op : Operator) (l r : Tensor α) : Prop :=
  (op ≠ .matmul ∧ l.count = r.count) ∨ l.count = 1 ∨ r.count = 1

variable [Arithmetic α]

/-- The tensor `u` is made of the pairs of elements of `l` and `r`. -/
structure Paired (op : Operator) (l r u : Tensor α) : Prop where
  shape : u.shape = if l.count = 1 ∧ r.count ≠ 1 then r.shape else l.shape
  element : ∀ i < u.count, ∃ x y, l.facing i = some x ∧ r.facing i = some y ∧
    u.content[i]? = some (op.eval x y)

/-- The pairs determine the tensor that is made of them. -/
theorem Paired.eq (h : Paired op l r u) (h' : Paired op l r u') : u = u' := by
  have hshape : u.shape = u'.shape := h.shape.trans h'.shape.symm
  have hcount : u.count = u'.count := by rw [count_eq, count_eq, hshape]
  refine Tensor.ext hshape (Array.ext_getElem? fun i => ?_)
  by_cases hi : i < u.count
  · obtain ⟨x, y, hx, hy, he⟩ := h.element i hi
    obtain ⟨x', y', hx', hy', he'⟩ := h'.element i (hcount ▸ hi)
    obtain rfl := Option.some.inj (hx.symm.trans hx')
    obtain rfl := Option.some.inj (hy.symm.trans hy')
    rw [he, he']
  · have hi' : ¬ i < u'.count := hcount ▸ hi
    rw [Array.getElem?_eq_none (Nat.le_of_not_lt hi), Array.getElem?_eq_none (Nat.le_of_not_lt hi')]

theorem paired_zipWith (op : Operator) (h : l.shape.count = r.shape.count) :
    Paired op l r (l.zipWith r op.eval h) := by
  have hcount : l.count = r.count := by rw [count_eq, count_eq, h]
  constructor
  · rw [if_neg (by omega)]
    rfl
  · intro i hi
    have hil : i < l.count := by rwa [count_eq] at hi ⊢
    have hir : i < r.count := hcount ▸ hil
    refine ⟨_, _, facing_of_lt hil, facing_of_lt hir, ?_⟩
    rw [zipWith, Array.getElem?_zipWith, Array.getElem?_eq_getElem hil,
      Array.getElem?_eq_getElem hir]

theorem paired_map_left (op : Operator) (h : r.count = 1) :
    Paired op l r (l.map fun x => op.eval x r.first) := by
  constructor
  · rw [if_neg fun hone => hone.2 h]
    rfl
  · intro i hi
    have hil : i < l.count := by rwa [count_eq] at hi ⊢
    refine ⟨_, _, facing_of_lt hil, facing_single h i, ?_⟩
    rw [map, Array.getElem?_map, Array.getElem?_eq_getElem hil, Option.map_some]

theorem paired_map_right (op : Operator) (h : l.count = 1) (h' : r.count ≠ 1) :
    Paired op l r (r.map fun y => op.eval l.first y) := by
  constructor
  · rw [if_pos ⟨h, h'⟩]
    rfl
  · intro i hi
    have hir : i < r.count := by rwa [count_eq] at hi ⊢
    refine ⟨_, _, facing_single h i, facing_of_lt hir, ?_⟩
    rw [map, Array.getElem?_map, Array.getElem?_eq_getElem hir, Option.map_some]

theorem combine_of_multiplies (h : Multiplies op l r) : l.combine r op = l.matmul r := by
  rw [combine, if_pos (multiplies_iff.1 h)]

theorem combine_of_pairable (hm : ¬ Multiplies op l r) (h : Pairable op l r) :
    ∃ u, l.combine r op = .ok u ∧ Paired op l r u := by
  rw [multiplies_iff] at hm
  rw [Pairable, count_eq, count_eq] at h
  rw [combine, if_neg hm]
  by_cases hzip : op ≠ .matmul ∧ l.shape.count = r.shape.count
  · rw [dif_pos hzip]
    exact ⟨_, rfl, paired_zipWith op hzip.2⟩
  · rw [dif_neg hzip]
    by_cases hr : r.shape.count = 1
    · rw [if_pos hr]
      exact ⟨_, rfl, paired_map_left op (r.count_eq.trans hr)⟩
    · have hl : l.shape.count = 1 := (h.resolve_left hzip).resolve_right hr
      rw [if_neg hr, if_pos hl]
      exact ⟨_, rfl, paired_map_right op (l.count_eq.trans hl) (r.count_eq ▸ hr)⟩

theorem combine_of_not_pairable (hm : ¬ Multiplies op l r) (h : ¬ Pairable op l r) :
    l.combine r op = .error (.incompatible op l.shape r.shape) := by
  rw [multiplies_iff] at hm
  rw [Pairable, count_eq, count_eq, not_or, not_or] at h
  rw [combine, if_neg hm, dif_neg h.1, if_neg h.2.2, if_neg h.2.1]

/-- A number on the right is a tensor with a single element. -/
theorem combine_scalar (op : Operator) (l : Tensor α) (v : α) :
    l.combine (.scalar v) op = .ok (l.applyScalar op v) := by
  obtain ⟨u, hu, hp⟩ := combine_of_pairable (not_multiplies_scalar op l v) (.inr (.inr rfl))
  rw [hu, hp.eq (paired_map_left op rfl)]
  rfl

/-- A tensor and what is made of each of its elements are paired element by element. -/
theorem combine_map_self {d : Tensor α} {f : α → α} (hop : op ≠ .matmul)
    (h : d.content = l.content.map f) : l.combine d op = .ok (l.map fun x => op.eval x (f x)) := by
  have hcount : l.shape.count = d.shape.count := by
    rw [← count_eq, ← count_eq, count, count, h, Array.size_map]
  rw [combine, if_neg fun hm => hop hm.1, dif_pos ⟨hop, hcount⟩]
  refine congrArg Except.ok (Tensor.ext rfl (Array.ext_getElem? fun i => ?_))
  simp only [zipWith, map, h, Array.getElem?_zipWith, Array.getElem?_map]
  cases l.content[i]? <;> rfl

/-! ## In place -/

theorem run_apply {op : Operator} {l r : Tensor α}
    (h : ∀ u, Multiplies op l r → l.matmul r = .ok u → u.count < Nat.pow 2 64) :
    (Block.apply op r.block).run l.block =
      Block.settled l ((l.combine r op).map fun u => ((), u)) := by
  by_cases hm : Multiplies op l r
  · obtain ⟨rfl, m, k, n, hl, hr⟩ := id hm
    obtain ⟨u, hu, -⟩ := exists_matmul hl hr
    have hblock := Block.matmul_block_of_lt hl hr hu (u.count_eq ▸ h u hm hu)
    rw [Block.run_apply_of_product (multiplies_iff.1 hm), hblock, combine_of_multiplies hm, hu]
    rfl
  · exact Block.run_apply_of_not_product (multiplies_iff.not.1 hm)

theorem run_applyScalar (op : Operator) (l : Tensor α) (v : α) :
    (Block.applyScalar op v).run l.block = (Block.apply op (Block.scalar v)).run l.block := by
  have hnot := multiplies_iff.not.1 (not_multiplies_scalar op l v)
  have happly := Block.run_apply_of_not_product hnot
  rw [combine_scalar] at happly
  exact happly.symm

/-! ## Main statement -/

/-- The outcome of an operator on any two tensors, and of its forms that change the left side in its
place and that take a number for the right side. -/
theorem combine_pairs_or_multiplies (op : Operator) (l r : Tensor α) :
    (Multiplies op l r → ∃ u, l.matmul r = .ok u ∧ l.combine r op = .ok u) ∧
    (¬ Multiplies op l r → Pairable op l r →
      ∃ u, l.combine r op = .ok u ∧ Paired op l r u) ∧
    (¬ Multiplies op l r → ¬ Pairable op l r →
      l.combine r op = .error (.incompatible op l.shape r.shape)) ∧
    ((∀ u, Multiplies op l r → l.matmul r = .ok u → u.count < Nat.pow 2 64) →
      (Block.apply op r.block).run l.block =
        Block.settled l ((l.combine r op).map fun u => ((), u))) ∧
    (∀ v, l.combine (.scalar v) op = .ok (l.applyScalar op v) ∧
      (Block.applyScalar op v).run l.block = (Block.apply op (Block.scalar v)).run l.block) := by
  refine ⟨fun hm => ?_, combine_of_pairable, combine_of_not_pairable, run_apply, fun v => ?_⟩
  · obtain ⟨-, m, k, n, hl, hr⟩ := id hm
    obtain ⟨u, hu, -⟩ := exists_matmul hl hr
    exact ⟨u, hu, (combine_of_multiplies hm).trans hu⟩
  · exact ⟨combine_scalar op l v, run_applyScalar op l v⟩

/-- A single element in three dimensions. -/
def sampleSingle : Tensor Float := ⟨⟨[1, 1, 1]⟩, #[2], by decide, rfl⟩

def sampleRow : Tensor Float := ⟨.vector 3, #[3, 4, 5], by decide, rfl⟩

/-- The matrix operator repeats the single element and takes the shape of the right side, but does
not pair two vectors, which subtraction does. -/
theorem combine_pairs_or_multiplies_vectors :
    (∃ u, sampleSingle.combine sampleRow .matmul = .ok u ∧
      Paired .matmul sampleSingle sampleRow u ∧ u.content = #[6, 8, 10]) ∧
    sampleRow.combine sampleRow .matmul =
      .error (.incompatible .matmul (.vector 3) (.vector 3)) ∧
    ∃ u, sampleRow.combine sampleRow .sub = .ok u ∧ Paired .sub sampleRow sampleRow u ∧
      u.content = #[0, 0, 0] := by
  have hrepeat := combine_pairs_or_multiplies .matmul sampleSingle sampleRow
  have hrefuse := combine_pairs_or_multiplies .matmul sampleRow sampleRow
  have hpair := combine_pairs_or_multiplies .sub sampleRow sampleRow
  have hsingle : ¬ Multiplies .matmul sampleSingle sampleRow := by
    rw [multiplies_iff]
    decide
  have hrow : ∀ op, ¬ Multiplies op sampleRow sampleRow := by
    intro op
    rw [multiplies_iff]
    cases op <;> decide
  have hfacing : ¬ Pairable .matmul sampleRow sampleRow := by
    rintro (h | h | h)
    · exact h.1 rfl
    · cases h
    · cases h
  obtain ⟨u, hu, hproduct⟩ := hrepeat.2.1 hsingle (.inr (.inl rfl))
  obtain ⟨v, hv, hdifference⟩ := hpair.2.1 (hrow .sub) (.inl ⟨nofun, rfl⟩)
  refine ⟨⟨u, hu, hproduct, ?_⟩, hrefuse.2.2.1 (hrow .matmul) hfacing, v, hv, hdifference, ?_⟩
  · rw [hproduct.eq (paired_map_right .matmul rfl (by decide))]
    decide +kernel
  · rw [hdifference.eq (paired_zipWith .sub rfl)]
    decide +kernel

end TensorFormula.Tensor
