import TensorFormula.Proofs.Formula.Blame
import TensorFormula.Proofs.Formula.ShapeInference
import TensorFormula.Proofs.Memory.Formulas
import TensorFormula.Proofs.Tensor.Broadcasting

/-!
# Room for products

A formula makes no sizes of its own: each size of its value is one, or a size of an operand. So
there is room for every matrix product where the sizes of the operands are below `2 ^ 32`, and then
the run of a tree over blocks has the outcome of its run over tensors.
-/

namespace TensorFormula

/-! ## Sizes -/

namespace Shape

/-- All sizes have a property. -/
def All (P : Nat → Prop) (s : Shape) : Prop := ∀ d ∈ s.dims, P d

variable {P : Nat → Prop} {l r s t : Shape}

theorem All.combine {op : Operator} (hl : l.All P) (hr : r.All P) (h : l.combine op r = .ok s) :
    s.All P := by
  rw [Shape.combine] at h
  split at h
  · obtain rfl := Except.ok.inj h
    exact List.forall_mem_append.2 ⟨fun d hd => hl d (List.mem_of_mem_take hd),
      fun d hd => hr d (List.mem_of_mem_drop hd)⟩
  · split at h
    · exact Except.ok.inj h ▸ hl
    · split at h
      · exact Except.ok.inj h ▸ hl
      · split at h
        · exact Except.ok.inj h ▸ hr
        · cases h

theorem all_scalar (hone : P 1) : scalar.All P := List.forall_mem_singleton.2 hone

theorem all_vector_iff {n : Nat} : (vector n).All P ↔ P n := List.forall_mem_singleton

theorem all_matrix_iff {m n : Nat} : (matrix m n).All P ↔ P m ∧ P n := by
  simp [All, matrix]

/-- The elements of a vector, a row or a column are as many as one of its sizes says. -/
theorem All.count (hs : s.All P) (h : Tensor.isLinear s = true) : P s.count := by
  obtain ⟨ds⟩ := s
  match ds, h with
  | [n], _ => simpa [All, Shape.count] using hs
  | [m, n], h =>
      obtain rfl | rfl : m = 1 ∨ n = 1 := by simpa [Tensor.isLinear] using h
      · simpa [Shape.count] using (all_matrix_iff.1 hs).2
      · simpa [Shape.count] using (all_matrix_iff.1 hs).1

theorem All.rearrange (hone : P 1) (hs : s.All P) (q : Rearrangement)
    (h : s.rearrange q = .ok t) : t.All P := by
  cases q with
  | transpose =>
      obtain ⟨ds⟩ := s
      match ds, h with
      | [m, n], h =>
          obtain rfl := Except.ok.inj h
          exact all_matrix_iff.2 (all_matrix_iff.1 hs).symm
  | rowMatrix =>
      obtain ⟨ds⟩ := s
      match ds, h with
      | [n], h =>
          obtain rfl := Except.ok.inj h
          exact all_matrix_iff.2 ⟨hone, all_vector_iff.1 hs⟩
  | columnMatrix =>
      obtain ⟨ds⟩ := s
      match ds, h with
      | [n], h =>
          obtain rfl := Except.ok.inj h
          exact all_matrix_iff.2 ⟨all_vector_iff.1 hs, hone⟩
  | vector =>
      change (if Tensor.isLinear s then _ else _) = _ at h
      split at h
      · next hl =>
          obtain rfl := Except.ok.inj h
          exact all_vector_iff.2 (hs.count hl)
      · cases h

theorem All.perform (hone : P 1) (hs : s.All P) {op : Operation} (h : s.perform op = .ok t) :
    t.All P := by
  cases op with
  | min | max | sumAbs | sumSqr => exact Except.ok.inj h ▸ all_scalar hone
  | transpose => exact hs.rearrange hone .transpose h
  | rowMatrix => exact hs.rearrange hone .rowMatrix h
  | columnMatrix => exact hs.rearrange hone .columnMatrix h
  | vector => exact hs.rearrange hone .vector h
  | _ => exact Except.ok.inj h ▸ hs

end Shape

namespace Node

variable {P : Nat → Prop}

mutual

theorem all_of_outline {operands : List Shape} (hone : P 1) (ho : ∀ s ∈ operands, s.All P) :
    (n : Node) → {s : Shape} → n.outline operands = .ok s → s.All P
  | constant _, _, h => Except.ok.inj h ▸ Shape.all_scalar hone
  | operand i, _, h => by
      rw [outline] at h
      split at h
      · next s hs => exact Except.ok.inj h ▸ ho s (List.mem_of_getElem? hs)
      · cases h
  | negate n, _, h => all_of_outline hone ho n h
  | chain _ [] _, _, h => nomatch h
  | chain _ (n :: ns) os, _, h => by
      rw [outline, bind_eq_ok_iff] at h
      obtain ⟨s, hs, h⟩ := h
      exact all_of_outlineLinks hone ho ns os (all_of_outline hone ho n hs) h
  | apply op [n], _, h => by
      simp only [outline, bind_eq_ok_iff, mapError_eq_ok_iff] at h
      obtain ⟨s, hs, h⟩ := h
      exact (all_of_outline hone ho n hs).perform hone h
  | apply op [n, p], _, h => by
      rw [outline] at h
      split at h
      · simp only [bind_eq_ok_iff, mapError_eq_ok_iff] at h
        obtain ⟨s, hs, -, -, -, -, h⟩ := h
        exact (all_of_outline hone ho n hs).perform hone h
      · cases h
  | apply _ [], _, h => nomatch h
  | apply _ (_ :: _ :: _ :: _), _, h => nomatch h

theorem all_of_outlineLinks {operands : List Shape} (hone : P 1) (ho : ∀ s ∈ operands, s.All P) :
    (ns : List Node) → (os : List Operator) → {s t : Shape} → s.All P →
    outlineLinks operands s ns os = .ok t → t.All P
  | n :: ns, o :: os, _, _, hs, h => by
      simp only [outlineLinks, bind_eq_ok_iff, mapError_eq_ok_iff] at h
      obtain ⟨u, hu, v, hv, h⟩ := h
      exact all_of_outlineLinks hone ho ns os (hs.combine (all_of_outline hone ho n hu) hv) h
  | [], _, _, _, hs, h => Except.ok.inj h ▸ hs
  | _ :: _, [], _, _, hs, h => Except.ok.inj h ▸ hs

end

/-- Each size of a value is one, or a size of an operand. -/
theorem all_of_evaluate {α : Type} [Element α] {xs : List (Tensor α)} {slope : α}
    (hone : P 1) (hx : ∀ x ∈ xs, x.shape.All P) {n : Node} {t : Tensor α}
    (h : n.evaluate xs slope = .ok t) : t.shape.All P := by
  have hshape := map_shape_evaluate xs slope n
  rw [h] at hshape
  exact all_of_outline hone (List.forall_mem_map.2 hx) n hshape.symm

end Node

/-! ## Room -/

/-- Any two of the sizes have a product that fits in a word. -/
abbrev Shape.Roomy (s : Shape) : Prop := s.All fun d => d < Nat.pow 2 32

namespace Block

theorem run_apply_of_roomy {α : Type} [Arithmetic α] (op : Operator) {l r : Tensor α}
    (hl : l.shape.Roomy) (hr : r.shape.Roomy) :
    (apply op r.block).run l.block = settled l ((l.combine r op).map fun u => ((), u)) := by
  refine Tensor.run_apply fun u hm hu => ?_
  obtain ⟨-, m, k, n, hls, hrs⟩ := hm
  obtain ⟨u', hu', hs, -⟩ := Tensor.exists_matmul hls hrs
  obtain rfl := Except.ok.inj (hu.symm.trans hu')
  rw [Shape.Roomy, hls, Shape.all_matrix_iff] at hl
  rw [Shape.Roomy, hrs, Shape.all_matrix_iff] at hr
  rw [u.count_eq, hs, Shape.count_matrix]
  exact Nat.lt_of_lt_of_eq (Nat.mul_lt_mul'' hl.1 hr.2) (by decide)

section Trees

variable {α β γ δ ε κ : Type}

theorem told_bind {p : Except (Stop ε) γ} {f : β → γ} {r : Except ε β}
    {q : γ → Except (Stop ε) δ} {g : κ → δ} {s : β → Except ε κ} (h : p = told f r)
    (hq : ∀ x, r = .ok x → q (f x) = told g (s x)) : p >>= q = told g (r >>= s) := by
  subst h
  cases r with
  | error e => rfl
  | ok x => exact hq x rfl

variable [Element α] {xs : List (Tensor α)} {slope : α}

mutual

theorem evaluate_of_roomy (hx : ∀ x ∈ xs, x.shape.Roomy) : (n : Node) →
    evaluate (xs.map Tensor.block) slope n = told Tensor.block (n.evaluate xs slope)
  | .constant v => rfl
  | .operand i => operandAt_block xs i
  | .negate n => by
      rw [evaluate, Node.evaluate]
      refine told_bind (evaluate_of_roomy hx n) fun t _ => ?_
      exact inFormula_eq (r := .ok (t.map fun x => -x)) (run_mapAll t _)
  | .chain _ [] _ => rfl
  | .chain _ (n :: ns) os => by
      rw [evaluate, Node.evaluate]
      refine told_bind (evaluate_of_roomy hx n) fun t ht => ?_
      exact evaluateLinks_of_roomy hx (Node.all_of_evaluate (by decide) hx ht) ns os
  | .apply op [n] => by
      rw [evaluate, Node.evaluate]
      exact told_bind (evaluate_of_roomy hx n) fun t _ => inFormula_eq (run_perform slope none op t)
  | .apply op [n, p] => by
      rw [evaluate, Node.evaluate]
      by_cases h : op.arity = .oneOrTwo
      · rw [if_pos h, if_pos h]
        refine told_bind (evaluate_of_roomy hx n) fun t _ => ?_
        refine told_bind (evaluate_of_roomy hx p) fun u _ => ?_
        refine told_bind (parameterOf_block op u) fun v _ => ?_
        exact inFormula_eq (run_perform slope (some v) op t)
      · rw [if_neg h, if_neg h]
        rfl
  | .apply op [] => rfl
  | .apply op (_ :: _ :: _ :: _) => rfl

theorem evaluateLinks_of_roomy (hx : ∀ x ∈ xs, x.shape.Roomy) {t : Tensor α}
    (ht : t.shape.Roomy) : (ns : List Node) → (os : List Operator) →
    evaluateLinks (xs.map Tensor.block) slope t.block ns os =
      told Tensor.block (Node.evaluateLinks xs slope t ns os)
  | n :: ns, o :: os => by
      rw [evaluateLinks, Node.evaluateLinks]
      refine told_bind (evaluate_of_roomy hx n) fun u hu => ?_
      have hu : u.shape.Roomy := Node.all_of_evaluate (by decide) hx hu
      refine told_bind (inFormula_eq (run_apply_of_roomy o ht hu)) fun v hv => ?_
      -- The value so far has sizes of its two sides only, so the rest of the chain has room too.
      have hshape := map_shape_liftFault (t.map_shape_combine u o)
      rw [hv] at hshape
      have hv : v.shape.Roomy := ht.combine hu (mapError_eq_ok_iff.1 hshape.symm)
      exact evaluateLinks_of_roomy hx hv ns os
  | [], _ => rfl
  | _ :: _, [] => rfl

end

/-- There is no room only if some operand has `2 ^ 32` elements or more along one dimension. -/
theorem evaluate_cases (xs : List (Tensor α)) (slope : α) (n : Node) :
    evaluate (xs.map Tensor.block) slope n = told Tensor.block (n.evaluate xs slope) ∨
      evaluate (xs.map Tensor.block) slope n = .error (.trap .oversize) ∧
        ∃ x ∈ xs, ∃ d ∈ x.shape.dims, Nat.pow 2 32 ≤ d := by
  by_cases hx : ∀ x ∈ xs, x.shape.Roomy
  · exact .inl (evaluate_of_roomy hx n)
  · have hlarge : ∃ x ∈ xs, ∃ d ∈ x.shape.dims, Nat.pow 2 32 ≤ d := by
      simpa only [Shape.Roomy, Shape.All, not_forall, Nat.not_lt, exists_prop] using hx
    exact (evaluate_follows xs slope n).symm.imp_right fun h => ⟨h, hlarge⟩

end Trees

end Block

end TensorFormula
