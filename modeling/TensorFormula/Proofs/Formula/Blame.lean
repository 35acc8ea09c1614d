import TensorFormula.Proofs.Formula.Hoisting
import TensorFormula.Proofs.Formula.ParsedTrees
import TensorFormula.Proofs.Steps
import TensorFormula.Proofs.Tensor.Rearranging

/-!
# Where faults come from

Every fault of an evaluation is raised at one node of the tree, and each kind of node raises faults
of its own: calls for their arguments, chains for shapes that do not fit, suffixes for shapes that
they do not take, and operands that are not there. Conversely a value needs every operand that the
tree mentions, because an evaluation that succeeds has visited the whole tree.
-/

namespace TensorFormula

/-! ## Shapes that do not fit -/

/-- Two shapes that an operator can neither multiply nor pair. -/
structure Shape.Clash (o : Operator) (l r : Shape) : Prop where
  product : o = .matmul → l.multipliesWith r = false
  pairs : o ≠ .matmul → l.count ≠ r.count
  left : l.count ≠ 1
  right : r.count ≠ 1

/-- The numbers of arguments that a function takes. -/
def Arity.Admits : Arity → Nat → Prop
  | one, k => k = 1
  | oneOrTwo, k => k = 1 ∨ k = 2

/-- The rearrangement that a suffix stands for. -/
def Operation.rearrangement? : Operation → Option Rearrangement
  | transpose => some .transpose
  | rowMatrix => some .rowMatrix
  | columnMatrix => some .columnMatrix
  | vector => some .vector
  | _ => none

namespace Tensor

variable {α : Type} [Arithmetic α]

theorem clash_of_combine {o : Operator} {l r : Tensor α} {f : TensorFault}
    (h : l.combine r o = .error f) :
    f = .incompatible o l.shape r.shape ∧ Shape.Clash o l.shape r.shape := by
  by_cases hm : Multiplies o l r
  · obtain ⟨-, m, k, n, hl, hr⟩ := id hm
    obtain ⟨u, hu, -⟩ := exists_matmul hl hr
    rw [combine_of_multiplies hm, hu] at h
    cases h
  · by_cases hp : Pairable o l r
    · obtain ⟨u, hu, -⟩ := combine_of_pairable hm hp
      rw [hu] at h
      cases h
    · rw [combine_of_not_pairable hm hp] at h
      rw [multiplies_iff, not_and, Bool.not_eq_true] at hm
      rw [Pairable, count_eq, count_eq, not_or, not_or, not_and] at hp
      exact ⟨(Except.error.inj h).symm, hm, hp.1, hp.2.1, hp.2.2⟩

/-- Only a suffix can fail, and only on a shape that it does not take. -/
theorem refused_of_run {op : Operation} {slope : α} {parameter : Option α} {t : Tensor α}
    {f : TensorFault} (h : (op.meaning slope).run parameter t = .error f) :
    ∃ r, op.rearrangement? = some r ∧ ¬ r.Admits t.shape ∧ f = r.refusal t.shape := by
  have hrefused (r : Rearrangement) (hr : t.rearrange r = .error f) :
      ¬ r.Admits t.shape ∧ f = r.refusal t.shape := by
    by_cases ha : r.Admits t.shape
    · obtain ⟨u, hu, -⟩ := rearrange_of_admits ha
      rw [hu] at hr
      cases hr
    · rw [rearrange_of_not_admits ha] at hr
      exact ⟨ha, (Except.error.inj hr).symm⟩
  cases op with
  | transpose | rowMatrix | columnMatrix | vector => exact ⟨_, rfl, hrefused _ h⟩
  | _ => cases h

end Tensor

theorem Operation.arity_of_rearrangement {op : Operation} {r : Rearrangement}
    (h : op.rearrangement? = some r) : op.arity = .one := by
  cases op <;> first | rfl | cases h

theorem Arity.not_admits {a : Arity} {k : Nat} (hone : k ≠ 1) (htwo : a = .oneOrTwo → k ≠ 2) :
    ¬ a.Admits k := by
  cases a with
  | one => exact hone
  | oneOrTwo => exact not_or.2 ⟨hone, htwo rfl⟩

/-! ## Outcomes -/

section Outcomes

variable {α : Type}

theorem liftFault_eq_error {r : Except TensorFault (Tensor α)} {f : FormulaFault}
    (h : liftFault r = .error f) : ∃ e, r = .error e ∧ f = .tensor e := by
  cases r with
  | error e => exact ⟨e, rfl, (Except.error.inj h).symm⟩
  | ok t => cases h

theorem asParameter_eq_error {op : Operation} {t : Tensor α} {f : FormulaFault}
    (h : asParameter op t = .error f) :
    t.shape.count ≠ 1 ∧ f = .parameterNotSingle op t.shape := by
  rw [asParameter, t.count_eq] at h
  split at h
  · cases h
  · next hne => exact ⟨hne, (Except.error.inj h).symm⟩

theorem operandAt_eq_error {xs : List (Tensor α)} {i : Nat} {f : FormulaFault}
    (h : operandAt xs i = .error f) : xs.length ≤ i ∧ f = .operandMissing i xs.length := by
  rw [operandAt] at h
  split at h
  · cases h
  · next hi => exact ⟨List.getElem?_eq_none_iff.1 hi, (Except.error.inj h).symm⟩

theorem lt_of_operandAt {xs : List (Tensor α)} {i : Nat} {t : Tensor α}
    (h : operandAt xs i = .ok t) : i < xs.length := by
  by_contra hi
  rw [operandAt, List.getElem?_eq_none (Nat.le_of_not_lt hi)] at h
  cases h

end Outcomes

namespace Node

/-! ## Parts of a tree -/

/-- The tree `n` has a part `m`. -/
def Occurs (m n : Node) : Prop := ∃ c : Context, c.fill m = n

variable {m n : Node} {ns : List Node}

theorem Occurs.refl (n : Node) : n.Occurs n := ⟨[], rfl⟩

theorem Occurs.inside (h : m.Occurs n) (f : Frame) : m.Occurs (f.fill n) := by
  obtain ⟨c, rfl⟩ := h
  exact ⟨f :: c, rfl⟩

/-! ## Faults of a node -/

/-- The faults that a node raises about values of its children. -/
inductive Raises : Node → FormulaFault → Prop
  | argumentCount {op : Operation} {ns : List Node} (h : ¬ op.arity.Admits ns.length) :
      Raises (.apply op ns) (.argumentCount op op.arity ns.length)
  | parameterNotSingle {op : Operation} {n p : Node} {s : Shape} (ha : op.arity = .oneOrTwo)
      (h : s.count ≠ 1) : Raises (.apply op [n, p]) (.parameterNotSingle op s)
  | incompatible {k : Rank} {ns : List Node} {os : List Operator} {o : Operator} {l r : Shape}
      (ho : o ∈ os) (h : Shape.Clash o l r) :
      Raises (.chain k ns os) (.tensor (.incompatible o l r))
  | notMatrix {n : Node} {s : Shape} (h : s.rank ≠ 2) :
      Raises (.apply .transpose [n]) (.tensor (.notMatrix .transpose s))
  | unsupported {op : Operation} {r : Rearrangement} {n : Node} {s : Shape}
      (ho : op.rearrangement? = some r) (hr : r ≠ .transpose) (h : ¬ r.Admits s) :
      Raises (.apply op [n]) (.tensor (.unsupported r s))

/-- A part of the tree raises the fault. -/
def MayRaise (n : Node) (f : FormulaFault) : Prop := ∃ m : Node, m.Occurs n ∧ m.Raises f

/-- The fault `f` comes from a part of the tree `n`, which is evaluated on `available` operands. -/
def Blames (available : Nat) (n : Node) (f : FormulaFault) : Prop :=
  n.MayRaise f ∨ ∃ i ∈ n.indices, available ≤ i ∧ f = .operandMissing i available

variable {available : Nat} {f : FormulaFault}

theorem Blames.inside (h : Blames available n f) (frame : Frame) :
    Blames available (frame.fill n) f := by
  obtain ⟨m, hm, hf⟩ | ⟨i, hi, h⟩ := h
  · exact .inl ⟨m, hm.inside frame, hf⟩
  · exact .inr ⟨i, frame.mem_indices_fill hi, h⟩

theorem Blames.chain (h : Blames available n f) (hn : n ∈ ns) (r : Rank) (os : List Operator) :
    Blames available (.chain r ns os) f := by
  obtain ⟨before, after, rfl⟩ := List.append_of_mem hn
  exact h.inside (.chain r before after os)

theorem Blames.apply (h : Blames available n f) (hn : n ∈ ns) (op : Operation) :
    Blames available (.apply op ns) f := by
  obtain ⟨before, after, rfl⟩ := List.append_of_mem hn
  exact h.inside (.apply op before after)

theorem Raises.blames (h : n.Raises f) : Blames available n f := .inl ⟨n, .refl n, h⟩

theorem Raises.of_refused {op : Operation} {r : Rearrangement} {s : Shape}
    (ho : op.rearrangement? = some r) (h : ¬ r.Admits s) (n : Node) :
    (Node.apply op [n]).Raises (.tensor (r.refusal s)) := by
  cases r with
  | transpose =>
      cases op with
      | transpose => exact .notMatrix h
      | _ => cases ho
  | rowMatrix | columnMatrix | vector => exact .unsupported ho nofun h

/-! ## Faults of an evaluation -/

variable {α : Type} [Element α] {xs : List (Tensor α)} {slope : α}

mutual

/-- A fault comes from a part of the tree, unless a chain of the tree is not one of a formula. -/
theorem blames_of_evaluate : (n : Node) → n.Linked → n.evaluate xs slope = .error f →
    n.Blames xs.length f
  | constant _, _, h => nomatch h
  | operand i, _, h => by
      obtain ⟨hi, rfl⟩ := operandAt_eq_error h
      exact .inr ⟨i, List.mem_singleton_self i, hi, rfl⟩
  | negate n, hl, h => by
      rw [evaluate, bind_eq_error_iff] at h
      obtain h | ⟨t, -, h⟩ := h
      · exact (blames_of_evaluate n hl h).inside .negate
      · cases h
  | chain _ [] _, hl, _ => absurd hl.1 (Nat.succ_ne_zero _)
  | chain r (n :: ns) os, hl, h => by
      rw [evaluate, bind_eq_error_iff] at h
      obtain h | ⟨t, -, h⟩ := h
      · exact (blames_of_evaluate n hl.2.1 h).chain List.mem_cons_self r os
      · obtain ⟨m, hm, hf⟩ | ⟨o, ho, s, s', hc, rfl⟩ := blames_of_evaluateLinks ns hl.2.2 h
        · exact hf.chain (List.mem_cons_of_mem n hm) r os
        · exact (Raises.incompatible ho hc).blames
  | apply op [n], hl, h => by
      rw [evaluate, bind_eq_error_iff] at h
      obtain h | ⟨t, -, h⟩ := h
      · exact (blames_of_evaluate n hl.1 h).apply List.mem_cons_self op
      · obtain ⟨e, he, rfl⟩ := liftFault_eq_error h
        obtain ⟨r, ho, hr, rfl⟩ := Tensor.refused_of_run he
        exact (Raises.of_refused ho hr n).blames
  | apply op [n, p], hl, h => by
      rw [evaluate] at h
      by_cases ha : op.arity = .oneOrTwo
      · simp only [if_pos ha, bind_eq_error_iff] at h
        obtain h | ⟨t, -, h | ⟨u, -, h | ⟨v, -, h⟩⟩⟩ := h
        · exact (blames_of_evaluate n hl.1 h).apply List.mem_cons_self op
        · exact (blames_of_evaluate p hl.2.1 h).apply (List.mem_cons_of_mem n List.mem_cons_self) op
        · obtain ⟨hu, rfl⟩ := asParameter_eq_error h
          exact (Raises.parameterNotSingle ha hu).blames
        · -- No suffix takes a parameter, and nothing else is refused for its shape.
          obtain ⟨e, he, rfl⟩ := liftFault_eq_error h
          obtain ⟨r, ho, -, -⟩ := Tensor.refused_of_run he
          rw [op.arity_of_rearrangement ho] at ha
          cases ha
      · rw [if_neg ha] at h
        obtain rfl := Except.error.inj h
        have hc : ¬ op.arity.Admits [n, p].length := Arity.not_admits nofun fun h => absurd h ha
        exact (Raises.argumentCount hc).blames
  | apply op [], _, h => by
      obtain rfl := Except.error.inj h
      have hc : ¬ op.arity.Admits ([] : List Node).length := Arity.not_admits nofun nofun
      exact (Raises.argumentCount hc).blames
  | apply op (n :: m :: k :: ns), _, h => by
      obtain rfl := Except.error.inj h
      have hc : ¬ op.arity.Admits (n :: m :: k :: ns).length :=
        Arity.not_admits (by simp) fun _ => by simp
      exact (Raises.argumentCount hc).blames

theorem blames_of_evaluateLinks : (ns : List Node) → AllLinked ns → {os : List Operator} →
    {t : Tensor α} → evaluateLinks xs slope t ns os = .error f →
    (∃ n ∈ ns, n.Blames xs.length f) ∨
      ∃ o ∈ os, ∃ l r, Shape.Clash o l r ∧ f = .tensor (.incompatible o l r)
  | [], _, _, _, h => nomatch h
  | _ :: _, _, [], _, h => nomatch h
  | n :: ns, hl, o :: os, t, h => by
      rw [evaluateLinks, bind_eq_error_iff] at h
      obtain h | ⟨u, -, h⟩ := h
      · exact .inl ⟨n, List.mem_cons_self, blames_of_evaluate n hl.1 h⟩
      · rw [bind_eq_error_iff] at h
        obtain h | ⟨v, -, h⟩ := h
        · obtain ⟨e, he, rfl⟩ := liftFault_eq_error h
          obtain ⟨rfl, hc⟩ := Tensor.clash_of_combine he
          exact .inr ⟨o, List.mem_cons_self, _, _, hc, rfl⟩
        · obtain ⟨m, hm, hf⟩ | ⟨o', ho, hc⟩ := blames_of_evaluateLinks ns hl.2 h
          · exact .inl ⟨m, List.mem_cons_of_mem n hm, hf⟩
          · exact .inr ⟨o', List.mem_cons_of_mem o ho, hc⟩

end

/-! ## What a value needs -/

mutual

/-- An evaluation that succeeds has come to every operand of the tree. -/
theorem lt_of_evaluate : (n : Node) → n.Linked → {t : Tensor α} → n.evaluate xs slope = .ok t →
    ∀ i ∈ n.indices, i < xs.length
  | constant _, _, _, _ => List.forall_mem_nil _
  | operand i, _, _, h => List.forall_mem_singleton.2 (lt_of_operandAt h)
  | negate n, hl, _, h => by
      rw [evaluate, bind_eq_ok_iff] at h
      obtain ⟨t, ht, -⟩ := h
      exact lt_of_evaluate n hl ht
  | chain _ [] _, _, _, h => nomatch h
  | chain _ (n :: ns) os, hl, _, h => by
      rw [evaluate, bind_eq_ok_iff] at h
      obtain ⟨t, ht, h⟩ := h
      exact List.forall_mem_append.2 ⟨lt_of_evaluate n hl.2.1 ht,
        lt_of_evaluateLinks ns hl.2.2 (Nat.succ.inj hl.1) h⟩
  | apply op [n], hl, _, h => by
      rw [evaluate, bind_eq_ok_iff] at h
      obtain ⟨t, ht, -⟩ := h
      exact List.forall_mem_append.2 ⟨lt_of_evaluate n hl.1 ht, List.forall_mem_nil _⟩
  | apply op [n, p], hl, _, h => by
      rw [evaluate] at h
      by_cases ha : op.arity = .oneOrTwo
      · simp only [if_pos ha, bind_eq_ok_iff] at h
        obtain ⟨t, ht, u, hu, -⟩ := h
        simp only [indices, indicesOf, List.forall_mem_append]
        exact ⟨lt_of_evaluate n hl.1 ht, lt_of_evaluate p hl.2.1 hu, List.forall_mem_nil _⟩
      · rw [if_neg ha] at h
        cases h
  | apply _ [], _, _, h => nomatch h
  | apply _ (_ :: _ :: _ :: _), _, _, h => nomatch h

theorem lt_of_evaluateLinks : (ns : List Node) → AllLinked ns → {os : List Operator} →
    {t u : Tensor α} → os.length = ns.length → evaluateLinks xs slope t ns os = .ok u →
    ∀ i ∈ indicesOf ns, i < xs.length
  | [], _, _, _, _, _, _ => List.forall_mem_nil _
  | _ :: _, _, [], _, _, ho, _ => nomatch ho
  | n :: ns, hl, o :: os, _, _, ho, h => by
      simp only [evaluateLinks, bind_eq_ok_iff] at h
      obtain ⟨u, hu, v, -, h⟩ := h
      exact List.forall_mem_append.2 ⟨lt_of_evaluate n hl.1 hu,
        lt_of_evaluateLinks ns hl.2 (Nat.succ.inj ho) h⟩

end

/-! ## Trees of accepted formulas -/

mutual

theorem Readable.linked : (n : Node) → n.Readable → n.Linked
  | constant _, _ => trivial
  | operand _, _ => trivial
  | negate n, h => Readable.linked n h
  | chain _ ns _, h => ⟨h.2.1, AllReadable.allLinked ns h.2.2.2⟩
  | apply _ ns, h => AllReadable.allLinked ns h.2

theorem AllReadable.allLinked : (ns : List Node) → AllReadable ns → AllLinked ns
  | [], _ => trivial
  | n :: ns, h => ⟨Readable.linked n h.1, AllReadable.allLinked ns h.2⟩

end

end Node

theorem linked_of_parse {formula : String} {n : Node} (h : parse formula = .ok n) : n.Linked :=
  Node.Readable.linked n (readable_of_parse h).1

end TensorFormula
