import TensorFormula.Proofs.Number.Differences
import TensorFormula.Proofs.Tensor.Broadcasting
import TensorFormula.Workspace

/-!
# Equality of tensors

Tensors count as equal if they have as many elements and no difference of two elements is too large.
The difference of an infinity from itself is no number, which is never small. A tensor therefore
equals its copy, and what adding zeros makes of it, exactly if all its elements are finite. The
sides of an equality can always be exchanged.
-/

namespace TensorFormula

open Element

namespace Tensor

variable {α : Type} [Element α] {t u : Tensor α}

theorem beq_eq_true_iff : (t == u) = true ↔
    t.count = u.count ∧ ∀ p ∈ t.content.zip u.content, Close p.1 p.2 := by
  change t.approxEq u tolerance = true ↔ _
  rw [approxEq, Bool.and_eq_true, beq_iff_eq, Array.all_eq_true']
  rfl

/-- A tensor is compared with what is made of each of its elements element by element. -/
theorem map_beq_iff {f : α → α} : (t.map f == t) = true ↔ ∀ x ∈ t.content, Close (f x) x := by
  have hpairs : (t.content.map f).zip t.content = t.content.map fun x => (f x, x) := by
    apply Array.ext_getElem?
    intro i
    simp only [Array.zip, Array.getElem?_zipWith, Array.getElem?_map]
    cases t.content[i]? <;> rfl
  rw [beq_eq_true_iff]
  change _ ∧ (∀ p ∈ (t.content.map f).zip t.content, _) ↔ _
  rw [hpairs, Array.forall_mem_map]
  exact and_iff_right (Array.size_map ..)

theorem beq_symm_of_differences (h : Differences α) (heq : (t == u) = true) : (u == t) = true := by
  obtain ⟨hcount, hclose⟩ := beq_eq_true_iff.1 heq
  have hswap : t.content.zip u.content = (u.content.zip t.content).map Prod.swap := by
    rw [Array.zip, Array.zipWith_comm, Array.zip, Array.map_zipWith]
    rfl
  refine beq_eq_true_iff.2 ⟨hcount.symm, fun p hp => ?_⟩
  have hp' : p.swap ∈ t.content.zip u.content := hswap ▸ Array.mem_map.2 ⟨p, hp, rfl⟩
  exact (h.close_comm _ _).1 (hclose _ hp')

/-- What a tensor becomes by adding zeros. -/
theorem exists_add_zeros (t : Tensor α) : ∃ z, Tensor.zeros t.shape = .ok z ∧
    t.combine z .add = .ok (t.map fun x => x + 0) := by
  have hcontent : Array.replicate t.shape.count (0 : α) = t.content.map fun _ => 0 := by
    rw [← t.size_content, Array.map_const']
  have hz : Tensor.zeros t.shape =
      .ok (⟨t.shape, Array.replicate t.shape.count (0 : α), t.valid, by simp⟩ : Tensor α) :=
    dif_pos t.valid
  exact ⟨_, hz, combine_map_self (by decide) hcontent⟩

/-- Whether all elements are numbers. -/
def AllFinite (t : Tensor α) : Prop := ∀ x ∈ t.content.toList, IsFinite x

instance (t : Tensor α) : Decidable t.AllFinite :=
  inferInstanceAs (Decidable (∀ x ∈ t.content.toList, IsFinite x))

theorem map_beq_eq_decide {f : α → α} (h : ∀ x, Close (f x) x ↔ IsFinite x) (t : Tensor α) :
    (t.map f == t) = decide t.AllFinite := by
  rw [Bool.eq_iff_iff, decide_eq_true_iff, map_beq_iff, AllFinite]
  simp only [h, Array.mem_toList_iff]

end Tensor

/-! ## Copies in a workspace -/

variable {α : Type} [Element α]

/-- A tensor in a workspace is copied, and then compared with the copy. -/
theorem Workspace.run_copy_equal (w : Workspace α) (name copy : String) (t : Tensor α) :
    ((w.put name t).run [.make copy (.copy name), .ask name (.equal copy)]).1 =
      [.ok .done, .ok (.truth (t == t))] := by
  have hget : (w.put name t).get name = .ok t := by rw [get, find?_put_self]
  have hcopy : ((w.put name t).put copy t).get copy = .ok t := by rw [get, find?_put_self]
  have hkept : ((w.put name t).put copy t).get name = .ok t := by
    obtain rfl | hne := eq_or_ne name copy
    · exact hcopy
    · rw [get, find?_put_of_ne _ t hne, find?_put_self]
  have hmake : (w.put name t).step (.make copy (.copy name)) =
      (.ok .done, (w.put name t).put copy t) := by
    simp only [step, attempt, follow, hget]
    rfl
  have hask : ((w.put name t).put copy t).step (.ask name (.equal copy)) =
      (.ok (.truth (t == t)), (w.put name t).put copy t) := by
    simp only [step, attempt, answer, hkept, hcopy]
    rfl
  rw [run, hmake]
  change (_ :: (run _ [_]).1) = _
  rw [run, hask]
  rfl

/-! ## The laws -/

/-- The laws of equality for a tensor. -/
structure Tensor.EqualityLaws (t : Tensor α) : Prop where
  copy : ∀ (w : Workspace α) (name copy : String),
    ((w.put name t).run [.make copy (.copy name), .ask name (.equal copy)]).1 =
      [.ok .done, .ok (.truth (decide t.AllFinite))]
  add_zeros : ∃ z u, Tensor.zeros t.shape = .ok z ∧ t.combine z .add = .ok u ∧
    u.shape = t.shape ∧ (u == t) = decide t.AllFinite
  comm : ∀ u : Tensor α, (t == u) = (u == t)

theorem Element.Differences.equalityLaws (h : Differences α) (t : Tensor α) : t.EqualityLaws where
  copy w name copy := by
    have hid : t.map id = t := Tensor.ext rfl (Array.map_id _)
    have hself := t.map_beq_eq_decide (f := id) h.close_self_iff
    rw [hid] at hself
    rw [w.run_copy_equal, hself]
  add_zeros := by
    obtain ⟨z, hz, hadd⟩ := t.exists_add_zeros
    exact ⟨z, _, hz, hadd, rfl, t.map_beq_eq_decide h.close_add_zero_iff⟩
  comm u := Bool.eq_iff_iff.2
    ⟨Tensor.beq_symm_of_differences h, Tensor.beq_symm_of_differences h⟩

/-- In both widths a tensor equals its copy, and its sum with zeros, exactly if it has no infinite
element and no NaN, and the sides of an equality can be exchanged. -/
theorem equal_iff_finite (t : Tensor Float) (s : Tensor Float32) :
    t.EqualityLaws ∧ s.EqualityLaws :=
  ⟨differences_double.equalityLaws t, differences_single.equalityLaws s⟩

def overflowed : Tensor Float := ⟨⟨[1, 1, 2]⟩, #[1, Arithmetic.infinity], by decide, rfl⟩

/-- An infinite element is no NaN, and keeps a tensor from being equal to itself. -/
theorem overflowed_differs_from_itself :
    (∀ x ∈ overflowed.content.toList, x.isNaN = false) ∧ (overflowed == overflowed) = false := by
  decide +kernel

end TensorFormula
