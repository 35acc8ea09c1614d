import Mathlib.Data.List.FinRange
import TensorFormula.Proofs.Memory.Block

/-!
# Every computed offset is in range

On the block of a tensor the sums of strides are the offsets of the tensor, so reading and writing
by them never leaves the buffer, and the block is that of the operation's result.
-/

namespace TensorFormula

variable {α β γ ε : Type}

def Tensor.block (t : Tensor α) : Block α := ⟨t.shape.dims, t.content⟩

namespace Block

theorem sound_iff (b : Block α) : b.Sound ↔ ∃ t : Tensor α, t.block = b := by
  constructor
  · intro h
    exact ⟨⟨⟨b.sizes⟩, b.buffer, ⟨h.ranked, h.positive⟩, h.filled⟩, rfl⟩
  · rintro ⟨t, rfl⟩
    exact ⟨t.valid.1, t.valid.2, t.size_content⟩

/-- The outcome of an operation on tensors, as a program on blocks has it. -/
def told (f : β → γ) : Except ε β → Except (Stop ε) γ
  | .ok x => .ok (f x)
  | .error e => .error (.fault e)

/-- The outcome of changing a tensor. After a fault its block is what it was. -/
def settled (t : Tensor α) :
    Except TensorFault (β × Tensor α) → EStateM.Result (Stop TensorFault) (Block α) β
  | .ok (x, u) => .ok x u.block
  | .error f => .error (.fault f) t.block

@[simp] theorem told_ok (f : β → γ) (x : β) : told f (.ok x : Except ε β) = .ok (f x) := rfl

/-! ## Offsets -/

theorem offsetFrom_of_lt (dim : Nat) {d i : Nat} (ds is : List Nat) (h : i < d) :
    Shape.offsetFrom dim (d :: ds) (i :: is) =
      (Shape.offsetFrom (dim + 1) ds is).map (Shape.inBlock ⟨i, h⟩) :=
  dif_pos h

theorem offsetFrom_of_not_lt (dim : Nat) {d i : Nat} (ds is : List Nat) (h : ¬ i < d) :
    Shape.offsetFrom dim (d :: ds) (i :: is) = .error (.indexOutOfRange dim i d) :=
  dif_neg h

theorem walk_eq (dim o : Nat) (ds index : List Nat) (h : index.length = ds.length) :
    walk dim o (index.zip (ds.zip (Shape.stridesOf ds))) =
      told (fun k => o + k.val) (Shape.offsetFrom dim ds index) := by
  induction ds generalizing dim o index with
  | nil =>
      obtain rfl := List.length_eq_zero_iff.1 h
      rfl
  | cons d ds ih =>
      obtain ⟨i, is, rfl⟩ := List.exists_cons_of_length_eq_add_one h
      rw [Shape.stridesOf, List.zip_cons_cons, List.zip_cons_cons, walk]
      by_cases hi : i < d
      · rw [if_pos hi, offsetFrom_of_lt dim ds is hi, ih _ _ is (Nat.succ.inj h)]
        cases Shape.offsetFrom (dim + 1) ds is with
        | error f => rfl
        | ok k => simp [Except.map, Nat.add_assoc]
      · rw [if_neg hi, offsetFrom_of_not_lt dim ds is hi]
        rfl

theorem offset_eq (s : Shape) (index : List Nat) :
    offset s.dims index = told Fin.val (s.offset index) := by
  rw [offset, Shape.offset, Shape.checkArity, Shape.rank]
  by_cases h : index.length = s.dims.length
  · rw [if_pos h, if_pos h, walk_eq 0 0 s.dims index h]
    simp [bind, Except.bind, Shape.count]
  · rw [if_neg h, if_neg h]
    rfl

theorem map_val_choices {d : Nat} {p : Option Nat} (h : ∀ i, p = some i → i < d) :
    (Shape.choices d p).map Fin.val = p.elim (List.range d) fun i => [i] := by
  cases p with
  | none => exact List.map_coe_finRange_eq_range
  | some i => simp [Shape.choices, h i rfl]

theorem checkPattern_cons {dim d : Nat} {ds : List Nat} {p : Option Nat} {ps : Pattern}
    (h : Shape.checkPattern dim (d :: ds) (p :: ps) = .ok ()) :
    (∀ i, p = some i → i < d) ∧ Shape.checkPattern (dim + 1) ds ps = .ok () := by
  cases p with
  | none => exact ⟨nofun, h⟩
  | some i =>
      rw [Shape.checkPattern] at h
      by_cases hi : i < d
      · rw [if_pos hi] at h
        exact ⟨fun j hj => by obtain rfl := Option.some.inj hj; exact hi, h⟩
      · rw [if_neg hi] at h
        cases h

theorem reach_eq (dim : Nat) (bases : List Nat) (ds : List Nat) (pattern : Pattern)
    (h : pattern.length = ds.length) (hp : Shape.checkPattern dim ds pattern = .ok ()) :
    reach bases (pattern.zip (ds.zip (Shape.stridesOf ds))) =
      bases.flatMap fun base => (Shape.positionsFrom ds pattern).map fun k => base + k.val := by
  induction ds generalizing dim bases pattern with
  | nil =>
      obtain rfl := List.length_eq_zero_iff.1 h
      simp [reach, Shape.positionsFrom]
  | cons d ds ih =>
      obtain ⟨p, ps, rfl⟩ := List.exists_cons_of_length_eq_add_one h
      obtain ⟨hi, hps⟩ := checkPattern_cons hp
      rw [Shape.stridesOf, List.zip_cons_cons, List.zip_cons_cons, reach,
        ih (dim + 1) _ ps (Nat.succ.inj h) hps, ← map_val_choices hi, Shape.positionsFrom]
      simp [List.flatMap_assoc, List.flatMap_map, List.map_flatMap, Nat.add_assoc,
        Function.comp_def]

theorem offsets_eq (s : Shape) (pattern : Pattern) :
    offsets s.dims pattern = told (List.map Fin.val) (s.positions pattern) := by
  rw [offsets, Shape.positions, Shape.checkArity, Shape.rank]
  by_cases h : pattern.length = s.dims.length
  · rw [if_pos h, if_pos h]
    cases hp : Shape.checkPattern 0 s.dims pattern with
    | error f => rfl
    | ok u =>
        simp [bind, Except.bind, reach_eq 0 [0] s.dims pattern h hp, Shape.count]
  · rw [if_neg h, if_neg h]
    rfl

/-! ## Reading -/

theorem load_eq {buffer : Array α} {k : Nat} (h : k < buffer.size) :
    load buffer k = (.ok (getElem buffer k h) : Except (Stop ε) α) := by
  rw [load, Array.getElem?_eq_getElem h]

theorem load_entry (t : Tensor α) (k : Fin t.shape.count) :
    load t.block.buffer k = (.ok (t.entry k) : Except (Stop ε) α) :=
  load_eq _

theorem element_eq (t : Tensor α) (index : List Nat) :
    element t.block index = told id (t.get index) := by
  rw [element, Tensor.get]
  change (offset t.shape.dims index >>= _) = _
  rw [offset_eq]
  cases t.shape.offset index with
  | error f => rfl
  | ok k => exact load_entry t k

theorem mapM_load (t : Tensor α) (ks : List (Fin t.shape.count)) :
    (ks.map Fin.val).mapM (load t.block.buffer) =
      (.ok (ks.map t.entry) : Except (Stop ε) (List α)) := by
  induction ks with
  | nil => rfl
  | cons k ks ih =>
      rw [List.map_cons, List.mapM_cons, load_entry, ih]
      rfl

theorem readSlice_eq (t : Tensor α) (pattern : Pattern) (target : List α) :
    readSlice t.block pattern target = told id (t.readSlice pattern target) := by
  rw [readSlice, Tensor.readSlice]
  change (offsets t.shape.dims pattern >>= _) = _
  rw [offsets_eq]
  cases t.shape.positions pattern with
  | error f => rfl
  | ok ks =>
      change (if (ks.map Fin.val).length ≤ target.length then _ else _) =
        told id (Tensor.requireRoom ks.length target.length >>= _)
      rw [List.length_map, Tensor.requireRoom]
      by_cases h : ks.length ≤ target.length
      · rw [if_pos h, if_pos h, mapM_load]
        rfl
      · rw [if_neg h, if_neg h]
        rfl

/-! ## Writing -/

@[simp] theorem run_attempt_ok (x : β) (b : Block α) : (attempt (.ok x)).run b = .ok x b := rfl

theorem run_bind_of_ok {p : InPlace α β} {q : β → InPlace α γ} {b b' : Block α} {x : β}
    (h : p.run b = .ok x b') : (p >>= q).run b = (q x).run b' := by
  rw [EStateM.run_bind, h]

@[simp] theorem run_get_bind (q : Block α → InPlace α β) (b : Block α) :
    (get >>= q).run b = (q b).run b := rfl

theorem run_store (t : Tensor α) {k : Nat} (h : k < t.content.size) (v : α) :
    (store k v).run t.block = .ok () (t.put k v).block :=
  if_pos h

/-- A loop of writes keeps the size of the buffer, so that offsets in range stay in range. -/
theorem run_storeAll (t : Tensor α) {ks : List Nat} (vs : List α)
    (h : ∀ k ∈ ks, k < t.content.size) :
    (storeAll ks vs).run t.block = .ok () (t.putAll ks vs).block := by
  induction ks generalizing t vs with
  | nil => rfl
  | cons k ks ih =>
      cases vs with
      | nil => rfl
      | cons v vs =>
          rw [List.forall_mem_cons] at h
          have hrest : ∀ j ∈ ks, j < (t.put k v).content.size := by
            simpa [Tensor.put] using h.2
          rw [storeAll, List.zip_cons_cons, List.forM_cons, run_bind_of_ok (run_store t h.1 v)]
          exact ih (t.put k v) vs hrest

theorem forM_store_eq (ks : List Nat) (v : α) :
    (forM ks fun k => store k v) = storeAll ks (List.replicate ks.length v) := by
  rw [storeAll]
  induction ks with
  | nil => rfl
  | cons k ks ih =>
      rw [List.length_cons, List.replicate_succ, List.zip_cons_cons, List.forM_cons, List.forM_cons,
        ih]

theorem val_lt_size (t : Tensor α) (ks : List (Fin t.shape.count)) :
    ∀ k ∈ ks.map Fin.val, k < t.content.size := by
  simp only [List.forall_mem_map, t.size_content]
  exact fun k _ => k.isLt

theorem setElement_eq (t : Tensor α) (index : List Nat) (v : α) :
    (setElement index v).run t.block = settled t ((t.set index v).map fun u => ((), u)) := by
  rw [setElement, run_get_bind, Tensor.set]
  change (attempt (offset t.shape.dims index) >>= _).run t.block = _
  rw [offset_eq]
  cases t.shape.offset index with
  | error f => rfl
  | ok k =>
      rw [told_ok, run_bind_of_ok (run_attempt_ok _ _)]
      exact run_store t (t.size_content.symm ▸ k.isLt) v

theorem writeSlice_eq (t : Tensor α) (pattern : Pattern) (source : List α) :
    (writeSlice pattern source).run t.block = settled t (t.writeSlice pattern source) := by
  rw [writeSlice, run_get_bind, Tensor.writeSlice]
  change (attempt (offsets t.shape.dims pattern) >>= _).run t.block = _
  rw [offsets_eq]
  cases t.shape.positions pattern with
  | error f => rfl
  | ok ks =>
      rw [told_ok, run_bind_of_ok (run_attempt_ok _ _)]
      change _ = settled t (Tensor.requireRoom ks.length source.length >>= _)
      rw [List.length_map, Tensor.requireRoom]
      by_cases h : ks.length ≤ source.length
      · rw [if_pos h, if_pos h, run_bind_of_ok (run_storeAll t source (val_lt_size t ks))]
        rfl
      · rw [if_neg h, if_neg h]
        rfl

theorem fill_eq (t : Tensor α) (pattern : Pattern) (v : α) :
    (fill pattern v).run t.block = settled t (t.fill pattern v) := by
  rw [fill, run_get_bind, Tensor.fill]
  change (attempt (offsets t.shape.dims pattern) >>= _).run t.block = _
  rw [offsets_eq]
  cases t.shape.positions pattern with
  | error f => rfl
  | ok ks =>
      rw [told_ok, run_bind_of_ok (run_attempt_ok _ _), forM_store_eq,
        run_bind_of_ok (run_storeAll t _ (val_lt_size t ks)), List.length_map]
      rfl

end Block

end TensorFormula
