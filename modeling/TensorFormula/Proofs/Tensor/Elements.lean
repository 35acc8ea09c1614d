import TensorFormula.Proofs.Tensor.Numbering
import TensorFormula.Proofs.Tensor.Slices

/-!
# Single elements

A pattern without a wildcard names one element, the one at its coordinates. The offsets for a
pattern are found in a different way from the offset of a coordinate vector: all coordinates are
checked before any is used, and then each dimension multiplies up a list. The outcome is the same,
so that reading and writing one element are slices of one.
-/

namespace TensorFormula

namespace Shape

variable {s : Shape} {ds is : List Nat}

theorem positionsFrom_map_some {d i : Nat} (h : i < d) :
    positionsFrom (d :: ds) ((i :: is).map some) =
      (positionsFrom ds (is.map some)).map (inBlock ⟨i, h⟩) := by
  have hchoice : choices d (some i) = [⟨i, h⟩] := dif_pos h
  rw [List.map_cons, positionsFrom, List.head?_cons, Option.join_some, hchoice,
    List.flatMap_singleton]
  rfl

/-- To check every coordinate before any is used is the same as to check along the way. -/
theorem checkPattern_bind_positionsFrom (dim : Nat) (hl : is.length = ds.length) :
    (checkPattern dim ds (is.map some) >>= fun _ => .ok (positionsFrom ds (is.map some))) =
      (offsetFrom dim ds is).map fun k => [k] := by
  induction ds generalizing dim is with
  | nil =>
      obtain rfl := List.length_eq_zero_iff.1 hl
      rfl
  | cons d ds ih =>
      obtain ⟨i, is, rfl⟩ := List.exists_cons_of_length_eq_add_one hl
      by_cases hi : i < d
      · rw [positionsFrom_map_some hi, Block.offsetFrom_of_lt dim ds is hi, List.map_cons,
          checkPattern, if_pos hi]
        let block : Fin (volume ds) → Fin (volume (d :: ds)) := inBlock ⟨i, hi⟩
        let checked := checkPattern (dim + 1) ds (is.map some)
        let found := positionsFrom ds (is.map some)
        change (checked >>= fun _ => Except.ok (found.map block)) = _
        calc (checked >>= fun _ => Except.ok (found.map block))
          _ = (checked >>= fun _ => Except.ok found).map (List.map block) := by
              cases checked <;> rfl
          _ = ((offsetFrom (dim + 1) ds is).map fun k => [k]).map (List.map block) := by
              rw [ih (dim + 1) (Nat.succ.inj hl)]
          _ = ((offsetFrom (dim + 1) ds is).map block).map fun k => [k] := by
              cases offsetFrom (dim + 1) ds is <;> rfl
      · rw [Block.offsetFrom_of_not_lt dim ds is hi, List.map_cons, checkPattern, if_neg hi]
        rfl

theorem positions_map_some (s : Shape) (index : List Nat) :
    s.positions (index.map some) = (s.offset index).map fun k => [k] := by
  by_cases hl : index.length = s.dims.length
  · rw [offset_of_length_eq hl, positions, checkArity, rank, List.length_map, if_pos hl]
    exact checkPattern_bind_positionsFrom 0 hl
  · rw [positions, offset, checkArity, checkArity, rank, List.length_map, if_neg hl]
    rfl

end Shape

namespace Tensor

variable {α : Type} {t : Tensor α} {index other : List Nat} {k : Fin t.shape.count} {v : α}

/-! ## One element as a slice -/

theorem readSlice_map_some (t : Tensor α) (index : List Nat) (x : α) (buffer : List α) :
    t.readSlice (index.map some) (x :: buffer) = (t.get index).map fun y => (1, y :: buffer) := by
  rw [readSlice, get, Shape.positions_map_some]
  cases t.shape.offset index <;> rfl

theorem writeSlice_map_some (t : Tensor α) (index : List Nat) (v : α) (source : List α) :
    t.writeSlice (index.map some) (v :: source) = (t.set index v).map fun u => (1, u) := by
  rw [writeSlice, set, Shape.positions_map_some]
  cases t.shape.offset index <;> rfl

theorem fill_map_some (t : Tensor α) (index : List Nat) (v : α) :
    t.fill (index.map some) v = (t.set index v).map fun u => (1, u) := by
  rw [fill, set, Shape.positions_map_some]
  cases t.shape.offset index <;> rfl

/-- What a write through a pattern does to a block, when it does to the tensor what `set` does. -/
theorem settled_set (t : Tensor α) (index : List Nat) (v : α) :
    Block.settled t ((t.set index v).map fun u => (1, u)) =
      (Block.setElement index v >>= fun _ => pure 1).run t.block := by
  rw [EStateM.run_bind, Block.setElement_eq]
  cases t.set index v <;> rfl

/-! ## Writing one element -/

/-- All that differs between `t` and `u` is the element at a coordinate vector, `v` in `u`. -/
structure Replaces (t : Tensor α) (index : List Nat) (v : α) (u : Tensor α) : Prop where
  shape : u.shape = t.shape
  here : u.get index = .ok v
  elsewhere : ∀ other, other ≠ index → u.get other = t.get other

theorem get_put_self (hk : t.shape.offset index = .ok k) : (t.put k v).get index = .ok v := by
  obtain ⟨hb, hplace⟩ := Shape.offset_eq_ok_iff.1 hk
  have hin : k.val < t.content.size := t.size_content.symm ▸ k.isLt
  refine get_eq_ok_iff.2 ⟨hb, ?_⟩
  change (t.content.setIfInBounds k v)[Shape.place t.shape.dims index]? = some v
  rw [← hplace, Array.getElem?_setIfInBounds_self_of_lt hin]

/-- Distinct coordinate vectors have distinct offsets, and those that have none are not read. -/
theorem get_put_of_ne (hk : t.shape.offset index = .ok k) (h : other ≠ index) :
    (t.put k v).get other = t.get other := by
  obtain ⟨hb, hplace⟩ := Shape.offset_eq_ok_iff.1 hk
  refine get_congr rfl fun hb' => Array.getElem?_setIfInBounds_ne ?_
  rw [hplace]
  exact fun he => h (Shape.eq_of_place_eq hb' hb he.symm)

theorem replaces_put (hk : t.shape.offset index = .ok k) : t.Replaces index v (t.put k v) :=
  ⟨rfl, get_put_self hk, fun _ h => get_put_of_ne hk h⟩

theorem exists_replaces (hk : t.shape.offset index = .ok k) (v : α) :
    ∃ u, t.Replaces index v u ∧ t.set index v = .ok u ∧
      (Block.setElement index v).run t.block = .ok () u.block := by
  have hset : t.set index v = .ok (t.put k v) := by
    rw [set, hk]
    rfl
  refine ⟨_, replaces_put hk, hset, ?_⟩
  rw [Block.setElement_eq, hset]
  rfl

theorem set_of_offset_eq_error {f : TensorFault} (hf : t.shape.offset index = .error f) (v : α) :
    t.set index v = .error f ∧
      (Block.setElement index v).run t.block = .error (.fault f) t.block := by
  have hset : t.set index v = .error f := by
    rw [set, hf]
    rfl
  refine ⟨hset, ?_⟩
  rw [Block.setElement_eq, hset]
  rfl

/-! ## Main statement -/

/-- To read or to write one element is to read, to write or to fill the slice at its coordinates:
all of them succeed, and a write changes that element alone, or all of them refuse the coordinates
for the same reason, and a write changes nothing. -/
theorem element_is_slice_of_one (t : Tensor α) (index : List Nat) :
    (∀ (x : α) (buffer : List α),
      t.readSlice (index.map some) (x :: buffer) =
        (t.get index).map (fun y => (1, y :: buffer)) ∧
      Block.readSlice t.block (index.map some) (x :: buffer) =
        (Block.element t.block index).map fun y => (1, y :: buffer)) ∧
    (∀ (v : α) (source : List α),
      t.writeSlice (index.map some) (v :: source) = (t.set index v).map (fun u => (1, u)) ∧
      t.fill (index.map some) v = (t.set index v).map (fun u => (1, u)) ∧
      (Block.writeSlice (index.map some) (v :: source)).run t.block =
        (Block.setElement index v >>= fun _ => pure 1).run t.block ∧
      (Block.fill (index.map some) v).run t.block =
        (Block.setElement index v >>= fun _ => pure 1).run t.block) ∧
    ((∃ y, t.get index = .ok y ∧ ∀ v, ∃ u, t.Replaces index v u ∧ t.set index v = .ok u ∧
        (Block.setElement index v).run t.block = .ok () u.block) ∨
      ∃ f, Shape.Refuses t.shape.dims index f ∧ t.get index = .error f ∧ ∀ v,
        t.set index v = .error f ∧
        (Block.setElement index v).run t.block = .error (.fault f) t.block) := by
  refine ⟨fun x buffer => ⟨readSlice_map_some t index x buffer, ?_⟩, fun v source =>
    ⟨writeSlice_map_some t index v source, fill_map_some t index v, ?_, ?_⟩, ?_⟩
  · rw [Block.readSlice_eq, readSlice_map_some, Block.element_eq]
    cases t.get index <;> rfl
  · rw [Block.writeSlice_eq, writeSlice_map_some, settled_set]
  · rw [Block.fill_eq, fill_map_some, settled_set]
  · cases ho : t.shape.offset index with
    | ok k => exact .inl ⟨t.entry k, by rw [get, ho]; rfl, exists_replaces ho⟩
    | error f =>
        refine .inr ⟨f, Shape.offset_eq_error_iff.1 ho, ?_, set_of_offset_eq_error ho⟩
        rw [get, ho]
        rfl

end Tensor

end TensorFormula
