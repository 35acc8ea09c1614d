import TensorFormula.Proofs.Tensor.Addressing

/-!
# Slices

A slice is read and written at the offsets of the matching coordinate vectors. These offsets are
distinct and belong to no other vector, so that a write is seen in its own places and in no others.
-/

namespace TensorFormula.Tensor

variable {α : Type} {t : Tensor α} {pattern : Pattern} {buffer source : List α}

/-! ## Reading -/

/-- What is read is given by the offsets alone, and the room for it is looked at before. -/
theorem exists_readSlice (h : pattern.Fits t.shape.dims) :
    ∃ xs, xs.map some = (Shape.places t.shape.dims pattern).map (fun k => t.content[k]?) ∧
      ∀ buffer : List α, t.readSlice pattern buffer =
        if pattern.count t.shape.dims ≤ buffer.length then
          .ok (pattern.count t.shape.dims, xs ++ buffer.drop (pattern.count t.shape.dims))
        else .error (.bufferTooShort (pattern.count t.shape.dims) buffer.length) := by
  obtain ⟨ks, hks, hval, hlength⟩ := Shape.exists_positions h
  refine ⟨ks.map t.entry, ?_, fun buffer => ?_⟩
  · rw [← hval, List.map_map, List.map_map]
    exact List.map_congr_left fun k _ => (getElem?_entry t k).symm
  · rw [readSlice, hks, ← hlength]
    change (requireRoom ks.length buffer.length >>= _) = _
    rw [requireRoom]
    split <;> rfl

theorem forall₂_get (h : pattern.Fits t.shape.dims) {xs : List α}
    (hxs : xs.map some = (Shape.places t.shape.dims pattern).map fun k => t.content[k]?) :
    List.Forall₂ (fun c x => t.get c = .ok x) (Pattern.vectors t.shape.dims pattern) xs := by
  have hcontent : List.Forall₂ (· = ·) ((Pattern.vectors t.shape.dims pattern).map fun c =>
      t.content[Shape.place t.shape.dims c]?) (xs.map some) := by
    rw [List.forall₂_eq_eq_eq, hxs, Shape.places, List.map_map]
    rfl
  rw [List.forall₂_map_left_iff, List.forall₂_map_right_iff] at hcontent
  obtain ⟨hlength, hzip⟩ := List.forall₂_iff_zip.1 hcontent
  refine List.forall₂_iff_zip.2 ⟨hlength, fun hmem => get_eq_ok_iff.2 ⟨?_, hzip hmem⟩⟩
  exact ((Pattern.mem_vectors h).1 (List.of_mem_zip hmem).1).1

/-- A slice is the elements at all the matching coordinate vectors, in lexicographic order, in front
of what else is in the buffer, and its number is the product of the sizes left open. -/
theorem readSlice_enumerates_matching (t : Tensor α) (pattern : Pattern)
    (h : pattern.Fits t.shape.dims) :
    let n := pattern.count t.shape.dims
    ∃ cs xs, pattern.Enumerates t.shape.dims cs ∧ cs.length = n ∧
      List.Forall₂ (fun c x => t.get c = .ok x) cs xs ∧
      ∀ buffer : List α,
        (n ≤ buffer.length →
          t.readSlice pattern buffer = .ok (n, xs ++ buffer.drop n) ∧
          Block.readSlice t.block pattern buffer = .ok (n, xs ++ buffer.drop n)) ∧
        (buffer.length < n →
          t.readSlice pattern buffer = .error (.bufferTooShort n buffer.length) ∧
          Block.readSlice t.block pattern buffer =
            .error (.fault (.bufferTooShort n buffer.length))) := by
  intro n
  obtain ⟨xs, hxs, hread⟩ := exists_readSlice h
  refine ⟨_, xs, Pattern.enumerates_vectors h, Pattern.length_vectors h, forall₂_get h hxs,
    fun buffer => ⟨fun hb => ?_, fun hb => ?_⟩⟩
  · rw [Block.readSlice_eq, hread buffer, if_pos hb]
    exact ⟨rfl, rfl⟩
  · rw [Block.readSlice_eq, hread buffer, if_neg (Nat.not_le.2 hb)]
    exact ⟨rfl, rfl⟩

/-- Two blocks of three rows of two. -/
def box : Tensor Float :=
  ⟨⟨[2, 3, 2]⟩, #[0, 1, 2, 3, 4, 5, 6, 7, 8, 9, 10, 11], by decide, rfl⟩

theorem readSlice_enumerates_matching_box :
    ∃ cs, Pattern.Enumerates [some 1, none, some 0] [2, 3, 2] cs ∧ cs.length = 3 ∧
      List.Forall₂ (fun c x => box.get c = .ok x) cs [6, 8, 10] ∧
      box.readSlice [some 1, none, some 0] [20, 21, 22, 23, 24] = .ok (3, [6, 8, 10, 23, 24]) ∧
      box.readSlice [some 1, none, some 0] [20, 21] = .error (.bufferTooShort 3 2) := by
  obtain ⟨cs, xs, hcs, hlength, hget, hread⟩ :=
    readSlice_enumerates_matching box [some 1, none, some 0] (by decide)
  have hlong : Except.ok (3, [6, 8, 10] ++ [23, 24]) = Except.ok (3, xs ++ [23, 24]) :=
    ((hread [20, 21, 22, 23, 24]).1 (by decide)).1
  obtain rfl : [6, 8, 10] = xs := List.append_cancel_right (Prod.mk.inj (Except.ok.inj hlong)).2
  exact ⟨cs, hcs, hlength, hget, rfl, ((hread [20, 21]).2 (by decide)).1⟩

/-! ## Writing -/

theorem put_self {k : Nat} {v : α} (h : t.content[k]? = some v) : t.put k v = t := by
  refine Tensor.ext rfl (Array.ext_getElem? fun j => ?_)
  rw [put, Array.getElem?_setIfInBounds]
  grind

theorem putAll_cons (t : Tensor α) (k : Nat) (ks : List Nat) (v : α) (vs : List α) :
    t.putAll (k :: ks) (v :: vs) = (t.put k v).putAll ks vs := rfl

theorem shape_putAll (t : Tensor α) (ks : List Nat) (vs : List α) :
    (t.putAll ks vs).shape = t.shape := by
  induction ks generalizing t vs with
  | nil => rfl
  | cons k ks ih =>
      cases vs with
      | nil => rfl
      | cons v vs => exact ih (t.put k v) vs

theorem getElem?_putAll_of_not_mem (t : Tensor α) {k : Nat} {ks : List Nat} (vs : List α)
    (h : k ∉ ks) : (t.putAll ks vs).content[k]? = t.content[k]? := by
  induction ks generalizing t vs with
  | nil => rfl
  | cons j ks ih =>
      cases vs with
      | nil => rfl
      | cons v vs =>
          rw [List.mem_cons, not_or] at h
          rw [putAll_cons, ih _ vs h.2, put, Array.getElem?_setIfInBounds, if_neg (Ne.symm h.1)]

/-- Writes to distinct offsets do not undo each other. -/
theorem map_getElem?_putAll {ks : List Nat} {vs : List α} (hks : ks.Nodup)
    (hin : ∀ k ∈ ks, k < t.content.size) (hl : ks.length ≤ vs.length) :
    ks.map (fun k => (t.putAll ks vs).content[k]?) = (vs.take ks.length).map some := by
  induction ks generalizing t vs with
  | nil => rfl
  | cons k ks ih =>
      obtain ⟨v, vs, rfl⟩ := List.exists_cons_of_length_pos (Nat.zero_lt_of_lt hl)
      rw [List.nodup_cons] at hks
      rw [List.forall_mem_cons] at hin
      have hput : (t.put k v).content[k]? = some v := by
        rw [put, Array.getElem?_setIfInBounds_self_of_lt hin.1]
      have hrest : ∀ j ∈ ks, j < (t.put k v).content.size := by
        simpa [put] using hin.2
      rw [putAll_cons, List.map_cons, getElem?_putAll_of_not_mem _ vs hks.1, hput,
        ih hks.2 hrest (Nat.le_of_succ_le_succ hl)]
      rfl

theorem putAll_eq_self {ks : List Nat} {vs : List α}
    (h : vs.map some = ks.map fun k => t.content[k]?) : t.putAll ks vs = t := by
  induction ks generalizing vs with
  | nil => rfl
  | cons k ks ih =>
      cases vs with
      | nil => rfl
      | cons v vs =>
          rw [List.map_cons, List.map_cons, List.cons.injEq] at h
          rw [putAll_cons, put_self h.1.symm, ih h.2]

/-- Values without an offset are not written. -/
theorem putAll_take (t : Tensor α) (ks : List Nat) (vs : List α) :
    t.putAll ks (vs.take ks.length) = t.putAll ks vs := by
  induction ks generalizing t vs with
  | nil => rfl
  | cons k ks ih =>
      cases vs with
      | nil => rfl
      | cons v vs => exact ih (t.put k v) vs

theorem writeSlice_of_fits (h : pattern.Fits t.shape.dims)
    (hs : pattern.count t.shape.dims ≤ source.length) : t.writeSlice pattern source =
      .ok (pattern.count t.shape.dims, t.putAll (Shape.places t.shape.dims pattern) source) := by
  obtain ⟨ks, hks, hval, hlength⟩ := Shape.exists_positions h
  rw [← hlength] at hs ⊢
  rw [writeSlice, hks, ← hval]
  change (requireRoom ks.length source.length >>= _) = _
  rw [requireRoom, if_pos hs]
  rfl

theorem fill_of_fits (h : pattern.Fits t.shape.dims) (v : α) : t.fill pattern v =
    t.writeSlice pattern (List.replicate (pattern.count t.shape.dims) v) := by
  obtain ⟨ks, hks, hval, hlength⟩ := Shape.exists_positions h
  rw [writeSlice_of_fits h (by rw [List.length_replicate]), fill, hks, ← hval, ← hlength]
  rfl

/-- What was written is read, in the order in which it was written. -/
theorem readSlice_putAll (h : pattern.Fits t.shape.dims)
    (hs : pattern.count t.shape.dims ≤ source.length)
    (hb : pattern.count t.shape.dims ≤ buffer.length) :
    (t.putAll (Shape.places t.shape.dims pattern) source).readSlice pattern buffer =
      .ok (pattern.count t.shape.dims, source.take (pattern.count t.shape.dims) ++
        buffer.drop (pattern.count t.shape.dims)) := by
  have hshape := shape_putAll t (Shape.places t.shape.dims pattern) source
  have hin : ∀ k ∈ Shape.places t.shape.dims pattern, k < t.content.size := by
    rw [t.size_content]
    exact Shape.lt_volume_of_mem_places h
  have hwritten := map_getElem?_putAll (Shape.pairwise_places h).nodup hin
    ((Shape.length_places h).trans_le hs)
  rw [Shape.length_places h] at hwritten
  rw [← hshape] at h
  obtain ⟨xs, hxs, hread⟩ := exists_readSlice h
  rw [hshape] at hxs hread
  rw [hread, if_pos hb, List.map_injective_iff.2 (Option.some_injective α) (hxs.trans hwritten)]

theorem get_putAll_of_not_matches (h : pattern.Fits t.shape.dims) (source : List α)
    {index : List Nat} (hi : ¬ pattern.Matches index) :
    (t.putAll (Shape.places t.shape.dims pattern) source).get index = t.get index :=
  get_congr (shape_putAll _ _ _) fun hb =>
    getElem?_putAll_of_not_mem t source (mt (Shape.matches_of_place_mem h hb) hi)

theorem writeSlice_of_readSlice (h : pattern.Fits t.shape.dims) {n : Nat} {out : List α}
    (hr : t.readSlice pattern buffer = .ok (n, out)) : t.writeSlice pattern out = .ok (n, t) := by
  obtain ⟨xs, hxs, hread⟩ := exists_readSlice h
  have hlength : xs.length = (Shape.places t.shape.dims pattern).length := by
    simpa using congrArg List.length hxs
  rw [hread] at hr
  split at hr
  case isFalse => cases hr
  obtain ⟨rfl, rfl⟩ := Prod.mk.inj (Except.ok.inj hr)
  have hroom : pattern.count t.shape.dims ≤
      (xs ++ buffer.drop (pattern.count t.shape.dims)).length := by
    rw [List.length_append, hlength, Shape.length_places h]
    exact Nat.le_add_right _ _
  rw [writeSlice_of_fits h hroom, ← putAll_take, ← hlength, List.take_left, putAll_eq_self hxs]

/-- A write to a slice is read back from it, and all other elements are what they were. Values past
the number of matches do not count, equal values are the same as filling, and the values of the
slice itself change nothing. -/
theorem writeSlice_changes_matching_only (t : Tensor α) (pattern : Pattern)
    (h : pattern.Fits t.shape.dims) :
    let n := pattern.count t.shape.dims
    (∀ source : List α, n ≤ source.length → ∃ u : Tensor α,
      t.writeSlice pattern source = .ok (n, u) ∧
      (Block.writeSlice pattern source).run t.block = .ok n u.block ∧
      u.shape = t.shape ∧
      (∀ buffer : List α, n ≤ buffer.length →
        u.readSlice pattern buffer = .ok (n, source.take n ++ buffer.drop n)) ∧
      (∀ index, ¬ pattern.Matches index → u.get index = t.get index) ∧
      ∀ source' : List α, n ≤ source'.length → source'.take n = source.take n →
        t.writeSlice pattern source' = .ok (n, u)) ∧
    (∀ v, t.fill pattern v = t.writeSlice pattern (List.replicate n v) ∧
      (Block.fill pattern v).run t.block =
        (Block.writeSlice pattern (List.replicate n v)).run t.block) ∧
    ∀ buffer m (out : List α), t.readSlice pattern buffer = .ok (m, out) →
      t.writeSlice pattern out = .ok (m, t) ∧
      (Block.writeSlice pattern out).run t.block = .ok m t.block := by
  refine ⟨fun source hs => ?_, fun v => ?_, fun buffer m out hr => ?_⟩
  · have hw := writeSlice_of_fits h hs
    refine ⟨_, hw, ?_, shape_putAll _ _ _, fun buffer hb => readSlice_putAll h hs hb,
      fun index hi => get_putAll_of_not_matches h source hi, fun source' hs' he => ?_⟩
    · rw [Block.writeSlice_eq, hw]
      rfl
    · rw [writeSlice_of_fits h hs', ← putAll_take t _ source', ← putAll_take t _ source,
        Shape.length_places h, he]
  · rw [Block.fill_eq, Block.writeSlice_eq, fill_of_fits h]
    exact ⟨rfl, rfl⟩
  · have hw := writeSlice_of_readSlice h hr
    rw [Block.writeSlice_eq, hw]
    exact ⟨rfl, rfl⟩

theorem writeSlice_changes_matching_only_box :
    (∃ u, box.writeSlice [none, some 2, none] [30, 31, 32, 33, 34] = .ok (4, u) ∧
      u.readSlice [none, some 2, none] [0, 0, 0, 0] = .ok (4, [30, 31, 32, 33]) ∧
      u.get [1, 1, 0] = box.get [1, 1, 0]) ∧
    box.fill [none, some 2, none] 7 = box.writeSlice [none, some 2, none] [7, 7, 7, 7] ∧
    box.writeSlice [none, some 2, none] [4, 5, 10, 11] = .ok (4, box) := by
  obtain ⟨hwrite, hfill, hback⟩ :=
    writeSlice_changes_matching_only box [none, some 2, none] (by decide)
  obtain ⟨u, hu, -, -, hread, hframe, -⟩ := hwrite [30, 31, 32, 33, 34] (by decide)
  exact ⟨⟨u, hu, hread [0, 0, 0, 0] (by decide), hframe [1, 1, 0] (by decide)⟩, (hfill 7).1,
    (hback [0, 0, 0, 0] 4 _ rfl).1⟩

end TensorFormula.Tensor
