import TensorFormula.Proofs.Memory.Words
import TensorFormula.Proofs.Tensor.Addressing

/-!
# The numbering of the elements

Offsets number the coordinate vectors inside a shape from zero on without a gap, in lexicographic
order. A vector that is not inside is refused for its length, or else for the first coordinate that
lies outside.
-/

namespace TensorFormula.Shape

/-- The coordinates of the element numbered `k`. -/
def coordinates : List Nat → Nat → List Nat
  | [], _ => []
  | _ :: ds, k => k / volume ds :: coordinates ds (k % volume ds)

/-- The coordinate `i` in dimension `dim`, of size `d`, lies outside, and all before it inside. -/
structure FirstOutside (dims index : List Nat) (dim i d : Nat) : Prop where
  coordinate : index[dim]? = some i
  size : dims[dim]? = some d
  outside : d ≤ i
  inside : Bounds (dims.take dim) (index.take dim)

/-- Why there is no element at a coordinate vector. -/
inductive Refuses (dims index : List Nat) : TensorFault → Prop
  | arity (h : index.length ≠ dims.length) :
      Refuses dims index (.indexArity dims.length index.length)
  | range {dim i d : Nat} (hl : index.length = dims.length)
      (h : FirstOutside dims index dim i d) : Refuses dims index (.indexOutOfRange dim i d)

variable {s : Shape} {ds is : List Nat} {f : TensorFault}

/-! ## Numbers without a gap -/

theorem bounds_coordinates {k : Nat} (h : k < volume ds) : Bounds ds (coordinates ds k) := by
  induction ds generalizing k with
  | nil => exact .nil
  | cons d ds ih =>
      have hpos : 0 < volume ds := Nat.pos_of_lt_mul_left h
      exact .cons (Nat.div_lt_of_lt_mul (Nat.mul_comm d _ ▸ h)) (ih (Nat.mod_lt k hpos))

theorem place_coordinates {k : Nat} (h : k < volume ds) : place ds (coordinates ds k) = k := by
  induction ds generalizing k with
  | nil => exact (Nat.lt_one_iff.1 h).symm
  | cons d ds ih =>
      have hpos : 0 < volume ds := Nat.pos_of_lt_mul_left h
      rw [coordinates, place, ih (Nat.mod_lt k hpos)]
      exact Nat.div_add_mod' k (volume ds)

example : coordinates [2, 3, 2] 7 = [1, 0, 1] := rfl

theorem exists_offset_iff : (∃ k, s.offset is = .ok k) ↔ Bounds s.dims is := by
  constructor
  · rintro ⟨k, hk⟩
    exact (offset_eq_ok_iff.1 hk).1
  · intro hb
    exact ⟨⟨_, place_lt_volume hb⟩, offset_eq_ok_iff.2 ⟨hb, rfl⟩⟩

theorem existsUnique_offset (k : Fin s.count) : ∃! index, s.offset index = .ok k := by
  have hplace := place_coordinates k.isLt
  refine ⟨coordinates s.dims k, ?_, fun index h => ?_⟩
  · exact offset_eq_ok_iff.2 ⟨bounds_coordinates k.isLt, hplace.symm⟩
  · obtain ⟨hb, hk⟩ := offset_eq_ok_iff.1 h
    exact eq_of_place_eq hb (bounds_coordinates k.isLt) (hk.symm.trans hplace.symm)

theorem lt_iff_place_lt {js : List Nat} (hi : Bounds ds is) (hj : Bounds ds js) :
    is < js ↔ place ds is < place ds js := by
  refine ⟨place_lt_place hi hj, fun h => ?_⟩
  obtain hlt | rfl | hlt := lt_trichotomy is js
  · exact hlt
  · exact absurd h (lt_irrefl _)
  · exact absurd h (place_lt_place hj hi hlt).asymm

/-! ## Vectors without an element -/

theorem FirstOutside.zero {i d : Nat} (h : d ≤ i) : FirstOutside (d :: ds) (i :: is) 0 i d :=
  ⟨rfl, rfl, h, .nil⟩

theorem firstOutside_succ_iff {i d dim i' d' : Nat} (h : i < d) :
    FirstOutside (d :: ds) (i :: is) (dim + 1) i' d' ↔ FirstOutside ds is dim i' d' := by
  constructor
  · rintro ⟨hi, hd, hout, _ | ⟨-, hin⟩⟩
    exact ⟨hi, hd, hout, hin⟩
  · rintro ⟨hi, hd, hout, hin⟩
    exact ⟨hi, hd, hout, .cons h hin⟩

theorem offsetFrom_eq_error_iff {dim : Nat} (hl : is.length = ds.length) :
    offsetFrom dim ds is = .error f ↔
      ∃ j i d, FirstOutside ds is j i d ∧ f = .indexOutOfRange (dim + j) i d := by
  induction ds generalizing dim is with
  | nil =>
      constructor
      · intro h
        cases h
      · rintro ⟨j, i, d, h, -⟩
        cases h.size
  | cons d ds ih =>
      obtain ⟨i, is, rfl⟩ := List.exists_cons_of_length_eq_add_one hl
      by_cases hi : i < d
      · have hrest : offsetFrom dim (d :: ds) (i :: is) = .error f ↔
            offsetFrom (dim + 1) ds is = .error f := by
          rw [Block.offsetFrom_of_lt dim ds is hi]
          cases offsetFrom (dim + 1) ds is with
          | error e => exact ⟨by rintro ⟨⟩; rfl, by rintro ⟨⟩; rfl⟩
          | ok k => exact ⟨nofun, nofun⟩
        rw [hrest, ih (Nat.succ.inj hl)]
        constructor
        · rintro ⟨j, i', d', h, rfl⟩
          refine ⟨j + 1, i', d', (firstOutside_succ_iff hi).2 h, ?_⟩
          rw [Nat.add_right_comm, Nat.add_assoc]
        · rintro ⟨_ | j, i', d', h, rfl⟩
          · obtain rfl := Option.some.inj h.coordinate
            obtain rfl := Option.some.inj h.size
            exact absurd hi (Nat.not_lt.2 h.outside)
          · refine ⟨j, i', d', (firstOutside_succ_iff hi).1 h, ?_⟩
            rw [Nat.add_right_comm, Nat.add_assoc]
      · rw [Block.offsetFrom_of_not_lt dim ds is hi]
        constructor
        · rintro ⟨⟩
          exact ⟨0, i, d, .zero (Nat.le_of_not_lt hi), rfl⟩
        · rintro ⟨_ | j, i', d', h, rfl⟩
          · obtain rfl := Option.some.inj h.coordinate
            obtain rfl := Option.some.inj h.size
            rfl
          · obtain ⟨-, -, -, _ | ⟨hlt, -⟩⟩ := h
            exact absurd hlt hi

theorem offset_eq_error_iff : s.offset is = .error f ↔ Refuses s.dims is f := by
  by_cases hl : is.length = s.dims.length
  · rw [offset_of_length_eq hl]
    refine (offsetFrom_eq_error_iff hl).trans ?_
    constructor
    · rintro ⟨j, i, d, h, rfl⟩
      rw [Nat.zero_add]
      exact .range hl h
    · rintro (h | ⟨-, h⟩)
      · exact absurd hl h
      · exact ⟨_, _, _, h, by rw [Nat.zero_add]⟩
  · rw [offset, checkArity, rank, if_neg hl]
    constructor
    · rintro ⟨⟩
      exact .arity hl
    · rintro (- | ⟨hl', -⟩)
      · rfl
      · exact absurd hl' hl

/-! ## Main statement -/

/-- Offsets number the coordinate vectors inside a shape one after another in lexicographic order,
and tell what is wrong with any other vector. Counting in words of 64 bits gives the same, because
no stride, product or sum on the way has more bits: a program that stops at one never stops, and one
that drops its high bits never drops any. -/
theorem offset_numbers_in_order (s : Shape) (hs : s.Valid) (hcount : s.count < Nat.pow 2 64) :
    (∀ index, (∃ k, s.offset index = .ok k) ↔ Bounds s.dims index) ∧
    (∀ k, ∃! index, s.offset index = .ok k) ∧
    (∀ index index' k k', s.offset index = .ok k → s.offset index' = .ok k' →
      (index < index' ↔ k < k')) ∧
    (∀ index f, s.offset index = .error f ↔ Refuses s.dims index f) ∧
    ∀ v : Block.Overflow,
      Block.wordStrides (ε := TensorFault) v s.dims = .ok s.strides ∧
      ∀ index, Block.wordOffset v s.dims index = Block.told Fin.val (s.offset index) := by
  refine ⟨fun _ => exists_offset_iff, existsUnique_offset, fun index index' k k' h h' => ?_,
    fun _ _ => offset_eq_error_iff, fun v => ⟨?_, fun index => ?_⟩⟩
  · obtain ⟨hb, hk⟩ := offset_eq_ok_iff.1 h
    obtain ⟨hb', hk'⟩ := offset_eq_ok_iff.1 h'
    rw [lt_iff_place_lt hb hb', ← hk, ← hk']
    exact Iff.rfl
  · exact Block.wordStrides_eq v hs.2 hcount
  · rw [Block.wordOffset_eq v hs hcount, Block.offset_eq]

/-- A shape whose elements take all but one of 64 bits to count. -/
def wideShape : Shape := .matrix 2147483648 4294967296

theorem offset_numbers_in_order_wideShape :
    wideShape.Valid ∧ wideShape.count < Nat.pow 2 64 ∧
      Block.wordOffset .wraps wideShape.dims [2147483647, 4294967295] =
        .ok 9223372036854775807 ∧
      wideShape.offset [2147483647, 4294967296] =
        .error (.indexOutOfRange 1 4294967296 4294967296) := by
  have hs : wideShape.Valid := by decide
  have hcount : wideShape.count < Nat.pow 2 64 := by decide
  obtain ⟨-, -, -, hrefuse, hword⟩ := offset_numbers_in_order wideShape hs hcount
  refine ⟨hs, hcount, ?_, ?_⟩
  · rw [(hword .wraps).2]
    rfl
  · rw [hrefuse]
    exact .range rfl ⟨rfl, rfl, le_rfl, by decide⟩

end TensorFormula.Shape
