import Mathlib.Data.List.Forall2
import Mathlib.Data.List.Lex
import TensorFormula.Proofs.Memory.Access

/-!
# Coordinates and their order

The offset of a coordinate vector is a number whose digits are the coordinates, each below the size
of its dimension. Offsets therefore increase with the lexicographic order of coordinate vectors, and
the positions that a pattern selects are the offsets of the vectors that agree with it, in that
order.
-/

namespace TensorFormula

namespace Shape

/-- There is a coordinate for each dimension, and it lies inside. -/
def Bounds (dims index : List Nat) : Prop := List.Forall₂ (· < ·) index dims

instance (dims index : List Nat) : Decidable (Bounds dims index) :=
  inferInstanceAs (Decidable (List.Forall₂ _ index dims))

/-- The number of the element at a coordinate vector. -/
def place : List Nat → List Nat → Nat
  | _ :: ds, i :: is => i * volume ds + place ds is
  | _, _ => 0

variable {s : Shape} {ds is js : List Nat}

theorem place_lt_volume (h : Bounds ds is) : place ds is < volume ds := by
  induction h with
  | nil => exact Nat.one_pos
  | @cons i d is ds hi _ ih =>
      have hblock : (i + 1) * volume ds ≤ d * volume ds := Nat.mul_le_mul_right _ hi
      rw [Nat.succ_mul] at hblock
      rw [place, volume_cons]
      omega

/-- A larger coordinate is at least a block further on, whatever follows it. -/
theorem place_lt_place (hi : Bounds ds is) (hj : Bounds ds js) (h : is < js) :
    place ds is < place ds js := by
  induction hi generalizing js with
  | nil =>
      cases hj
      exact absurd h (lt_irrefl _)
  | @cons i d is ds _ hi ih =>
      obtain _ | @⟨j, _, js, _, _, hj⟩ := hj
      rw [place, place]
      -- The first coordinates decide, or they are equal and the others do.
      obtain hlt | ⟨rfl, htail⟩ := List.cons_lt_cons_iff.1 h
      · have hblock : (i + 1) * volume ds ≤ j * volume ds := Nat.mul_le_mul_right _ hlt
        have hplace := place_lt_volume hi
        rw [Nat.succ_mul] at hblock
        omega
      · exact Nat.add_lt_add_left (ih hj htail) _

theorem eq_of_place_eq (hi : Bounds ds is) (hj : Bounds ds js) (h : place ds is = place ds js) :
    is = js := by
  obtain hlt | rfl | hlt := lt_trichotomy is js
  · exact absurd h (place_lt_place hi hj hlt).ne
  · rfl
  · exact absurd h (place_lt_place hj hi hlt).ne'

/-! ## Offsets -/

theorem exists_offsetFrom (dim : Nat) (h : Bounds ds is) :
    ∃ k, offsetFrom dim ds is = .ok k ∧ k.val = place ds is := by
  induction h generalizing dim with
  | nil => exact ⟨_, rfl, rfl⟩
  | @cons i d is ds hi _ ih =>
      obtain ⟨k, hk, hplace⟩ := ih (dim + 1)
      refine ⟨inBlock ⟨i, hi⟩ k, ?_, ?_⟩
      · rw [Block.offsetFrom_of_lt dim ds is hi, hk]
        rfl
      · rw [val_inBlock, hplace, place]

theorem bounds_of_offsetFrom {dim : Nat} {k : Fin (volume ds)} (hl : is.length = ds.length)
    (h : offsetFrom dim ds is = .ok k) : Bounds ds is := by
  induction ds generalizing dim is with
  | nil =>
      obtain rfl := List.length_eq_zero_iff.1 hl
      exact .nil
  | cons d ds ih =>
      obtain ⟨i, is, rfl⟩ := List.exists_cons_of_length_eq_add_one hl
      by_cases hi : i < d
      · rw [Block.offsetFrom_of_lt dim ds is hi] at h
        cases hrest : offsetFrom (dim + 1) ds is with
        | error f =>
            rw [hrest] at h
            cases h
        | ok m => exact .cons hi (ih (Nat.succ.inj hl) hrest)
      · rw [Block.offsetFrom_of_not_lt dim ds is hi] at h
        cases h

theorem offset_of_length_eq (h : is.length = s.dims.length) :
    s.offset is = offsetFrom 0 s.dims is := by
  rw [offset, checkArity, rank, if_pos h]
  rfl

theorem offset_eq_ok_iff {k : Fin s.count} :
    s.offset is = .ok k ↔ Bounds s.dims is ∧ k.val = place s.dims is := by
  constructor
  · intro h
    have hl : is.length = s.dims.length := by
      by_contra hl
      rw [offset, checkArity, rank, if_neg hl] at h
      cases h
    rw [offset_of_length_eq hl] at h
    have hb := bounds_of_offsetFrom hl h
    obtain ⟨m, hm, hplace⟩ := exists_offsetFrom 0 hb
    obtain rfl : k = m := Except.ok.inj (h.symm.trans hm)
    exact ⟨hb, hplace⟩
  · rintro ⟨hb, hk⟩
    obtain ⟨m, hm, hplace⟩ := exists_offsetFrom 0 hb
    rw [offset_of_length_eq hb.length_eq, hm]
    exact congrArg Except.ok (Fin.ext (hplace.trans hk.symm))

end Shape

/-! ## Patterns -/

namespace Pattern

/-- There is an entry for each dimension, and its coordinate, if it has one, lies inside. -/
def Fits (pattern : Pattern) (dims : List Nat) : Prop :=
  List.Forall₂ (fun p d => ∀ i ∈ p, i < d) pattern dims

/-- A coordinate vector agrees with the coordinates of a pattern. -/
def Matches (pattern : Pattern) (index : List Nat) : Prop :=
  List.Forall₂ (fun p i => ∀ j ∈ p, i = j) pattern index

instance (pattern : Pattern) (dims : List Nat) : Decidable (pattern.Fits dims) :=
  inferInstanceAs (Decidable (List.Forall₂ _ pattern dims))

instance (pattern : Pattern) (index : List Nat) : Decidable (pattern.Matches index) :=
  inferInstanceAs (Decidable (List.Forall₂ _ pattern index))

/-- The product of the sizes of the dimensions that a pattern leaves open. -/
def count (pattern : Pattern) (dims : List Nat) : Nat :=
  Shape.volume (((pattern.zip dims).filter fun p => p.1.isNone).map Prod.snd)

/-- The coordinate vectors inside some sizes that match a pattern, each once, in lexicographic
order. -/
structure Enumerates (pattern : Pattern) (dims : List Nat) (cs : List (List Nat)) : Prop where
  increasing : cs.Pairwise (· < ·)
  mem_iff : ∀ c, c ∈ cs ↔ Shape.Bounds dims c ∧ pattern.Matches c

/-- The coordinates that an entry admits in a dimension of `d`. -/
def along (d : Nat) (p : Option Nat) : List Nat := p.elim (List.range d) fun i => [i]

/-- The matching coordinate vectors, dimension by dimension. -/
def vectors : (dims : List Nat) → Pattern → List (List Nat)
  | d :: ds, p :: ps => (along d p).flatMap fun i => (vectors ds ps).map (i :: ·)
  | _, _ => [[]]

variable {d : Nat} {ds : List Nat} {p : Option Nat} {ps : Pattern}

theorem mem_along (h : ∀ i ∈ p, i < d) {i : Nat} : i ∈ along d p ↔ i < d ∧ ∀ j ∈ p, i = j := by
  cases p with
  | none => simp [along]
  | some j =>
      have hj : j < d := h j rfl
      simp only [along, Option.elim_some, List.mem_singleton, Option.mem_some_iff, forall_eq']
      exact ⟨fun he => ⟨he ▸ hj, he⟩, And.right⟩

theorem pairwise_along (d : Nat) (p : Option Nat) : (along d p).Pairwise (· < ·) := by
  cases p with
  | none => exact List.pairwise_lt_range
  | some j => exact List.pairwise_singleton _ _

theorem mem_vectors (h : ps.Fits ds) {c : List Nat} :
    c ∈ vectors ds ps ↔ Shape.Bounds ds c ∧ ps.Matches c := by
  induction h generalizing c with
  | nil => cases c <;> simp [vectors, Shape.Bounds, Matches]
  | cons hp _ ih =>
      cases c with
      | nil => simp [vectors, Shape.Bounds, Matches]
      | cons i is =>
          simp only [Shape.Bounds, Matches] at ih
          simp only [vectors, List.mem_flatMap, List.mem_map, ih, mem_along hp, List.cons.injEq,
            Shape.Bounds, Matches, List.forall₂_cons]
          constructor
          · rintro ⟨i, ⟨hi, hip⟩, is, ⟨his, hisp⟩, rfl, rfl⟩
            exact ⟨⟨hi, his⟩, hip, hisp⟩
          · rintro ⟨⟨hi, his⟩, hip, hisp⟩
            exact ⟨i, ⟨hi, hip⟩, is, ⟨his, hisp⟩, rfl, rfl⟩

theorem pairwise_vectors (ds : List Nat) (ps : Pattern) : (vectors ds ps).Pairwise (· < ·) := by
  fun_induction vectors ds ps with
  | case1 d ds p ps ih =>
      refine List.pairwise_flatMap.2 ⟨fun i _ => ?_, (pairwise_along d p).imp fun hij => ?_⟩
      · exact List.pairwise_map.2 (ih.imp fun h => List.cons_lt_cons_iff.2 (.inr ⟨rfl, h⟩))
      · simp only [List.forall_mem_map]
        exact fun _ _ _ _ => List.cons_lt_cons_iff.2 (.inl hij)
  | case2 => exact List.pairwise_singleton _ _

theorem length_vectors (h : ps.Fits ds) : (vectors ds ps).length = ps.count ds := by
  induction h with
  | nil => rfl
  | @cons p d ps ds _ _ ih =>
      cases p <;> simp [vectors, along, count, ih]

theorem enumerates_vectors (h : ps.Fits ds) : ps.Enumerates ds (vectors ds ps) :=
  ⟨pairwise_vectors ds ps, fun _ => mem_vectors h⟩

example : vectors [2, 3, 2] [none, some 2, none] =
    [[0, 2, 0], [0, 2, 1], [1, 2, 0], [1, 2, 1]] := rfl

end Pattern

/-! ## Positions -/

namespace Shape

/-- The offsets of the matching coordinate vectors. -/
def places (dims : List Nat) (pattern : Pattern) : List Nat :=
  (Pattern.vectors dims pattern).map (place dims)

variable {s : Shape} {ds : List Nat} {ps : Pattern}

theorem length_places (h : ps.Fits ds) : (places ds ps).length = ps.count ds := by
  rw [places, List.length_map, Pattern.length_vectors h]

theorem lt_volume_of_mem_places (h : ps.Fits ds) : ∀ k ∈ places ds ps, k < volume ds := by
  rw [places, List.forall_mem_map]
  exact fun c hc => place_lt_volume ((Pattern.mem_vectors h).1 hc).1

theorem pairwise_places (h : ps.Fits ds) : (places ds ps).Pairwise (· < ·) := by
  refine List.pairwise_map.2 ((Pattern.pairwise_vectors ds ps).imp_of_mem fun hc hc' hlt => ?_)
  exact place_lt_place ((Pattern.mem_vectors h).1 hc).1 ((Pattern.mem_vectors h).1 hc').1 hlt

/-- The offsets tell the vectors that match from those that do not. -/
theorem matches_of_place_mem (h : ps.Fits ds) {c : List Nat} (hc : Bounds ds c)
    (hm : place ds c ∈ places ds ps) : ps.Matches c := by
  obtain ⟨c', hc', hplace⟩ := List.mem_map.1 hm
  obtain ⟨hb, hmatch⟩ := (Pattern.mem_vectors h).1 hc'
  rwa [← eq_of_place_eq hb hc hplace]

theorem map_val_positionsFrom (h : ps.Fits ds) :
    (positionsFrom ds ps).map Fin.val = places ds ps := by
  rw [places]
  induction h with
  | nil => rfl
  | @cons p d ps ds hp _ ih =>
      have hblock (i : Fin d) : ((positionsFrom ds ps).map (inBlock i)).map Fin.val =
          ((Pattern.vectors ds ps).map (i.val :: ·)).map (place (d :: ds)) := by
        have hrest := congrArg (List.map fun k => i * volume ds + k) ih
        simpa [Function.comp_def, place] using hrest
      -- Inside its dimension a coordinate of the pattern is the only choice there is.
      rw [positionsFrom, Pattern.vectors, Pattern.along, ← Block.map_val_choices hp,
        List.flatMap_map, List.map_flatMap, List.map_flatMap]
      exact List.flatMap_congr fun i _ => hblock i

theorem checkPattern_of_fits (dim : Nat) (h : ps.Fits ds) : checkPattern dim ds ps = .ok () := by
  induction h generalizing dim with
  | nil => rfl
  | @cons p d ps ds hp _ ih =>
      cases p with
      | none => exact ih (dim + 1)
      | some i =>
          rw [checkPattern, if_pos (hp i rfl)]
          exact ih (dim + 1)

theorem exists_positions (h : ps.Fits s.dims) : ∃ ks, s.positions ps = .ok ks ∧
    ks.map Fin.val = places s.dims ps ∧ ks.length = ps.count s.dims := by
  have hval := map_val_positionsFrom h
  refine ⟨positionsFrom s.dims ps, ?_, hval, ?_⟩
  · rw [positions, checkArity, rank, if_pos h.length_eq, checkPattern_of_fits 0 h]
    rfl
  · rw [← length_places h, ← hval, List.length_map]
    rfl

end Shape

/-! ## Elements -/

namespace Tensor

variable {α : Type} {t u : Tensor α} {index : List Nat}

theorem getElem?_entry (t : Tensor α) (k : Fin t.shape.count) :
    t.content[k.val]? = some (t.entry k) :=
  Array.getElem?_eq_getElem _

theorem get_eq_ok_iff {x : α} : t.get index = .ok x ↔
    Shape.Bounds t.shape.dims index ∧ t.content[Shape.place t.shape.dims index]? = some x := by
  rw [get]
  constructor
  · intro h
    cases hk : t.shape.offset index with
    | error f =>
        rw [hk] at h
        cases h
    | ok k =>
        rw [hk] at h
        obtain ⟨hb, hplace⟩ := Shape.offset_eq_ok_iff.1 hk
        rw [← hplace, getElem?_entry]
        exact ⟨hb, congrArg some (Except.ok.inj h)⟩
  · rintro ⟨hb, hx⟩
    have hk : t.shape.offset index = .ok ⟨_, Shape.place_lt_volume hb⟩ :=
      Shape.offset_eq_ok_iff.2 ⟨hb, rfl⟩
    rw [hk]
    exact congrArg Except.ok (Option.some.inj ((getElem?_entry t _).symm.trans hx))

/-- Two tensors of one shape answer alike where their buffers agree, and also outside. -/
theorem get_congr (hs : u.shape = t.shape) (h : Shape.Bounds t.shape.dims index →
    u.content[Shape.place t.shape.dims index]? = t.content[Shape.place t.shape.dims index]?) :
    u.get index = t.get index := by
  obtain ⟨s, a, hv, ha⟩ := u
  obtain rfl : s = t.shape := hs
  rw [get, get]
  cases hk : t.shape.offset index with
  | error f => rfl
  | ok k =>
      obtain ⟨hb, hplace⟩ := Shape.offset_eq_ok_iff.1 hk
      rw [← hplace, getElem?_entry, getElem?_entry t] at h
      exact congrArg Except.ok (Option.some.inj (h hb))

end Tensor

end TensorFormula
