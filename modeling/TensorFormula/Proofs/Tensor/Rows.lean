import TensorFormula.Proofs.Tensor.MatrixProduct

/-!
# Matrices from rows

A matrix made from rows is as wide as the first of them, and only the number of all elements is
checked. Rows of one length fill it row by row. Rows of other lengths are accepted too when their
lengths add up, and their elements then move from row to row.
-/

namespace TensorFormula.Tensor

variable {α : Type} {rows : List (List α)} {w : Nat}

/-- The width of a matrix made from rows. -/
def width (rows : List (List α)) : Nat := rows.head?.elim 0 List.length

def EquallyLong (rows : List (List α)) : Prop := ∀ row ∈ rows, row.length = width rows

theorem length_flatten (h : ∀ row ∈ rows, row.length = w) :
    rows.flatten.length = rows.length * w := by
  induction rows with
  | nil => rw [List.flatten_nil, List.length_nil, List.length_nil, Nat.zero_mul]
  | cons row rows ih =>
      rw [List.forall_mem_cons] at h
      rw [List.flatten_cons, List.length_append, h.1, ih h.2, List.length_cons, Nat.succ_mul,
        Nat.add_comm]

theorem getElem?_flatten (h : ∀ row ∈ rows, row.length = w) (i : Nat) {j : Nat} (hj : j < w) :
    rows.flatten[i * w + j]? = rows[i]?.bind fun row => row[j]? := by
  induction rows generalizing i with
  | nil => rfl
  | cons row rows ih =>
      rw [List.forall_mem_cons] at h
      rw [List.flatten_cons]
      cases i with
      | zero =>
          rw [Nat.zero_mul, Nat.zero_add, List.getElem?_append_left (h.1.symm ▸ hj)]
          rfl
      | succ i =>
          have hplace : (i + 1) * w + j = row.length + (i * w + j) := by
            rw [h.1, Nat.succ_mul]
            omega
          rw [hplace, List.getElem?_append_right (Nat.le_add_right _ _), Nat.add_sub_cancel_left,
            ih h.2]
          rfl

/-- A tensor of the right shape and content is all that is needed, since its type says the rest. -/
theorem ofArray_eq_ok_iff {s : Shape} {a : Array α} {t : Tensor α} :
    ofArray s a = .ok t ↔ t.shape = s ∧ t.content = a := by
  constructor
  · intro h
    rw [ofArray] at h
    split at h
    case isFalse => cases h
    split at h
    case isFalse => cases h
    obtain rfl := Except.ok.inj h
    exact ⟨rfl, rfl⟩
  · rintro ⟨rfl, rfl⟩
    exact Block.ofArray_self t

theorem ofRows_eq_ok_iff {t : Tensor α} : ofRows rows = .ok t ↔
    t.shape = .matrix rows.length (width rows) ∧ t.content = rows.flatten.toArray :=
  ofArray_eq_ok_iff

theorem exists_ofRows_iff : (∃ t, ofRows rows = .ok t) ↔
    rows ≠ [] ∧ 0 < width rows ∧ rows.flatten.length = rows.length * width rows := by
  have hvalid : (Shape.matrix rows.length (width rows)).Valid ↔ rows ≠ [] ∧ 0 < width rows := by
    rw [Shape.valid_matrix_iff, List.length_pos_iff]
  rw [← and_assoc, ← hvalid]
  constructor
  · rintro ⟨t, h⟩
    obtain ⟨hs, hc⟩ := ofRows_eq_ok_iff.1 h
    have hsize := size_content_matrix hs
    rw [hc, List.size_toArray] at hsize
    exact ⟨hs ▸ t.valid, hsize⟩
  · rintro ⟨hv, hsize⟩
    have hcount : rows.flatten.toArray.size = (Shape.matrix rows.length (width rows)).count := by
      rw [List.size_toArray, hsize, Shape.count_matrix]
    exact ⟨⟨_, _, hv, hcount⟩, ofRows_eq_ok_iff.2 ⟨rfl, rfl⟩⟩

theorem get_ofRows_of_equallyLong {t : Tensor α} (ht : ofRows rows = .ok t)
    (h : EquallyLong rows) (i j : Nat) (x : α) :
    t.get [i, j] = .ok x ↔ (rows[i]?.bind fun row => row[j]?) = some x := by
  obtain ⟨hs, hc⟩ := ofRows_eq_ok_iff.1 ht
  rw [get_matrix_eq_ok_iff hs, hc, List.getElem?_toArray]
  constructor
  · rintro ⟨-, hj, hx⟩
    rwa [getElem?_flatten h i hj] at hx
  · intro hx
    obtain ⟨row, hrow, hentry⟩ := Option.bind_eq_some_iff.1 hx
    obtain ⟨hi, -⟩ := List.getElem?_eq_some_iff.1 hrow
    obtain ⟨hj, -⟩ := List.getElem?_eq_some_iff.1 hentry
    rw [h row (List.mem_of_getElem? hrow)] at hj
    exact ⟨hi, hj, (getElem?_flatten h i hj).trans hx⟩

/-- Each row has the elements of the matrix in this row, hence as many. -/
theorem equallyLong_of_get {t : Tensor α} (ht : ofRows rows = .ok t)
    (h : ∀ i j x, t.get [i, j] = .ok x ↔ (rows[i]?.bind fun row => row[j]?) = some x) :
    EquallyLong rows := by
  obtain ⟨hs, -⟩ := ofRows_eq_ok_iff.1 ht
  intro row hmem
  obtain ⟨i, hi⟩ := List.mem_iff_getElem?.1 hmem
  obtain ⟨hlt, -⟩ := List.getElem?_eq_some_iff.1 hi
  have hentry (j : Nat) : j < row.length ↔ j < width rows := by
    have hget := h i j
    rw [hi, Option.bind_some] at hget
    constructor
    · intro hj
      exact ((get_matrix_eq_ok_iff hs).1 ((hget _).2 (List.getElem?_eq_getElem hj))).2.1
    · intro hj
      exact (List.getElem?_eq_some_iff.1 ((hget _).1 (get_matrix hs hlt hj))).1
  exact Nat.le_antisymm (Nat.le_of_not_lt fun hlt => lt_irrefl _ ((hentry _).1 hlt))
    (Nat.le_of_not_lt fun hlt => lt_irrefl _ ((hentry _).2 hlt))

/-- Rows are accepted if there are elements in the first of them and as many in all as in a matrix
of its width. For rows of one length that is no further condition. The matrix has the elements of
all rows one after another, and those of each row in its place only if the rows are equally long. -/
theorem ofRows_checks_total_length (rows : List (List α)) :
    ((∃ t, ofRows rows = .ok t) ↔
      rows ≠ [] ∧ 0 < width rows ∧ rows.flatten.length = rows.length * width rows) ∧
    (EquallyLong rows → ((∃ t, ofRows rows = .ok t) ↔ rows ≠ [] ∧ 0 < width rows)) ∧
    ∀ t, ofRows rows = .ok t →
      t.shape = .matrix rows.length (width rows) ∧ t.content = rows.flatten.toArray ∧
      (EquallyLong rows ↔
        ∀ i j x, t.get [i, j] = .ok x ↔ (rows[i]?.bind fun row => row[j]?) = some x) := by
  refine ⟨exists_ofRows_iff, fun h => ?_, fun t ht => ?_⟩
  · rw [exists_ofRows_iff]
    exact ⟨fun ⟨hne, hw, _⟩ => ⟨hne, hw⟩, fun ⟨hne, hw⟩ => ⟨hne, hw, length_flatten h⟩⟩
  · obtain ⟨hs, hc⟩ := ofRows_eq_ok_iff.1 ht
    exact ⟨hs, hc, get_ofRows_of_equallyLong ht, equallyLong_of_get ht⟩

def evenRows : List (List Float) := [[1, 2, 3], [4, 5, 6]]

theorem ofRows_checks_total_length_evenRows :
    ∃ t, ofRows evenRows = .ok t ∧ t.shape = .matrix 2 3 ∧ t.get [1, 0] = .ok 4 := by
  obtain ⟨-, haccept, hget⟩ := ofRows_checks_total_length evenRows
  have heven : EquallyLong evenRows := by
    simp [EquallyLong, evenRows, width]
  obtain ⟨t, ht⟩ := (haccept heven).2 ⟨by decide, by decide⟩
  obtain ⟨hs, -, hrows⟩ := hget t ht
  exact ⟨t, ht, hs, (hrows.1 heven 1 0 4).2 rfl⟩

def raggedRows : List (List Float) := [[1, 2], [3], [4, 5, 6]]

/-- The last row has an element for the one that is missing before it. -/
theorem ofRows_shifts_raggedRows :
    ¬ EquallyLong raggedRows ∧
      ∃ t, ofRows raggedRows = .ok t ∧ t.shape = .matrix 3 2 ∧ t.get [1, 1] = .ok 4 := by
  refine ⟨by simp [EquallyLong, raggedRows, width], ?_⟩
  exact ⟨⟨.matrix 3 2, #[1, 2, 3, 4, 5, 6], by decide, rfl⟩, rfl, rfl, rfl⟩

end TensorFormula.Tensor
