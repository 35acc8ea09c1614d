import TensorFormula.Proofs.Tensor.Transposition

/-!
# Rearranging without loss

Which tensors can be rearranged depends on their shapes only. Transposing is its own inverse. The
other rearrangements keep the buffer, and so does the transposition of a single row or column, so
that whatever a vector becomes by rearrangements has its elements in their order, and is the vector
again once it is made one.
-/

namespace TensorFormula

namespace Rearrangement

/-- The shapes that can be rearranged in a given way. -/
def Admits : Rearrangement → Shape → Prop
  | transpose, s => s.rank = 2
  | rowMatrix, s => s.rank = 1
  | columnMatrix, s => s.rank = 1
  | vector, s => s.rank = 1 ∨ s.rank = 2 ∧ 1 ∈ s.dims

/-- The shape after a rearrangement. -/
def result : Rearrangement → Shape → Shape
  | transpose, s => ⟨s.dims.reverse⟩
  | rowMatrix, s => .matrix 1 s.count
  | columnMatrix, s => .matrix s.count 1
  | vector, s => .vector s.count

/-- The fault of a tensor that cannot be rearranged in a given way. -/
def refusal (r : Rearrangement) (s : Shape) : TensorFault :=
  match r with
  | transpose => .notMatrix .transpose s
  | _ => .unsupported r s

end Rearrangement

open Rearrangement

/-! ## Which shapes can be rearranged -/

theorem Shape.rank_eq_one_iff {s : Shape} : s.rank = 1 ↔ ∃ n, s = .vector n := by
  obtain ⟨ds⟩ := s
  simp [Shape.rank, Shape.vector, List.length_eq_one_iff]

theorem Shape.rank_eq_two_iff {s : Shape} : s.rank = 2 ↔ ∃ m n, s = .matrix m n := by
  obtain ⟨ds⟩ := s
  simp [Shape.rank, Shape.matrix, List.length_eq_two]

namespace Tensor

variable {α : Type} {m n : Nat} {r : Rearrangement} {t u v : Tensor α}

theorem isLinear_iff {s : Shape} : isLinear s = true ↔ Admits .vector s := by
  obtain ⟨ds⟩ := s
  match ds with
  | [m, n] => simp [isLinear, Admits, Shape.rank, eq_comm (a := 1)]
  | [] | [_] | _ :: _ :: _ :: _ => simp [isLinear, Admits, Shape.rank]

theorem exists_toRowMatrix (h : t.shape = .vector n) :
    ∃ u, t.toRowMatrix = .ok u ∧ u.shape = .matrix 1 n ∧ u.content = t.content := by
  obtain ⟨_, a, hv, ha⟩ := t
  obtain rfl := h
  exact ⟨_, rfl, rfl, rfl⟩

theorem exists_toColumnMatrix (h : t.shape = .vector n) :
    ∃ u, t.toColumnMatrix = .ok u ∧ u.shape = .matrix n 1 ∧ u.content = t.content := by
  obtain ⟨_, a, hv, ha⟩ := t
  obtain rfl := h
  exact ⟨_, rfl, rfl, rfl⟩

theorem rearrange_of_admits (h : r.Admits t.shape) :
    ∃ u, t.rearrange r = .ok u ∧ u.shape = r.result t.shape ∧
      (r ≠ .transpose → u.content = t.content) := by
  cases r with
  | transpose =>
      obtain ⟨m, n, hs⟩ := Shape.rank_eq_two_iff.1 h
      obtain ⟨u, hu, htu⟩ := exists_transpose hs
      exact ⟨u, hu, by rw [htu.shape_transpose, hs]; rfl, fun hne => absurd rfl hne⟩
  | rowMatrix =>
      obtain ⟨n, hs⟩ := Shape.rank_eq_one_iff.1 h
      obtain ⟨u, hu, hus, huc⟩ := exists_toRowMatrix hs
      exact ⟨u, hu, by rw [hus, hs, result, Shape.count_vector], fun _ => huc⟩
  | columnMatrix =>
      obtain ⟨n, hs⟩ := Shape.rank_eq_one_iff.1 h
      obtain ⟨u, hu, hus, huc⟩ := exists_toColumnMatrix hs
      exact ⟨u, hu, by rw [hus, hs, result, Shape.count_vector], fun _ => huc⟩
  | vector => exact ⟨_, if_pos (isLinear_iff.2 h), rfl, fun _ => rfl⟩

theorem rearrange_of_not_admits (h : ¬ r.Admits t.shape) :
    t.rearrange r = .error (r.refusal t.shape) := by
  cases r with
  | vector => exact if_neg (isLinear_iff.not.2 h)
  | transpose =>
      obtain ⟨⟨ds⟩, a, hv, ha⟩ := t
      match ds, hv, ha, h with
      | [_, _], _, _, h => exact absurd rfl h
      | [], _, _, _ | [_], _, _, _ | _ :: _ :: _ :: _, _, _, _ => rfl
  | rowMatrix | columnMatrix =>
      obtain ⟨⟨ds⟩, a, hv, ha⟩ := t
      match ds, hv, ha, h with
      | [_], _, _, h => exact absurd rfl h
      | [], _, _, _ | _ :: _ :: _, _, _, _ => rfl

/-! ## Transposing -/

theorem TransposesTo.symm (h : t.TransposesTo m n u) : u.TransposesTo n m t :=
  ⟨h.shape_transpose, h.shape, fun j hj i hi => (h.get i hi j hj).symm⟩

theorem TransposesTo.transpose_eq (h : t.TransposesTo m n u) : t.transpose = .ok u := by
  obtain ⟨v, hv, htv⟩ := exists_transpose h.shape
  have hvu : v = u := ext_matrix htv.shape_transpose h.shape_transpose fun j hj i hi => by
    rw [htv.get i hi j hj, h.get i hi j hj]
  rw [hv, hvu]

/-- A single row has the elements of its column in the same order. -/
theorem TransposesTo.content_of_row (h : t.TransposesTo 1 n u) : u.content = t.content := by
  have hrow := size_content_matrix h.shape
  have hcol := size_content_matrix h.shape_transpose
  rw [Nat.one_mul] at hrow
  rw [Nat.mul_one] at hcol
  refine Array.ext (hcol.trans hrow.symm) fun j hj _ => ?_
  have hcell := h.cell_eq 0 ⟨j, hcol ▸ hj⟩
  simpa [cell] using hcell

/-! ## Vectors, rows and columns -/

/-- The elements of a vector of length `n` in their order, in one of three shapes. -/
structure Line (n : Nat) (t u : Tensor α) : Prop where
  shape : u.shape = .vector n ∨ u.shape = .matrix 1 n ∨ u.shape = .matrix n 1
  content : u.content = t.content

theorem Line.count (h : Line n t u) : u.shape.count = n := by
  obtain hs | hs | hs := h.shape <;> simp [hs]

theorem Line.eq (h : Line n t u) (h' : Line n t v) (hs : u.shape = v.shape) : u = v :=
  Tensor.ext hs (h.content.trans h'.content.symm)

theorem Line.transpose (h : Line n t u) (hv : u.transpose = .ok v) : Line n t v := by
  have hrank : u.shape.rank = 2 := by
    by_contra hne
    cases (rearrange_of_not_admits (r := .transpose) hne).symm.trans hv
  obtain hs | hs | hs := h.shape
  · rw [hs] at hrank
    cases hrank
  · obtain ⟨w, hw, huw⟩ := exists_transpose hs
    obtain rfl := Except.ok.inj (hw.symm.trans hv)
    exact ⟨.inr (.inr huw.shape_transpose), huw.content_of_row.trans h.content⟩
  · obtain ⟨w, hw, huw⟩ := exists_transpose hs
    obtain rfl := Except.ok.inj (hw.symm.trans hv)
    exact ⟨.inr (.inl huw.shape_transpose), huw.symm.content_of_row.symm.trans h.content⟩

/-- One step among the three shapes of a vector. -/
theorem Line.rearrange (h : Line n t u) (hv : u.rearrange r = .ok v) : Line n t v := by
  by_cases hr : r = .transpose
  · subst hr
    exact h.transpose hv
  · have hadmits : r.Admits u.shape := by
      by_contra hnot
      cases (rearrange_of_not_admits hnot).symm.trans hv
    obtain ⟨w, hw, hs, hc⟩ := rearrange_of_admits hadmits
    obtain rfl := Except.ok.inj (hw.symm.trans hv)
    refine ⟨?_, (hc hr).trans h.content⟩
    rw [hs]
    cases r with
    | transpose => exact absurd rfl hr
    | rowMatrix => exact .inr (.inl (by rw [result, h.count]))
    | columnMatrix => exact .inr (.inr (by rw [result, h.count]))
    | vector => exact .inl (by rw [result, h.count])

/-- A tensor rearranged in several ways, one after the other. -/
def rearrangeAll (t : Tensor α) (rs : List Rearrangement) : Except TensorFault (Tensor α) :=
  rs.foldlM (fun u r => u.rearrange r) t

theorem Line.rearrangeAll {rs : List Rearrangement} (h : Line n t u)
    (hv : u.rearrangeAll rs = .ok v) : Line n t v := by
  induction rs generalizing u with
  | nil => exact Except.ok.inj hv ▸ h
  | cons r rs ih =>
      rw [Tensor.rearrangeAll, List.foldlM_cons] at hv
      cases hw : u.rearrange r with
      | error f =>
          rw [hw] at hv
          cases hv
      | ok w =>
          rw [hw] at hv
          exact ih (h.rearrange hw) hv

theorem Line.toVector (h : Line n t u) (ht : t.shape = .vector n) : u.toVector = .ok t := by
  have hadmits : Admits .vector u.shape := by
    obtain hs | hs | hs := h.shape
    · exact .inl (Shape.rank_eq_one_iff.2 ⟨n, hs⟩)
    · exact .inr ⟨Shape.rank_eq_two_iff.2 ⟨1, n, hs⟩, by simp [hs, Shape.matrix]⟩
    · exact .inr ⟨Shape.rank_eq_two_iff.2 ⟨n, 1, hs⟩, by simp [hs, Shape.matrix]⟩
  obtain ⟨w, hw, hs, -⟩ := rearrange_of_admits hadmits
  have hline : Line n t t := ⟨.inl ht, rfl⟩
  have hwt : w = t := (h.rearrange hw).eq hline (by rw [hs, result, h.count, ht])
  exact hwt ▸ hw

/-- A vector as a row and as a column, which transposing turns into each other. -/
theorem exists_row_column (h : t.shape = .vector n) :
    ∃ row col, t.toRowMatrix = .ok row ∧ t.toColumnMatrix = .ok col ∧
      row.shape = .matrix 1 n ∧ col.shape = .matrix n 1 ∧
      row.content = t.content ∧ col.content = t.content ∧
      row.transpose = .ok col ∧ col.transpose = .ok row := by
  obtain ⟨row, hrow, hs, hc⟩ := exists_toRowMatrix h
  obtain ⟨col, hcol, hs', hc'⟩ := exists_toColumnMatrix h
  obtain ⟨u, hu, hru⟩ := exists_transpose hs
  obtain rfl : u = col := Tensor.ext (hru.shape_transpose.trans hs'.symm)
    (hru.content_of_row.trans (hc.trans hc'.symm))
  exact ⟨row, u, hrow, hcol, hs, hs', hc, hc', hu, hru.symm.transpose_eq⟩

/-! ## Main statement -/

/-- Transposing swaps the coordinates of a matrix, and is undone by transposing. The row and the
column of a vector are each other's transposes, and a vector that has been rearranged in whatever
ways is the same vector once it is made one. A rearrangement succeeds on the shapes that it admits,
with the buffer unchanged unless it transposes, and has its own fault for all others; in place it
does the same and leaves alone what it refuses. -/
theorem rearrange_without_loss (t : Tensor α) :
    (∀ m n, t.shape = .matrix m n → ∃ u, t.transpose = .ok u ∧ u.shape = .matrix n m ∧
      (∀ i < m, ∀ j < n, ∃ x, t.get [i, j] = .ok x ∧ u.get [j, i] = .ok x) ∧
      u.transpose = .ok t) ∧
    (∀ n, t.shape = .vector n →
      (∃ row col, t.toRowMatrix = .ok row ∧ t.toColumnMatrix = .ok col ∧
        row.transpose = .ok col ∧ col.transpose = .ok row ∧
        row.toVector = .ok t ∧ col.toVector = .ok t) ∧
      ∀ rs u, t.rearrangeAll rs = .ok u → u.toVector = .ok t) ∧
    ∀ r : Rearrangement,
      (r.Admits t.shape → ∃ u, t.rearrange r = .ok u ∧ u.shape = r.result t.shape ∧
        (r ≠ .transpose → u.content = t.content)) ∧
      (¬ r.Admits t.shape → t.rearrange r = .error (r.refusal t.shape)) ∧
      (Block.rearrange r).run t.block =
        Block.settled t ((t.rearrange r).map fun u => ((), u)) := by
  refine ⟨fun m n hs => ?_, fun n hs => ⟨?_, fun rs u hu => ?_⟩, fun r =>
    ⟨rearrange_of_admits, rearrange_of_not_admits, Block.run_rearrange r t⟩⟩
  · obtain ⟨u, hu, htu⟩ := exists_transpose hs
    refine ⟨u, hu, htu.shape_transpose, fun i hi j hj => ?_, htu.symm.transpose_eq⟩
    have hget := get_matrix hs hi hj
    exact ⟨_, hget, (htu.get i hi j hj).trans hget⟩
  · obtain ⟨row, col, hrow, hcol, hs', hs'', hc, hc', htranspose⟩ := exists_row_column hs
    have hline : Line n t row := ⟨.inr (.inl hs'), hc⟩
    have hline' : Line n t col := ⟨.inr (.inr hs''), hc'⟩
    exact ⟨row, col, hrow, hcol, htranspose.1, htranspose.2, hline.toVector hs,
      hline'.toVector hs⟩
  · have hline : Line n t t := ⟨.inl hs, rfl⟩
    exact (hline.rearrangeAll hu).toVector hs

def tenCells : Tensor Float := ⟨.matrix 2 5, #[1, 2, 3, 4, 5, 6, 7, 8, 9, 10], by decide, rfl⟩

def fourInLine : Tensor Float := ⟨.vector 4, #[1, 2, 3, 4], by decide, rfl⟩

/-- A column turned into a row, a vector, a row and a column is still the same vector. -/
theorem rearrange_without_loss_cells :
    (∃ u, tenCells.transpose = .ok u ∧ u.shape = .matrix 5 2 ∧ u.get [3, 1] = .ok 9 ∧
      u.transpose = .ok tenCells) ∧
    tenCells.toVector = .error (.unsupported .vector (.matrix 2 5)) ∧
    (∃ u, fourInLine.rearrangeAll [.columnMatrix, .transpose, .vector, .rowMatrix, .transpose] =
        .ok u ∧ u.toVector = .ok fourInLine) ∧
    fourInLine.transpose = .error (.notMatrix .transpose (.vector 4)) := by
  obtain ⟨htranspose, -, hways⟩ := rearrange_without_loss tenCells
  obtain ⟨-, hline, hways'⟩ := rearrange_without_loss fourInLine
  obtain ⟨u, hu, hs, hget, hback⟩ := htranspose 2 5 rfl
  obtain ⟨x, hx, hux⟩ := hget 1 (by decide) 3 (by decide)
  obtain rfl : 9 = x := Except.ok.inj hx
  have hrun : ∃ v, fourInLine.rearrangeAll
      [.columnMatrix, .transpose, .vector, .rowMatrix, .transpose] = .ok v := ⟨_, rfl⟩
  obtain ⟨v, hv⟩ := hrun
  have hvector : ¬ Admits .vector tenCells.shape := isLinear_iff.not.1 (by decide)
  have hmatrix : ¬ Admits .transpose fourInLine.shape := fun h => nomatch h
  exact ⟨⟨u, hu, hs, hux, hback⟩, (hways .vector).2.1 hvector,
    ⟨v, hv, (hline 4 rfl).2 _ v hv⟩, (hways' .transpose).2.1 hmatrix⟩

end Tensor

end TensorFormula
