import Mathlib.Data.List.OfFn
import TensorFormula.Proofs.Memory.Access

/-!
# Loops over rows and columns

The loops of the matrix product and of the transposition read and write at offsets made of a row and
a column. In buffers of the right size all of them are in range, and the loops leave the buffers
that the operations on tensors describe element by element.
-/

namespace TensorFormula.Block

open Tensor

variable {α ε : Type}

/-! ## Columns -/

theorem load_cell {m n : Nat} {a : Array α} (h : a.size = m * n) (i : Fin m) (j : Fin n) :
    load a (i * n + j) = (.ok (cell a h i j) : Except (Stop ε) α) :=
  load_eq _

theorem div_of_row {n i j : Nat} (h : j < n) : (i * n + j) / n = i := by
  rw [Nat.mul_comm, Nat.mul_add_div (Nat.zero_lt_of_lt h), Nat.div_eq_of_lt h, Nat.add_zero]

theorem foldlM_push {n : Nat} {a : Array α} {place : Nat → Nat} {f : Fin n → α}
    (h : ∀ i : Fin n, load a (place i) = (.ok (f i) : Except (Stop ε) α)) (is : List (Fin n))
    (out : Array α) :
    (is.map Fin.val).foldlM (fun out i => (load a (place i)).map out.push) out =
      (.ok (out ++ (is.map f).toArray) : Except (Stop ε) (Array α)) := by
  induction is generalizing out with
  | nil => simp [pure, Except.pure]
  | cons i is ih =>
      rw [List.map_cons, List.foldlM_cons, h i]
      change List.foldlM _ (out.push (f i)) _ = _
      rw [ih]
      simp

theorem foldlM_columns {rows cols : Nat} {a : Array α} (h : a.size = rows * cols)
    (js : List (Fin cols)) (out : Array α) :
    (js.map Fin.val).foldlM
      (fun out j => (List.range rows).foldlM
        (fun out i => (load a (i * cols + j)).map out.push) out) out =
      (.ok (out ++ (js.flatMap fun j => (List.finRange rows).map fun i => cell a h i j).toArray) :
        Except (Stop ε) (Array α)) := by
  induction js generalizing out with
  | nil => simp [pure, Except.pure]
  | cons j js ih =>
      rw [List.map_cons, List.foldlM_cons, ← List.map_coe_finRange_eq_range,
        foldlM_push fun i => load_cell h i j]
      change List.foldlM _ (out ++ _) _ = _
      rw [← List.map_coe_finRange_eq_range] at ih
      rw [ih]
      simp

theorem columns_eq {rows cols : Nat} {a : Array α} (h : a.size = rows * cols) :
    columns a rows cols =
      (.ok (Array.ofFn fun q : Fin (cols * rows) =>
        cell a h ⟨q.val % rows, mod_lt_of_lt_mul q.isLt⟩ ⟨q.val / rows, div_lt_of_lt_mul q.isLt⟩) :
        Except (Stop ε) (Array α)) := by
  rw [columns, ← List.map_coe_finRange_eq_range (n := cols), foldlM_columns h]
  congr 1
  apply Array.toList_inj.1
  simp [List.ofFn_mul, List.ofFn_eq_map, List.flatMap, div_of_row, Nat.mod_eq_of_lt]

/-! ## Rows -/

theorem overlay_eq_zipWith (f : α → α → α) {a b : Array α} (h : a.size = b.size) :
    overlay f a b = Array.zipWith f a b := by
  apply Array.ext
  · simp [overlay, h]
  · intro i hi _
    have hb : i < b.size := by
      rw [overlay, Array.size_mapIdx] at hi
      omega
    simp [overlay, hb]

theorem overlay_ofFn {n : Nat} (f : α → α → α) (g h : Fin n → α) :
    overlay f (Array.ofFn g) (Array.ofFn h) = Array.ofFn fun j => f (g j) (h j) := by
  rw [overlay_eq_zipWith f (by simp)]
  apply Array.ext <;> simp

theorem window_eq {b : Array α} {low high : Nat} (hl : low ≤ high) (hh : high ≤ b.size) :
    window b low high = (.ok (b.extract low high) : Except (Stop ε) (Array α)) :=
  if_pos ⟨hl, hh⟩

theorem row_end_le {m n : Nat} (i : Fin m) : (i + 1) * n ≤ m * n :=
  Nat.mul_le_mul_right n i.isLt

theorem window_row {m n : Nat} {a : Array α} (h : a.size = m * n) (i : Fin m) :
    window a (i * n) ((i + 1) * n) =
      (.ok (Array.ofFn (cell a h i)) : Except (Stop ε) (Array α)) := by
  have he : (i + 1) * n ≤ a.size := h ▸ row_end_le i
  rw [window_eq (Nat.mul_le_mul_right n (Nat.le_succ i)) he]
  congr 1
  apply Array.ext
  · rw [Array.size_extract, Array.size_ofFn, Nat.min_eq_left he, Nat.succ_mul]
    omega
  · intro j _ _
    simp [cell]

theorem getElem?_paste {a part : Array α} {low : Nat} (h : low + part.size ≤ a.size) (q : Nat) :
    (paste a low part)[q]? =
      if low ≤ q ∧ q < low + part.size then part[q - low]? else a[q]? := by
  have hfront : (a.extract 0 low).size = low := by
    rw [Array.size_extract]
    omega
  rw [paste, Array.append_assoc, Array.getElem?_append, hfront]
  by_cases hl : q < low
  · rw [if_pos hl, if_neg (by omega), Array.getElem?_extract, if_pos (by omega), Nat.zero_add]
  · rw [if_neg hl, Array.getElem?_append]
    by_cases hq : q - low < part.size
    · rw [if_pos hq, if_pos (by omega)]
    · rw [if_neg hq, if_neg (by omega), Array.getElem?_extract]
      have hplace : low + part.size + (q - low - part.size) = q := by omega
      by_cases hc : q < a.size
      · rw [if_pos (by omega), hplace]
      · rw [if_neg (by omega), Array.getElem?_eq_none (Nat.le_of_not_lt hc)]

/-! ## The matrix product -/

variable [Arithmetic α] {m k n : Nat} {a b : Array α}

theorem addRow_ofFn (ha : a.size = m * k) (hb : b.size = k * n) (i : Fin m) (p : Fin k)
    (g : Fin n → α) : addRow a b k n i (Array.ofFn g) p =
      (.ok (Array.ofFn fun j => g j + cell a ha i p * cell b hb p j) :
        Except (Stop ε) (Array α)) := by
  rw [addRow, load_cell ha, window_row hb]
  change Except.ok (overlay _ (Array.ofFn g) (Array.ofFn (cell b hb p))) = _
  rw [overlay_ofFn]

theorem foldlM_addRow (ha : a.size = m * k) (hb : b.size = k * n) (i : Fin m)
    (ps : List (Fin k)) (g : Fin n → α) :
    (ps.map Fin.val).foldlM (addRow a b k n i) (Array.ofFn g) =
      (.ok (Array.ofFn fun j =>
        ps.foldl (fun sum p => sum + cell a ha i p * cell b hb p j) (g j)) :
        Except (Stop ε) (Array α)) := by
  induction ps generalizing g with
  | nil => rfl
  | cons p ps ih =>
      rw [List.map_cons, List.foldlM_cons, addRow_ofFn ha hb]
      exact ih _

/-- Row `i` of the product. -/
def productRow (ha : a.size = m * k) (hb : b.size = k * n) (i : Fin m) : Array α :=
  Array.ofFn fun j => dot (cell a ha i) fun p => cell b hb p j

theorem addRows_zeros (ha : a.size = m * k) (hb : b.size = k * n) (i : Fin m) :
    (List.range k).foldlM (addRow a b k n i) (Array.replicate n 0) =
      (.ok (productRow ha hb i) : Except (Stop ε) (Array α)) := by
  have hz : Array.replicate n (0 : α) = Array.ofFn fun _ : Fin n => 0 := by
    apply Array.ext <;> simp
  rw [← List.map_coe_finRange_eq_range, hz, foldlM_addRow ha hb]
  simp [productRow, dot, Fin.foldl_eq_finRange_foldl]

/-- The buffer of the product when the rows before `i` are done. -/
def productUpTo (ha : a.size = m * k) (hb : b.size = k * n) (i : Nat) : Array α :=
  (productBuffer a b ha hb).mapIdx fun q x => if q / n < i then x else 0

theorem size_productUpTo (ha : a.size = m * k) (hb : b.size = k * n) (i : Nat) :
    (productUpTo ha hb i).size = m * n := by
  simp [productUpTo, productBuffer]

theorem productUpTo_zero (ha : a.size = m * k) (hb : b.size = k * n) :
    productUpTo ha hb 0 = Array.replicate (m * n) 0 := by
  apply Array.ext
  · simp [size_productUpTo]
  · intro q _ _
    simp [productUpTo]

theorem productUpTo_all (ha : a.size = m * k) (hb : b.size = k * n) :
    productUpTo ha hb m = productBuffer a b ha hb := by
  apply Array.ext
  · simp [productUpTo]
  · intro q hq _
    rw [size_productUpTo] at hq
    simp [productUpTo, div_lt_of_lt_mul hq]

theorem window_productUpTo (ha : a.size = m * k) (hb : b.size = k * n) (i : Fin m) :
    window (productUpTo ha hb i) (i * n) ((i + 1) * n) =
      (.ok (Array.replicate n 0) : Except (Stop ε) (Array α)) := by
  rw [window_row (size_productUpTo ha hb i) i]
  congr 1
  apply Array.ext
  · simp
  · intro j hj _
    have hj : j < n := by simpa using hj
    simp [cell, productUpTo, div_of_row hj]

theorem mem_row_iff {q n : Nat} (i : Nat) (h : 0 < n) :
    i * n ≤ q ∧ q < i * n + n ↔ q / n = i := by
  rw [Nat.div_eq_iff h]
  omega

theorem paste_productRow (ha : a.size = m * k) (hb : b.size = k * n) (i : Fin m) :
    paste (productUpTo ha hb i) (i * n) (productRow ha hb i) = productUpTo ha hb (i + 1) := by
  have hrow : (productRow ha hb i).size = n := Array.size_ofFn
  have hend : i * n + n ≤ m * n := Nat.succ_mul i n ▸ row_end_le i
  apply Array.ext_getElem?
  intro q
  rw [getElem?_paste (by rw [hrow, size_productUpTo]; exact hend), hrow]
  by_cases hq : q < m * n
  · have hn : 0 < n := Nat.pos_of_lt_mul_left hq
    rw [if_congr (mem_row_iff i hn) rfl rfl]
    by_cases hi : q / n = i
    · have hplace : q - i * n = q % n := by
        rw [Nat.mod_eq_sub_div_mul, hi]
      have hj : q % n < n := Nat.mod_lt q hn
      simp [hi, hplace, hj, hq, productRow, productUpTo, productBuffer]
    · have hlt : q / n < i + 1 ↔ q / n < i := by omega
      rw [if_neg hi]
      simp only [productUpTo, Array.getElem?_mapIdx, hlt]
  · have hout (j : Nat) : (productUpTo ha hb j)[q]? = none :=
      Array.getElem?_eq_none (by rw [size_productUpTo]; omega)
    rw [if_neg (by omega), hout, hout]

theorem foldlM_rows (ha : a.size = m * k) (hb : b.size = k * n) {i : Nat} (hi : i ≤ m) :
    (List.range i).foldlM (multiplyRow a b k n) (productUpTo ha hb 0) =
      (.ok (productUpTo ha hb i) : Except (Stop ε) (Array α)) := by
  induction i with
  | zero => rfl
  | succ i ih =>
      have hrow : multiplyRow a b k n (productUpTo ha hb i) i =
          (.ok (productUpTo ha hb (i + 1)) : Except (Stop ε) (Array α)) := by
        rw [multiplyRow, window_productUpTo ha hb ⟨i, hi⟩]
        change ((List.range k).foldlM (addRow a b k n i) (Array.replicate n 0) >>= _) = _
        rw [addRows_zeros ha hb ⟨i, hi⟩]
        exact congrArg Except.ok (paste_productRow ha hb ⟨i, hi⟩)
      rw [List.range_succ, List.foldlM_append, ih (Nat.le_of_succ_le hi)]
      change (List.foldlM (multiplyRow a b k n) (productUpTo ha hb i) [i] : Except _ _) = _
      rw [List.foldlM_cons, hrow]
      rfl

/-- The product of the loops is the product that each element of it defines. -/
theorem multiply_eq (ha : a.size = m * k) (hb : b.size = k * n) :
    multiply a b m k n (Array.replicate (m * n) 0) =
      (.ok (productBuffer a b ha hb) : Except (Stop ε) (Array α)) := by
  rw [multiply, ← productUpTo_zero ha hb, foldlM_rows ha hb (Nat.le_refl m), productUpTo_all]

end TensorFormula.Block
