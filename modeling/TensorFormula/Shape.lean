/-!
# Shapes

The sizes of a tensor, dimension by dimension. Elements are numbered in row-major order: the last
index varies fastest, and `strides` holds the distance between neighbours along each dimension.
-/

namespace TensorFormula

structure Shape where
  dims : List Nat
deriving DecidableEq, Repr

namespace Shape

def scalar : Shape := ⟨[1]⟩

def vector (n : Nat) : Shape := ⟨[n]⟩

def matrix (rows cols : Nat) : Shape := ⟨[rows, cols]⟩

variable (s : Shape)

def rank : Nat := s.dims.length

/-- The product of sizes. -/
def volume : List Nat → Nat
  | [] => 1
  | d :: ds => d * volume ds

/-- The number of elements, by which a shape without dimensions has one. -/
def count : Nat := volume s.dims

def dim? (i : Nat) : Option Nat := s.dims[i]?

/-- A tensor has at least one dimension and no empty one. -/
def Valid : Prop := s.dims ≠ [] ∧ 0 ∉ s.dims

instance : Decidable s.Valid := inferInstanceAs (Decidable (_ ∧ _))

def stridesOf : List Nat → List Nat
  | [] => []
  | _ :: ds => volume ds :: stridesOf ds

def strides : List Nat := stridesOf s.dims

/-- Whether `s` is `[m, k]` and `t` is `[k, n]` for some sizes. -/
def multipliesWith (t : Shape) : Bool :=
  match s.dims, t.dims with
  | [_, k], [k', _] => k == k'
  | _, _ => false

def text : String := "[" ++ ", ".intercalate (s.dims.map toString) ++ "]"

/-- The sizes as a JSON array. -/
def json : String := "[" ++ ",".intercalate (s.dims.map toString) ++ "]"

@[simp] theorem volume_nil : volume [] = 1 := rfl

@[simp] theorem volume_cons (d : Nat) (ds : List Nat) : volume (d :: ds) = d * volume ds := rfl

theorem volume_pos {ds : List Nat} (h : 0 ∉ ds) : 0 < volume ds := by
  induction ds with
  | nil => exact Nat.one_pos
  | cons d ds ih =>
      simp only [List.mem_cons, not_or] at h
      exact Nat.mul_pos (Nat.pos_of_ne_zero (Ne.symm h.1)) (ih h.2)

theorem Valid.count_pos {s : Shape} (h : s.Valid) : 0 < s.count := volume_pos h.2

@[simp] theorem count_scalar : scalar.count = 1 := rfl

@[simp] theorem count_vector (n : Nat) : (vector n).count = n := by simp [vector, count]

@[simp] theorem count_matrix (r c : Nat) : (matrix r c).count = r * c := by simp [matrix, count]

theorem valid_scalar : scalar.Valid := by decide

theorem valid_matrix_iff {r c : Nat} : (matrix r c).Valid ↔ 0 < r ∧ 0 < c := by
  simp only [Valid, matrix, ne_eq, List.cons_ne_nil, not_false_eq_true, List.mem_cons,
    List.not_mem_nil, or_false, true_and]
  omega

theorem valid_vector_iff {n : Nat} : (vector n).Valid ↔ 0 < n := by
  simp only [Valid, vector, ne_eq, List.cons_ne_nil, not_false_eq_true, List.mem_cons,
    List.not_mem_nil, or_false, true_and]
  omega

end Shape

end TensorFormula
