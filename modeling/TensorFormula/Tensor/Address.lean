import TensorFormula.Tensor.Fault

/-!
# Addresses in the flat buffer

`Shape.offset` turns a full coordinate vector into the number of its element, and
`Shape.positions` lists the elements that match a pattern, in row-major order. Both check the number
of coordinates first and then the coordinates from the first dimension on; what they return is in
range by its type.
-/

namespace TensorFormula

/-- One entry for each dimension: a coordinate, or `none` for all of them. -/
abbrev Pattern := List (Option Nat)

namespace Shape

/-- The element numbered `k` of the `i`-th of `m` blocks of `n` elements. -/
def inBlock {m n : Nat} (i : Fin m) (k : Fin n) : Fin (m * n) :=
  ⟨i * n + k, by
    have h : (i + 1) * n ≤ m * n := Nat.mul_le_mul_right n i.isLt
    rw [Nat.succ_mul] at h
    omega⟩

@[simp] theorem val_inBlock {m n : Nat} (i : Fin m) (k : Fin n) :
    (inBlock i k : Nat) = i * n + k := rfl

variable (s : Shape)

def checkArity (actual : Nat) : Except TensorFault Unit :=
  if actual = s.rank then .ok () else .error (.indexArity s.rank actual)

/-- Offset of a coordinate vector, the first size belonging to dimension `dim`. -/
def offsetFrom (dim : Nat) :
    (dims : List Nat) → List Nat → Except TensorFault (Fin (Shape.volume dims))
  | [], _ => .ok ⟨0, Nat.one_pos⟩
  | d :: ds, index =>
      let i := index.headD 0
      if h : i < d then
        (offsetFrom (dim + 1) ds index.tail).map fun k =>
          inBlock ⟨i, h⟩ k
      else .error (.indexOutOfRange dim i d)

def offset (index : List Nat) : Except TensorFault (Fin s.count) := do
  s.checkArity index.length
  offsetFrom 0 s.dims index

/-- The first concrete coordinate that is too large is an error. -/
def checkPattern (dim : Nat) : List Nat → Pattern → Except TensorFault Unit
  | d :: ds, p :: ps =>
      match p with
      | some i =>
          if i < d then checkPattern (dim + 1) ds ps else .error (.indexOutOfRange dim i d)
      | none => checkPattern (dim + 1) ds ps
  | _, _ => .ok ()

/-- The coordinates below `d` that a pattern entry admits. -/
def choices (d : Nat) : Option Nat → List (Fin d)
  | some i => if h : i < d then [⟨i, h⟩] else []
  | none => List.finRange d

/-- Elements that match a pattern, by increasing offset. -/
def positionsFrom : (dims : List Nat) → Pattern → List (Fin (Shape.volume dims))
  | [], _ => [⟨0, Nat.one_pos⟩]
  | d :: ds, ps =>
      (choices d ps.head?.join).flatMap fun i =>
        (positionsFrom ds ps.tail).map (inBlock i)

def positions (pattern : Pattern) : Except TensorFault (List (Fin s.count)) := do
  s.checkArity pattern.length
  checkPattern 0 s.dims pattern
  .ok (positionsFrom s.dims pattern)

end Shape

end TensorFormula
