import TensorFormula.Tensor.Address

/-!
# Tensors

A tensor is a valid shape with a row-major buffer of exactly as many elements. The constructors that
take sizes and contents from outside check them; every other operation keeps the two in step, which
its type records.
-/

namespace TensorFormula

structure Tensor (α : Type) where
  shape : Shape
  content : Array α
  valid : shape.Valid
  size_content : content.size = shape.count

namespace Tensor

variable {α : Type}

@[ext] theorem ext {t u : Tensor α} (hs : t.shape = u.shape) (hc : t.content = u.content) :
    t = u := by
  cases t; cases u; simp_all

def scalar (v : α) : Tensor α := ⟨.scalar, #[v], Shape.valid_scalar, rfl⟩

/-- A shape and its elements in row-major order; the shape is checked before the number. -/
def ofArray (s : Shape) (content : Array α) : Except TensorFault (Tensor α) :=
  if hv : s.Valid then
    if hc : content.size = s.count then .ok ⟨s, content, hv, hc⟩
    else .error (.sizeMismatch s content.size)
  else .error (.invalidShape s)

def full (s : Shape) (v : α) : Except TensorFault (Tensor α) :=
  if hv : s.Valid then .ok ⟨s, Array.replicate s.count v, hv, by simp⟩
  else .error (.invalidShape s)

def zeros [Zero α] (s : Shape) : Except TensorFault (Tensor α) := full s 0

/-- The rows one after another, as a matrix as wide as the first of them. -/
def ofRows (rows : List (List α)) : Except TensorFault (Tensor α) :=
  ofArray (.matrix rows.length (rows.head?.elim 0 List.length)) rows.flatten.toArray

variable (t : Tensor α)

def arity : Nat := t.shape.rank

def count : Nat := t.content.size

def size? (dim : Nat) : Option Nat := t.shape.dim? dim

theorem content_pos : 0 < t.content.size := t.size_content ▸ t.valid.count_pos

def first : α := getElem t.content 0 t.content_pos

/-- The element at an offset below the count. -/
def entry (k : Fin t.shape.count) : α := getElem t.content k (by have := t.size_content; omega)

def get (index : List Nat) : Except TensorFault α := (t.shape.offset index).map t.entry

def put (k : Nat) (v : α) : Tensor α :=
  { t with
    content := t.content.setIfInBounds k v
    size_content := by simpa using t.size_content }

def set (index : List Nat) (v : α) : Except TensorFault (Tensor α) :=
  (t.shape.offset index).map fun k => t.put k v

def map (f : α → α) : Tensor α :=
  { t with content := t.content.map f, size_content := by simpa using t.size_content }

/-- The same elements in another shape of the same count. -/
def reshape (s : Shape) (hv : s.Valid) (hc : t.shape.count = s.count) : Tensor α :=
  ⟨s, t.content, hv, t.size_content.trans hc⟩

def sameShape (u : Tensor α) : Bool := t.shape == u.shape

section Equality

variable [Arithmetic α]

/-- Equal counts, and no two elements in the same place further apart than `epsilon`. -/
def approxEq (u : Tensor α) (epsilon : α) : Bool :=
  t.content.size == u.content.size &&
    (t.content.zip u.content).all fun (a, b) => Arithmetic.le (Arithmetic.abs (a - b)) epsilon

end Equality

/-- Equality of contents within the tolerance of the width, whatever the shapes. -/
instance [Element α] : BEq (Tensor α) := ⟨fun t u => t.approxEq u Element.tolerance⟩

end Tensor

end TensorFormula
