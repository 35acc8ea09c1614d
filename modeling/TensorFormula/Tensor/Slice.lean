import TensorFormula.Tensor.Basic

/-!
# Slices

A pattern names some elements of a tensor. Reading copies them into the front of a buffer, writing
takes them from the front of one, in row-major order; both refuse a buffer that is too short before
anything is copied.
-/

namespace TensorFormula.Tensor

variable {α : Type} (t : Tensor α)

def requireRoom (needed actual : Nat) : Except TensorFault Unit :=
  if needed ≤ actual then .ok () else .error (.bufferTooShort needed actual)

/-- The number of matching elements, and the buffer that starts with them. -/
def readSlice (pattern : Pattern) (buffer : List α) : Except TensorFault (Nat × List α) := do
  let ps ← t.shape.positions pattern
  requireRoom ps.length buffer.length
  .ok (ps.length, ps.map t.entry ++ buffer.drop ps.length)

/-- Puts values at offsets, one after the other. -/
def putAll (ps : List Nat) (source : List α) : Tensor α :=
  (ps.zip source).foldl (fun u (k, v) => u.put k v) t

def writeSlice (pattern : Pattern) (source : List α) : Except TensorFault (Nat × Tensor α) := do
  let ps ← t.shape.positions pattern
  requireRoom ps.length source.length
  .ok (ps.length, t.putAll (ps.map Fin.val) source)

def fill (pattern : Pattern) (v : α) : Except TensorFault (Nat × Tensor α) := do
  let ps ← t.shape.positions pattern
  .ok (ps.length, t.putAll (ps.map Fin.val) (List.replicate ps.length v))

end TensorFormula.Tensor
