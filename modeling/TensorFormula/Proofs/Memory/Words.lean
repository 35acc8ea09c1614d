import TensorFormula.Proofs.Memory.Access

/-!
# Addresses in words of 64 bits

The strides of some sizes are multiplied up from the last size on, and an offset is summed up along
the strides from the first coordinate on. Neither has an intermediate value of more than 64 bits
where the elements can be counted in 64 bits, whichever coordinates are looked up, so it does not
matter what becomes of a value that does not fit.
-/

namespace TensorFormula.Block

variable {ε : Type}

/-- What happens when a sum or a product has more than 64 bits: the program stops, or the low bits
are all that is kept. -/
inductive Overflow
  | stops
  | wraps
deriving DecidableEq, Repr

/-- The word that holds a sum or a product. -/
def Overflow.word : Overflow → Nat → Except (Stop ε) Nat
  | stops, n => if n < Nat.pow 2 64 then .ok n else .error (.trap .oversize)
  | wraps, n => .ok (n % Nat.pow 2 64)

/-- Each stride is the next one times the next size. -/
def wordStrides (v : Overflow) : List Nat → Except (Stop ε) (List Nat)
  | [] => .ok []
  | [_] => .ok [1]
  | _ :: d :: ds => do
      let strides ← wordStrides v (d :: ds)
      let stride ← v.word (strides.headD 1 * d)
      .ok (stride :: strides)

/-- Adds the way along each dimension, given by coordinate, size and stride. -/
def wordWalk (v : Overflow) (dim offset : Nat) :
    List (Nat × Nat × Nat) → Except (Stop TensorFault) Nat
  | [] => .ok offset
  | (i, d, stride) :: rest =>
      if i < d then do
        let way ← v.word (i * stride)
        let next ← v.word (offset + way)
        wordWalk v (dim + 1) next rest
      else .error (.fault (.indexOutOfRange dim i d))

def wordOffset (v : Overflow) (sizes index : List Nat) : Except (Stop TensorFault) Nat :=
  if index.length = sizes.length then do
    let strides ← wordStrides v sizes
    wordWalk v 0 0 (index.zip (sizes.zip strides))
  else .error (.fault (.indexArity sizes.length index.length))

theorem word_of_lt (v : Overflow) {n : Nat} (h : n < Nat.pow 2 64) :
    v.word n = (.ok n : Except (Stop ε) Nat) := by
  cases v with
  | stops => exact if_pos h
  | wraps => exact congrArg Except.ok (Nat.mod_eq_of_lt h)

/-- Every stride counts elements that are there. -/
theorem wordStrides_eq (v : Overflow) {ds : List Nat} (hpos : 0 ∉ ds)
    (h : Shape.volume ds < Nat.pow 2 64) :
    wordStrides v ds = (.ok (Shape.stridesOf ds) : Except (Stop ε) (List Nat)) := by
  match ds with
  | [] => rfl
  | [_] => rfl
  | e :: d :: ds =>
      rw [List.mem_cons, not_or] at hpos
      have hle : Shape.volume (d :: ds) ≤ e * Shape.volume (d :: ds) :=
        Nat.le_mul_of_pos_left _ (Nat.pos_of_ne_zero (Ne.symm hpos.1))
      have hrest : Shape.volume (d :: ds) < Nat.pow 2 64 := Nat.lt_of_le_of_lt hle h
      have hstride : Shape.volume ds * d < Nat.pow 2 64 := by
        rwa [Nat.mul_comm]
      rw [wordStrides, wordStrides_eq v hpos.2 hrest]
      change (v.word (Shape.volume ds * d) >>= _) = _
      rw [word_of_lt v hstride, Nat.mul_comm]
      rfl

/-- The offset so far leaves room for all the elements of the dimensions that are still to come. -/
theorem wordWalk_eq (v : Overflow) (dim : Nat) {o : Nat} {ds : List Nat} (index : List Nat)
    (hpos : 0 ∉ ds) (h : o + Shape.volume ds ≤ Nat.pow 2 64) :
    wordWalk v dim o (index.zip (ds.zip (Shape.stridesOf ds))) =
      walk dim o (index.zip (ds.zip (Shape.stridesOf ds))) := by
  induction ds generalizing dim o index with
  | nil =>
      rw [List.zip_nil_left, List.zip_nil_right]
      rfl
  | cons d ds ih =>
      cases index with
      | nil => rfl
      | cons i is =>
          rw [List.mem_cons, not_or] at hpos
          rw [Shape.stridesOf, List.zip_cons_cons, List.zip_cons_cons, wordWalk, walk]
          by_cases hi : i < d
          · have hblock : (i + 1) * Shape.volume ds ≤ d * Shape.volume ds :=
              Nat.mul_le_mul_right _ hi
            have hvolume := Shape.volume_pos hpos.2
            rw [Nat.succ_mul] at hblock
            rw [Shape.volume_cons] at h
            rw [if_pos hi, if_pos hi, word_of_lt v (by omega)]
            change (v.word (o + i * Shape.volume ds) >>= _) = _
            rw [word_of_lt v (by omega)]
            exact ih (dim + 1) is hpos.2 (by omega)
          · rw [if_neg hi, if_neg hi]

/-- The sums and products of an offset all fit, also those before a coordinate that is refused. -/
theorem wordOffset_eq (v : Overflow) {s : Shape} (hs : s.Valid) (h : s.count < Nat.pow 2 64)
    (index : List Nat) : wordOffset v s.dims index = offset s.dims index := by
  have hroom : 0 + Shape.volume s.dims ≤ Nat.pow 2 64 := by
    rw [Nat.zero_add]
    exact Nat.le_of_lt h
  rw [wordOffset, offset]
  by_cases hl : index.length = s.dims.length
  · rw [if_pos hl, if_pos hl, wordStrides_eq v hs.2 h]
    exact wordWalk_eq v 0 index hs.2 hroom
  · rw [if_neg hl, if_neg hl]

end TensorFormula.Block
