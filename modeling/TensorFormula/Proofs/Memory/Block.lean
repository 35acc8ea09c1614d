import TensorFormula.Workspace

/-!
# Tensors in memory

A block is a list of sizes and a buffer, and nothing relates the two. The programs below do to a
block what the operations do to a tensor, in the steps of an implementation: offsets are summed up
from strides, loops read and write one element or one row at a time, and an operation on a receiver
works in its place. An access beyond a buffer stops a program at once, whoever is responsible.
-/

namespace TensorFormula

structure Block (α : Type) where
  sizes : List Nat
  buffer : Array α

/-- What no caller is told about: an access beyond the end of a list or a buffer, and a product of
sizes of more than 64 bits. -/
inductive Trap
  | stray
  | oversize
deriving DecidableEq, Repr

inductive Stop (ε : Type)
  | fault (f : ε)
  | trap (t : Trap)

def Stop.map {ε ε' : Type} (g : ε → ε') : Stop ε → Stop ε'
  | fault f => .fault (g f)
  | trap t => .trap t

/-- A program that changes a block in place. When it stops, the block is as it was left. -/
abbrev InPlace (α β : Type) := EStateM (Stop TensorFault) (Block α) β

namespace Block

variable {α β ε : Type}

/-- The sizes are those of a tensor, and the buffer has as many elements as they say. -/
structure Sound (b : Block α) : Prop where
  ranked : b.sizes ≠ []
  positive : 0 ∉ b.sizes
  filled : b.buffer.size = Shape.volume b.sizes

/-! ## Memory -/

def sizeAt (sizes : List Nat) (dim : Nat) : Except (Stop ε) Nat :=
  match sizes[dim]? with
  | some d => .ok d
  | none => .error (.trap .stray)

def load (buffer : Array α) (k : Nat) : Except (Stop ε) α :=
  match buffer[k]? with
  | some x => .ok x
  | none => .error (.trap .stray)

/-- The elements from `low` up to `high`. -/
def window (buffer : Array α) (low high : Nat) : Except (Stop ε) (Array α) :=
  if low ≤ high ∧ high ≤ buffer.size then .ok (buffer.extract low high)
  else .error (.trap .stray)

/-- The buffer with a window put back at `low`. -/
def paste (buffer : Array α) (low : Nat) (part : Array α) : Array α :=
  buffer.extract 0 low ++ part ++ buffer.extract (low + part.size) buffer.size

/-- Combines elements with those in the same place, as far as both buffers go. -/
def overlay (f : α → α → α) (a b : Array α) : Array α :=
  a.mapIdx fun i x => (b[i]?).elim x (f x)

def productFrom (n : Nat) : List Nat → Except (Stop ε) Nat
  | [] => .ok n
  | d :: ds => if n * d < Nat.pow 2 64 then productFrom (n * d) ds else .error (.trap .oversize)

/-- The product of sizes, which has to fit in a word each time it is multiplied up. -/
def product (sizes : List Nat) : Except (Stop ε) Nat := productFrom 1 sizes

/-! ## Making blocks -/

def ofArray (sizes : List Nat) (content : Array α) : Except (Stop TensorFault) (Block α) :=
  if (Shape.mk sizes).Valid then do
    let n ← product sizes
    if content.size = n then .ok ⟨sizes, content⟩
    else .error (.fault (.sizeMismatch ⟨sizes⟩ content.size))
  else .error (.fault (.invalidShape ⟨sizes⟩))

def full (sizes : List Nat) (v : α) : Except (Stop TensorFault) (Block α) :=
  if (Shape.mk sizes).Valid then do
    let n ← product sizes
    .ok ⟨sizes, Array.replicate n v⟩
  else .error (.fault (.invalidShape ⟨sizes⟩))

def scalar (v : α) : Block α := ⟨[1], #[v]⟩

def ofRows (rows : List (List α)) : Except (Stop TensorFault) (Block α) := do
  let width := rows.head?.elim 0 List.length
  let _room ← product [rows.length, width]
  ofArray [rows.length, width] rows.flatten.toArray

/-! ## Addressing -/

/-- Adds the way along each dimension, given by coordinate, size and stride. -/
def walk (dim offset : Nat) : List (Nat × Nat × Nat) → Except (Stop TensorFault) Nat
  | [] => .ok offset
  | (i, d, stride) :: rest =>
      if i < d then walk (dim + 1) (offset + i * stride) rest
      else .error (.fault (.indexOutOfRange dim i d))

def offset (sizes index : List Nat) : Except (Stop TensorFault) Nat :=
  if index.length = sizes.length then
    walk 0 0 (index.zip (sizes.zip (Shape.stridesOf sizes)))
  else .error (.fault (.indexArity sizes.length index.length))

/-- The offsets that are reached from `bases` along each dimension, given by what the pattern has
there, size and stride. -/
def reach (bases : List Nat) : List (Option Nat × Nat × Nat) → List Nat
  | [] => bases
  | (p, d, stride) :: rest =>
      let along := p.elim (List.range d) fun i => [i]
      reach (bases.flatMap fun base => along.map fun i => base + i * stride) rest

def offsets (sizes : List Nat) (pattern : Pattern) : Except (Stop TensorFault) (List Nat) :=
  if pattern.length = sizes.length then
    match Shape.checkPattern 0 sizes pattern with
    | .ok () => .ok (reach [0] (pattern.zip (sizes.zip (Shape.stridesOf sizes))))
    | .error f => .error (.fault f)
  else .error (.fault (.indexArity sizes.length pattern.length))

/-! ## Reading -/

def element (b : Block α) (index : List Nat) : Except (Stop TensorFault) α := do
  let k ← offset b.sizes index
  load b.buffer k

def readSlice (b : Block α) (pattern : Pattern) (target : List α) :
    Except (Stop TensorFault) (Nat × List α) := do
  let ks ← offsets b.sizes pattern
  if ks.length ≤ target.length then do
    let xs ← ks.mapM (load b.buffer)
    .ok (ks.length, xs ++ target.drop ks.length)
  else .error (.fault (.bufferTooShort ks.length target.length))

/-! ## Writing -/

def attempt (r : Except (Stop TensorFault) β) : InPlace α β := fun b =>
  match r with
  | .ok x => .ok x b
  | .error s => .error s b

def store (k : Nat) (v : α) : InPlace α Unit := fun b =>
  if k < b.buffer.size then .ok () { b with buffer := b.buffer.setIfInBounds k v }
  else .error (.trap .stray) b

def storeAll (ks : List Nat) (vs : List α) : InPlace α Unit :=
  forM (ks.zip vs) fun p => store p.1 p.2

/-- Another buffer for the same sizes. -/
def rewrite (f : Array α → Array α) : InPlace α Unit := modify fun b =>
  { b with buffer := f b.buffer }

/-- Other sizes for the same buffer. -/
def reinterpret (sizes : List Nat) : InPlace α Unit := modify fun b => { b with sizes := sizes }

def setElement (index : List Nat) (v : α) : InPlace α Unit := do
  let b ← get
  let k ← attempt (offset b.sizes index)
  store k v

def writeSlice (pattern : Pattern) (source : List α) : InPlace α Nat := do
  let b ← get
  let ks ← attempt (offsets b.sizes pattern)
  if ks.length ≤ source.length then do
    storeAll ks source
    return ks.length
  else throw (.fault (.bufferTooShort ks.length source.length))

def fill (pattern : Pattern) (v : α) : InPlace α Nat := do
  let b ← get
  let ks ← attempt (offsets b.sizes pattern)
  forM ks fun k => store k v
  return ks.length

def mapAll (f : α → α) : InPlace α Unit := rewrite (Array.map f)

/-- A caller's own write into the buffer, which the caller keeps inside of it. -/
def putElement (k : Nat) (v : α) : InPlace α Unit := rewrite fun a => a.setIfInBounds k v

/-! ## Loops over matrices -/

/-- The element in row `i` and column `j` of each of `cols` columns, column by column. -/
def columns (buffer : Array α) (rows cols : Nat) : Except (Stop ε) (Array α) :=
  (List.range cols).foldlM
    (fun out j => (List.range rows).foldlM
      (fun out i => (load buffer (i * cols + j)).map out.push) out) #[]

variable [Arithmetic α]

/-- Adds the `p`-th row of `b`, times the `p`-th element of row `i` of `a`, to a row. -/
def addRow (a b : Array α) (k n i : Nat) (row : Array α) (p : Nat) : Except (Stop ε) (Array α) := do
  let x ← load a (i * k + p)
  let other ← window b (p * n) ((p + 1) * n)
  .ok (overlay (fun y z => y + x * z) row other)

/-- Fills row `i` of the product in a buffer `c` whose rows from `i` on are still zero. -/
def multiplyRow (a b : Array α) (k n : Nat) (c : Array α) (i : Nat) :
    Except (Stop ε) (Array α) := do
  let row ← window c (i * n) ((i + 1) * n)
  let sums ← (List.range k).foldlM (addRow a b k n i) row
  .ok (paste c (i * n) sums)

/-- Multiplies an `[m, k]` and a `[k, n]` buffer, row by row, into a buffer of zeros. -/
def multiply (a b : Array α) (m k n : Nat) (zeros : Array α) : Except (Stop ε) (Array α) :=
  (List.range m).foldlM (multiplyRow a b k n) zeros

def matmul (l r : Block α) : Except (Stop TensorFault) (Block α) :=
  if (Shape.mk l.sizes).multipliesWith ⟨r.sizes⟩ then do
    let m ← sizeAt l.sizes 0
    let k ← sizeAt l.sizes 1
    let n ← sizeAt r.sizes 1
    let room ← product [m, n]
    let c ← multiply l.buffer r.buffer m k n (Array.replicate room 0)
    ofArray [m, n] c
  else .error (.fault (.incompatible .matmul ⟨l.sizes⟩ ⟨r.sizes⟩))

/-! ## Arithmetic and rearrangement in place -/

def apply (op : Operator) (r : Block α) : InPlace α Unit := do
  let l ← get
  if op = .matmul ∧ (Shape.mk l.sizes).multipliesWith ⟨r.sizes⟩ then do
    let p ← attempt (matmul l r)
    set p
  else if op ≠ .matmul ∧ l.buffer.size = r.buffer.size then
    rewrite fun a => overlay op.eval a r.buffer
  else if r.buffer.size = 1 then do
    let y ← attempt (load r.buffer 0)
    mapAll fun x => op.eval x y
  else if l.buffer.size = 1 then do
    let x ← attempt (load l.buffer 0)
    set (Block.mk r.sizes (r.buffer.map fun y => op.eval x y))
  else throw (.fault (.incompatible op ⟨l.sizes⟩ ⟨r.sizes⟩))

def applyScalar (op : Operator) (v : α) : InPlace α Unit := mapAll fun x => op.eval x v

def transpose : InPlace α Unit := do
  let b ← get
  if b.sizes.length = 2 then do
    let rows ← attempt (sizeAt b.sizes 0)
    let cols ← attempt (sizeAt b.sizes 1)
    let out ← attempt (columns b.buffer rows cols)
    set (Block.mk [cols, rows] out)
  else throw (.fault (.notMatrix .transpose ⟨b.sizes⟩))

def rearrange : Rearrangement → InPlace α Unit
  | .transpose => transpose
  | .rowMatrix => do
      let b ← get
      match b.sizes with
      | [n] => reinterpret [1, n]
      | sizes => throw (.fault (.unsupported .rowMatrix ⟨sizes⟩))
  | .columnMatrix => do
      let b ← get
      match b.sizes with
      | [n] => reinterpret [n, 1]
      | sizes => throw (.fault (.unsupported .columnMatrix ⟨sizes⟩))
  | .vector => do
      let b ← get
      if Tensor.isLinear ⟨b.sizes⟩ then reinterpret [b.buffer.size]
      else throw (.fault (.unsupported .vector ⟨b.sizes⟩))

def softmax : InPlace α Unit := do
  let b ← get
  let x ← attempt (load b.buffer 0)
  let peak := b.buffer.foldl Arithmetic.larger x
  mapAll fun x => Arithmetic.exp (x - peak)
  let b ← get
  let sum := b.buffer.foldl (· + ·) 0
  if Arithmetic.lt 0 sum then mapAll (· * Arithmetic.recip sum)

end Block

end TensorFormula
