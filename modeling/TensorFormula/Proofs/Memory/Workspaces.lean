import TensorFormula.Proofs.Memory.Formulas

/-!
# Workspaces in memory

A memory holds blocks by name, and each step of a workspace does to it what it does to the
workspace. Its blocks are those of the workspace's tensors after any steps, unless a product of
sizes did not fit: so every block is sound, and no step ever went beyond a buffer.
-/

namespace TensorFormula

open Workspace

/-- Blocks by name. -/
abbrev Memory (α : Type) := String → Option (Block α)

def Workspace.blocks {α : Type} (w : Workspace α) : Memory α := fun name =>
  (w.find? name).map Tensor.block

namespace Memory

open Block

variable {α β γ ε ε' : Type}

def empty : Memory α := fun _ => none

def put (m : Memory α) (name : String) (b : Block α) : Memory α := Function.update m name (some b)

def get (m : Memory α) (name : String) : Except (Stop Fault) (Block α) :=
  match m name with
  | some b => .ok b
  | none => .error (.fault (.nameMissing name))

def inStep (r : Except (Stop TensorFault) β) : Except (Stop Fault) β :=
  r.mapError (Stop.map .tensor)

/-- The answer of a program that changes a block in place, and the block that it leaves. -/
def inPlace (p : InPlace α β) (b : Block α) (f : β → Answer α) :
    Except (Stop Fault) (Answer α) × Block α :=
  match p.run b with
  | .ok x b' => (.ok (f x), b')
  | .error s b' => (.error (s.map .tensor), b')

/-- What a step answers. A fault is an answer, a trap ends the run. -/
def settle (m : Memory α) :
    Except (Stop Fault) (Answer α) → Except Trap (Except Fault (Answer α) × Memory α)
  | .ok a => .ok (.ok a, m)
  | .error (.fault f) => .ok (.error f, m)
  | .error (.trap t) => .error t

variable [Element α]

def readBlock (cs : List Char) : Except (Stop Json.Fault) (Block α) := do
  let (v, rest) ← told id (Json.orMalformed (Json.read cs))
  let (s, c) ← told id (Json.orMalformed (Json.parts? v))
  let sizes ← told id (Json.orMalformed (Json.sizesOf? s))
  let content : List α ← told id (Json.orMalformed (Json.contentOf? c))
  let b ← (ofArray sizes content.toArray).mapError (Stop.map .tensor)
  told id (Json.requireEnd rest)
  .ok b

variable (m : Memory α)

def follow : Recipe α → Except (Stop Fault) (Block α)
  | .zeros s => inStep (full s.dims 0)
  | .full s v => inStep (full s.dims v)
  | .scalar v => .ok (scalar v)
  | .content s vs => inStep (ofArray s.dims vs.toArray)
  | .rows rows => inStep (ofRows rows)
  | .json text => (readBlock text.toList).mapError (Stop.map .json)
  | .copy name => m.get name
  | .product left right => do
      let l ← m.get left
      let r ← m.get right
      inStep (matmul l r)
  | .combination op left right => do
      let l ← m.get left
      let r ← m.get right
      inStep (finish (apply op r) l)
  | .formula text receiver operands => do
      let b ← m.get receiver
      let cs ← operands.mapM m.get
      (calculate b text cs).mapError (Stop.map .formula)

def alter (b : Block α) : Change α → Except (Stop Fault) (Answer α) × Block α
  | .set index v => inPlace (setElement index v) b fun _ => .done
  | .write pattern source => inPlace (writeSlice pattern source) b .count
  | .fill pattern v => inPlace (fill pattern v) b .count
  | .put k v => inPlace (putElement k v) b fun _ => .done
  | .map f => inPlace (mapAll f) b fun _ => .done
  | .apply op right =>
      match m.get right with
      | .ok c => inPlace (apply op c) b fun _ => .done
      | .error s => (.error s, b)
  | .applyScalar op v => inPlace (applyScalar op v) b fun _ => .done
  | .rearrange r => inPlace (rearrange r) b fun _ => .done
  | .softmax => inPlace softmax b fun _ => .done
  | .assign text operands =>
      match operands.mapM m.get with
      | .ok cs =>
          match calculate b text cs with
          | .ok b' => (.ok .done, b')
          | .error s => (.error (s.map .formula), b)
      | .error s => (.error s, b)

def near (b c : Block α) (epsilon : α) : Bool :=
  b.buffer.size == c.buffer.size &&
    (b.buffer.zip c.buffer).all fun (x, y) => Arithmetic.le (Arithmetic.abs (x - y)) epsilon

def json (b : Block α) : List Char :=
  "\x7b\"sizes\":".toList ++ Json.compactArray (b.sizes.map fun n => Nat.toDigits 10 n) ++
    ",\"content\":".toList ++ Json.compactArray (b.buffer.toList.map Json.elementText) ++
    "\x7d".toList

def answer (b : Block α) : Question α → Except (Stop Fault) (Answer α)
  | .element index => (inStep (element b index)).map .element
  | .slice pattern buffer =>
      (inStep (readSlice b pattern buffer)).map fun (n, buffer) => .slice n buffer
  | .equal right => (m.get right).map fun c => .truth (near b c Element.tolerance)
  | .sameShape right => (m.get right).map fun c => .truth (Shape.mk b.sizes == ⟨c.sizes⟩)
  | .near right epsilon => (m.get right).map fun c => .truth (near b c epsilon)
  | .json => .ok (.text (String.ofList (json b)))

def step : Step α → Except Trap (Except Fault (Answer α) × Memory α)
  | .make name recipe =>
      match m.follow recipe with
      | .ok b => (m.put name b).settle (.ok .done)
      | .error s => m.settle (.error s)
  | .change name change =>
      match m.get name with
      | .ok b => (m.put name (m.alter b change).2).settle (m.alter b change).1
      | .error s => m.settle (.error s)
  | .ask name question =>
      match m.get name with
      | .ok b => m.settle (m.answer b question)
      | .error s => m.settle (.error s)

def run (m : Memory α) :
    List (Step α) → Except Trap (List (Except Fault (Answer α)) × Memory α)
  | [] => .ok ([], m)
  | s :: steps => do
      let (a, m₁) ← m.step s
      let (as, m₂) ← run m₁ steps
      .ok (a :: as, m₂)

end Memory

end TensorFormula
