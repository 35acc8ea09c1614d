import TensorFormula.Engine.Basic
import TensorFormula.Json.Tensor
import TensorFormula.Tensor.Slice

/-!
# Workspaces

A workspace holds tensors by name. A step makes a tensor, changes one or asks about one; other
tensors are named, and are read before anything is changed. A step that fails changes nothing.
-/

namespace TensorFormula

/-- Tensors by name, the last one made first. -/
structure Workspace (α : Type) where
  entries : List (String × Tensor α)

namespace Workspace

inductive Fault
  | nameMissing (name : String)
  | tensor (fault : TensorFault)
  | formula (fault : FormulaFault)
  | json (fault : Json.Fault)

/-- How a tensor is made. -/
inductive Recipe (α : Type)
  | zeros (shape : Shape)
  | full (shape : Shape) (value : α)
  | scalar (value : α)
  | content (shape : Shape) (values : List α)
  | rows (rows : List (List α))
  | json (text : String)
  | copy (name : String)
  | product (left right : String)
  | combination (op : Operator) (left right : String)
  | formula (text : String) (receiver : String) (operands : List String)

/-- How a tensor is changed. -/
inductive Change (α : Type)
  | set (index : List Nat) (value : α)
  | write (pattern : Pattern) (source : List α)
  | fill (pattern : Pattern) (value : α)
  | put (offset : Nat) (value : α)
  | map (f : α → α)
  | apply (op : Operator) (right : String)
  | applyScalar (op : Operator) (value : α)
  | rearrange (r : Rearrangement)
  | softmax
  | assign (text : String) (operands : List String)

inductive Question (α : Type)
  | element (index : List Nat)
  | slice (pattern : Pattern) (buffer : List α)
  | equal (right : String)
  | sameShape (right : String)
  | near (right : String) (epsilon : α)
  | json

inductive Step (α : Type)
  | make (name : String) (recipe : Recipe α)
  | change (name : String) (change : Change α)
  | ask (name : String) (question : Question α)

inductive Answer (α : Type)
  | done
  | count (n : Nat)
  | element (x : α)
  | slice (n : Nat) (buffer : List α)
  | truth (b : Bool)
  | text (s : String)

variable {α : Type}

def empty : Workspace α := ⟨[]⟩

def find? (w : Workspace α) (name : String) : Option (Tensor α) := w.entries.lookup name

def put (w : Workspace α) (name : String) (t : Tensor α) : Workspace α := ⟨(name, t) :: w.entries⟩

@[simp] theorem find?_put_self (w : Workspace α) (name : String) (t : Tensor α) :
    (w.put name t).find? name = some t := by simp [find?, put]

theorem find?_put_of_ne (w : Workspace α) {name other : String} (t : Tensor α) (h : other ≠ name) :
    (w.put name t).find? other = w.find? other := by
  simp [find?, put, List.lookup_cons, beq_eq_false_iff_ne.2 h]

def get (w : Workspace α) (name : String) : Except Fault (Tensor α) :=
  match w.find? name with
  | some t => .ok t
  | none => .error (.nameMissing name)

def ofTensor {β : Type} (r : Except TensorFault β) : Except Fault β := r.mapError .tensor

variable [Element α] (w : Workspace α)

def follow : Recipe α → Except Fault (Tensor α)
  | .zeros s => ofTensor (Tensor.zeros s)
  | .full s v => ofTensor (Tensor.full s v)
  | .scalar v => .ok (.scalar v)
  | .content s vs => ofTensor (Tensor.ofArray s vs.toArray)
  | .rows rows => ofTensor (Tensor.ofRows rows)
  | .json text => (Json.readTensor text.toList).mapError .json
  | .copy name => w.get name
  | .product left right => do
      let l ← w.get left
      let r ← w.get right
      ofTensor (l.matmul r)
  | .combination op left right => do
      let l ← w.get left
      let r ← w.get right
      ofTensor (l.combine r op)
  | .formula text receiver operands => do
      let t ← w.get receiver
      let us ← operands.mapM w.get
      (t.calculate text us).mapError .formula

/-- The changed tensor, with the number of elements that a slice has. -/
def alter (t : Tensor α) : Change α → Except Fault (Answer α × Tensor α)
  | .set index v => (ofTensor (t.set index v)).map fun u => (.done, u)
  | .write pattern source =>
      (ofTensor (t.writeSlice pattern source)).map fun (n, u) => (.count n, u)
  | .fill pattern v => (ofTensor (t.fill pattern v)).map fun (n, u) => (.count n, u)
  | .put k v => .ok (.done, t.put k v)
  | .map f => .ok (.done, t.map f)
  | .apply op right => do
      let r ← w.get right
      (ofTensor (t.combine r op)).map fun u => (.done, u)
  | .applyScalar op v => .ok (.done, t.applyScalar op v)
  | .rearrange r => (ofTensor (t.rearrange r)).map fun u => (.done, u)
  | .softmax => .ok (.done, t.softmax)
  | .assign text operands => do
      let us ← operands.mapM w.get
      ((t.calculate text us).mapError Fault.formula).map fun u => (.done, u)

def answer (t : Tensor α) : Question α → Except Fault (Answer α)
  | .element index => (ofTensor (t.get index)).map .element
  | .slice pattern buffer =>
      (ofTensor (t.readSlice pattern buffer)).map fun (n, buffer) => .slice n buffer
  | .equal right => (w.get right).map fun u => .truth (t == u)
  | .sameShape right => (w.get right).map fun u => .truth (t.sameShape u)
  | .near right epsilon => (w.get right).map fun u => .truth (t.approxEq u epsilon)
  | .json => .ok (.text (String.ofList (Json.compact t)))

/-- The answer to a step and the workspace after it, if it succeeds. -/
def attempt : Step α → Except Fault (Answer α × Workspace α)
  | .make name recipe => (w.follow recipe).map fun t => (.done, w.put name t)
  | .change name change => do
      let t ← w.get name
      (w.alter t change).map fun (a, u) => (a, w.put name u)
  | .ask name question => do
      let t ← w.get name
      (w.answer t question).map fun a => (a, w)

def step (s : Step α) : Except Fault (Answer α) × Workspace α :=
  match w.attempt s with
  | .ok (a, w') => (.ok a, w')
  | .error f => (.error f, w)

/-- The answers to steps, one after the other, and the workspace after them. -/
def run (w : Workspace α) : List (Step α) → List (Except Fault (Answer α)) × Workspace α
  | [] => ([], w)
  | s :: steps =>
      let (a, w₁) := w.step s
      let (as, w₂) := run w₁ steps
      (a :: as, w₂)

end Workspace

end TensorFormula
