import TensorFormula.Number.Binary

/-!
# Element types

`Arithmetic` lists the operations that tensor algebra needs of its elements and asks for no laws.
`Element` adds what a floating-point width decides: its bit patterns, the conversion of literals and
the tolerance of equality. The two widths are instances.
-/

namespace TensorFormula

open Binary

class Arithmetic (α : Type) extends Zero α, One α, Add α, Sub α, Mul α, Div α, Neg α where
  le : α → α → Bool
  lt : α → α → Bool
  abs : α → α
  sqrt : α → α
  exp : α → α
  tanh : α → α
  infinity : α

namespace Arithmetic

variable {α : Type} [Arithmetic α]

def recip (x : α) : α := 1 / x

/-- The larger of two elements, the second where they are equal. One that does not compare with
itself gives way. -/
def larger (x y : α) : α :=
  if le x x then (if le x y then y else x) else y

/-- The smaller of two elements, the second where they are equal. One that does not compare with
itself gives way. -/
def smaller (x y : α) : α :=
  if le x x then (if le y x then y else x) else y

end Arithmetic

inductive Width
  | single
  | double
deriving DecidableEq, Repr

namespace Width

def label : Width → String
  | single => "f32"
  | double => "f64"

def format : Width → Format
  | single => .single
  | double => .double

end Width

class Element (α : Type) extends Arithmetic α where
  width : Width
  bits : α → Nat
  /-- The nearest element to a double, an infinity past the range. -/
  ofDouble : Float → α
  /-- The nearest element to an integer. -/
  ofInt : Int → α
  /-- The largest difference that equality of tensors overlooks. -/
  tolerance : α

def doubleOfBits (n : Nat) : Float := Float.ofBits (UInt64.ofNat n)

def singleOfBits (n : Nat) : Float32 := Float32.ofBits (UInt32.ofNat n)

instance : Element Float where
  zero := 0
  one := 1
  le x y := x ≤ y
  lt x y := x < y
  abs := Float.abs
  sqrt := Float.sqrt
  exp := Float.exp
  tanh := Float.tanh
  infinity := doubleOfBits Format.double.infinity
  width := .double
  bits x := x.toBits.toNat
  ofDouble x := x
  ofInt n := doubleOfBits (Format.double.ofInt n)
  tolerance := 1e-9

instance : Element Float32 where
  zero := 0
  one := 1
  le x y := x ≤ y
  lt x y := x < y
  abs := Float32.abs
  sqrt := Float32.sqrt
  exp := Float32.exp
  tanh := Float32.tanh
  infinity := singleOfBits Format.single.infinity
  width := .single
  bits x := x.toBits.toNat
  ofDouble x := singleOfBits (Format.single.ofValue (Format.double.decode x.toBits.toNat))
  ofInt n := singleOfBits (Format.single.ofInt n)
  tolerance := 1e-5

end TensorFormula
