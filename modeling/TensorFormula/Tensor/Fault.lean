import TensorFormula.Shape
import TensorFormula.Tensor.Operator

/-!
# Faults of tensor operations

Each constructor is a cause. `message` is the only place where a cause is put into words, and `kind`
sorts the causes into the classes that callers tell apart.
-/

namespace TensorFormula

inductive FaultKind
  | argument
  | grammar
  | unsupported
  | state
deriving DecidableEq, Repr

/-- The ways to give a tensor another shape. -/
inductive Rearrangement
  | transpose
  | rowMatrix
  | columnMatrix
  | vector
deriving DecidableEq, Repr

def Rearrangement.name : Rearrangement → String
  | transpose => "transpose"
  | rowMatrix => "to row matrix"
  | columnMatrix => "to column matrix"
  | vector => "to vector"

inductive TensorFault
  | sizeMismatch (shape : Shape) (actual : Nat)
  | invalidShape (shape : Shape)
  | incompatible (op : Operator) (left right : Shape)
  | indexArity (expected actual : Nat)
  | indexOutOfRange (dim index size : Nat)
  | bufferTooShort (needed actual : Nat)
  | notMatrix (r : Rearrangement) (shape : Shape)
  | unsupported (r : Rearrangement) (shape : Shape)
deriving DecidableEq, Repr

namespace TensorFault

def kind : TensorFault → FaultKind
  | notMatrix .. => .state
  | unsupported .. => .unsupported
  | _ => .argument

def message : TensorFault → String
  | sizeMismatch s actual =>
      "buffer size mismatch: shape " ++ s.text ++ " needs " ++ toString s.count ++
        " elements, got " ++ toString actual
  | invalidShape s =>
      "invalid shape " ++ s.text ++
        ": every tensor needs at least one dimension and no empty dimensions"
  | incompatible op l r =>
      "incompatible shapes for " ++ op.name ++ ": " ++ l.text ++ " vs " ++ r.text
  | indexArity expected actual =>
      "index has " ++ toString actual ++ " coordinates but the tensor has arity " ++
        toString expected
  | indexOutOfRange dim index size =>
      "index " ++ toString index ++ " out of range for dimension " ++ toString dim ++
        " of size " ++ toString size
  | bufferTooShort needed actual =>
      "slice buffer too short: " ++ toString needed ++ " positions match, buffer holds " ++
        toString actual
  | notMatrix r s => r.name ++ " requires arity 2, tensor has shape " ++ s.text
  | unsupported r s =>
      r.name ++ " is not supported for arity " ++ toString s.rank ++ " (shape " ++ s.text ++ ")"

end TensorFault

end TensorFormula
