/-!
# The functions of the formula language

Functions are called as `name(...)`, suffixes are written as `term.name`. The family of an operation
says what it does to a tensor: reduce it to one element, map its elements, or change its shape.
-/

namespace TensorFormula

inductive Family
  | aggregate
  | elementwise
  | shape
deriving DecidableEq, Repr

def Family.label : Family → String
  | aggregate => "Aggregate"
  | elementwise => "Elementwise"
  | shape => "Shape"

/-- How many arguments a function takes. -/
inductive Arity
  | one
  | oneOrTwo
deriving DecidableEq, Repr

def Arity.text : Arity → String
  | one => "1"
  | oneOrTwo => "1 or 2"

inductive Operation
  | min
  | max
  | sumAbs
  | sumSqr
  | sqrt
  | linear
  | dLinear
  | relu
  | dRelu
  | sigmoid
  | dSigmoid
  | tanh
  | dTanh
  | leakyRelu
  | dLeakyRelu
  | softmax
  | dSoftmax
  | transpose
  | rowMatrix
  | columnMatrix
  | vector
deriving DecidableEq, Repr

namespace Operation

/-- The operations that are written as calls. -/
def functions : List Operation :=
  [min, max, sumAbs, sumSqr, sqrt, linear, dLinear, relu, dRelu, sigmoid, dSigmoid, tanh, dTanh,
    leakyRelu, dLeakyRelu, softmax, dSoftmax]

/-- The operations that are written behind a term. -/
def suffixes : List Operation := [transpose, rowMatrix, columnMatrix, vector]

def all : List Operation := functions ++ suffixes

/-- The spelling in formulas. -/
def name : Operation → String
  | min => "min"
  | max => "max"
  | sumAbs => "sumAbs"
  | sumSqr => "sumSqr"
  | sqrt => "sqrt"
  | linear => "linear"
  | dLinear => "Dlinear"
  | relu => "relu"
  | dRelu => "Drelu"
  | sigmoid => "sigmoid"
  | dSigmoid => "Dsigmoid"
  | tanh => "tanh"
  | dTanh => "Dtanh"
  | leakyRelu => "leakyReLu"
  | dLeakyRelu => "DleakyReLu"
  | softmax => "softmax"
  | dSoftmax => "Dsoftmax"
  | transpose => "T"
  | rowMatrix => "m1"
  | columnMatrix => "m2"
  | vector => "v"

/-- The name in tree dumps and listings. -/
def label : Operation → String
  | min => "Min"
  | max => "Max"
  | sumAbs => "SumAbs"
  | sumSqr => "SumSqr"
  | sqrt => "Sqrt"
  | linear => "Linear"
  | dLinear => "DLinear"
  | relu => "Relu"
  | dRelu => "DRelu"
  | sigmoid => "Sigmoid"
  | dSigmoid => "DSigmoid"
  | tanh => "Tanh"
  | dTanh => "DTanh"
  | leakyRelu => "LeakyRelu"
  | dLeakyRelu => "DLeakyRelu"
  | softmax => "Softmax"
  | dSoftmax => "DSoftmax"
  | transpose => "Transpose"
  | rowMatrix => "ToRowMatrix"
  | columnMatrix => "ToColumnMatrix"
  | vector => "ToVector"

def family : Operation → Family
  | min | max | sumAbs | sumSqr => .aggregate
  | transpose | rowMatrix | columnMatrix | vector => .shape
  | _ => .elementwise

/-- The leaky functions take their slope as a second argument. -/
def arity : Operation → Arity
  | leakyRelu | dLeakyRelu => .oneOrTwo
  | _ => .one

def letters (op : Operation) : List Char := op.name.toList

def functionNamed? (cs : List Char) : Option Operation := functions.find? fun op => op.letters == cs

def suffixNamed? (cs : List Char) : Option Operation := suffixes.find? fun op => op.letters == cs

theorem mem_all (op : Operation) : op ∈ all := by cases op <;> decide

end Operation

end TensorFormula
