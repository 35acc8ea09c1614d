import TensorFormula.Json.Value
import TensorFormula.Number.Layout
import TensorFormula.Tensor.Basic

/-!
# Tensors as JSON

A tensor is written as an object of its sizes and its content, a number that is not finite as
`null`. It is read from an object with these two keys, each once and among any others, or from an
array of the two values; the sizes and the content then have to make a tensor.
-/

namespace TensorFormula

/-- The shortest digits, a tie to even, with a point and a signed exponent. -/
def Layout.json (w : Width) : Layout where
  tie := .even
  positional := some (match w with | .single => (-6, 13) | .double => (-5, 16))
  point := true
  plus := true
  nan := "null"
  infinity := "null"
  negativeInfinity := "null"

namespace Json

inductive Fault
  | malformed
  | tensor (fault : TensorFault)

section Writing

variable {α : Type} [Element α]

def elementText (x : α) : List Char :=
  (Layout.json (Element.width α)).text (Element.width α).format (Element.bits x)

def separated (separator : List Char) : List (List Char) → List Char
  | [] => []
  | [t] => t
  | t :: ts => t ++ separator ++ separated separator ts

def compactArray (ts : List (List Char)) : List Char := '[' :: (separated [','] ts ++ [']'])

/-- One item to a line, two levels deep. -/
def prettyArray (ts : List (List Char)) : List Char :=
  "[\n    ".toList ++ separated ",\n    ".toList ts ++ "\n  ]".toList

def sizeTexts (t : Tensor α) : List (List Char) := t.shape.dims.map fun n => Nat.toDigits 10 n

def contentTexts (t : Tensor α) : List (List Char) := t.content.toList.map elementText

def compact (t : Tensor α) : List Char :=
  "\x7b\"sizes\":".toList ++ compactArray (sizeTexts t) ++ ",\"content\":".toList ++
    compactArray (contentTexts t) ++ "\x7d".toList

def pretty (t : Tensor α) : List Char :=
  "\x7b\n  \"sizes\": ".toList ++ prettyArray (sizeTexts t) ++ ",\n  \"content\": ".toList ++
    prettyArray (contentTexts t) ++ "\n\x7d".toList

end Writing

section Reading

def sizesOf? : Value → Option (List Nat)
  | .array items => items.mapM fun
      | .number l => l.toSize?
      | _ => none
  | _ => none

variable {α : Type} [Element α]

def contentOf? : Value → Option (List α)
  | .array items => items.mapM fun
      | .number l => l.toElement?
      | _ => none
  | _ => none

/-- The only value of a key. -/
def only? (key : List Char) (entries : List (List Char × Value)) : Option Value :=
  match entries.filter fun e => e.1 == key with
  | [e] => some e.2
  | _ => none

/-- The values of the sizes and the content. -/
def parts? : Value → Option (Value × Value)
  | .array [sizes, content] => some (sizes, content)
  | .object entries => do
      let es ← entries.mapM fun e => (textOf? e.1).map fun key => (key, e.2)
      let sizes ← only? "sizes".toList es
      let content ← only? "content".toList es
      some (sizes, content)
  | _ => none

def orMalformed {β : Type} : Option β → Except Fault β
  | some b => .ok b
  | none => .error .malformed

def makeTensor (sizes : List Nat) (content : List α) : Except Fault (Tensor α) :=
  match Tensor.ofArray ⟨sizes⟩ content.toArray with
  | .ok t => .ok t
  | .error f => .error (.tensor f)

/-- Nothing but blanks may follow a value. -/
def requireEnd (rest : List Char) : Except Fault Unit :=
  if skip rest = [] then .ok () else .error .malformed

/-- The tensor that a text describes. What makes no tensor is told apart from what is no such text,
and is found before anything that follows the value. -/
def readTensor (cs : List Char) : Except Fault (Tensor α) := do
  let (v, rest) ← orMalformed (read cs)
  let (s, c) ← orMalformed (parts? v)
  let sizes ← orMalformed (sizesOf? s)
  let content ← orMalformed (contentOf? c)
  let t ← makeTensor sizes content
  requireEnd rest
  .ok t

/-- The numbers of an array. -/
def readNumbers (cs : List Char) : Except Fault (List α) := do
  let (v, rest) ← orMalformed (read cs)
  let xs ← orMalformed (contentOf? v)
  requireEnd rest
  .ok xs

end Reading

end Json

end TensorFormula
