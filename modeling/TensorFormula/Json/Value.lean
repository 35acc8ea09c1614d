import TensorFormula.Json.Literal
import TensorFormula.Text.Digits

/-!
# Reading JSON

A text is read into a tree of values. Strings are kept as the code units that they spell, because an
escape may name half of a surrogate pair; only a string in which all halves pair up has a text.
-/

namespace TensorFormula.Json

inductive Value
  | null
  | boolean (b : Bool)
  | number (l : Literal)
  | string (units : List Nat)
  | array (items : List Value)
  | object (entries : List (List Nat × Value))

/-- The characters of a string, if its surrogates pair up. -/
def textOf? : List Nat → Option (List Char)
  | [] => some []
  | [u] => if 0xD800 ≤ u ∧ u < 0xE000 then none else some [Char.ofNat u]
  | u :: v :: us =>
      if 0xD800 ≤ u ∧ u < 0xDC00 then
        if 0xDC00 ≤ v ∧ v < 0xE000 then
          (textOf? us).map (Char.ofNat (0x10000 + (u - 0xD800) * 0x400 + (v - 0xDC00)) :: ·)
        else none
      else if 0xDC00 ≤ u ∧ u < 0xE000 then none
      else (textOf? (v :: us)).map (Char.ofNat u :: ·)

abbrev Reader (α : Type) := List Char → Option (α × List Char)

def isSpace (c : Char) : Bool := c == ' ' || c == '\n' || c == '\t' || c == '\r'

def skip (cs : List Char) : List Char := cs.dropWhile isSpace

/-- At least one digit. -/
def readDigits : Reader (List Char) := fun cs =>
  let ds := cs.takeWhile Char.isDigit
  if ds.isEmpty then none else some (ds, cs.dropWhile Char.isDigit)

/-- Digits without a leading zero, unless zero stands alone. -/
def readWhole : Reader (List Char) := fun cs => do
  let (ds, rest) ← readDigits cs
  if ds.head? = some '0' ∧ ds.length ≠ 1 then none else some (ds, rest)

def readFraction : Reader (Option (List Char))
  | '.' :: cs => do
      let (ds, rest) ← readDigits cs
      some (some ds, rest)
  | cs => some (none, cs)

def readExponentDigits (negative : Bool) : Reader (Option (Bool × List Char)) := fun cs => do
  let (ds, rest) ← readDigits cs
  some (some (negative, ds), rest)

def readExponent : Reader (Option (Bool × List Char)) := fun cs =>
  match cs with
  | c :: rest =>
      if c = 'e' ∨ c = 'E' then
        match rest with
        | '+' :: r => readExponentDigits false r
        | '-' :: r => readExponentDigits true r
        | r => readExponentDigits false r
      else some (none, cs)
  | [] => some (none, cs)

def readUnsigned (negative : Bool) : Reader Value := fun cs => do
  let (whole, rest) ← readWhole cs
  let (fraction, rest) ← readFraction rest
  let (exponent, rest) ← readExponent rest
  some (.number ⟨negative, whole, fraction, exponent⟩, rest)

def readNumber : Reader Value
  | '-' :: cs => readUnsigned true cs
  | cs => readUnsigned false cs

def escape? : Char → Option Nat
  | '"' => some 0x22
  | '\\' => some 0x5C
  | '/' => some 0x2F
  | 'b' => some 0x08
  | 'f' => some 0x0C
  | 'n' => some 0x0A
  | 'r' => some 0x0D
  | 't' => some 0x09
  | _ => none

/-- The rest of a string after its opening quote. -/
def readString : Reader (List Nat)
  | [] => none
  | '"' :: cs => some ([], cs)
  | '\\' :: 'u' :: a :: b :: c :: d :: cs => do
      let u ← Text.numberOf? 16 [a, b, c, d]
      let (us, rest) ← readString cs
      some (u :: us, rest)
  | '\\' :: e :: cs => do
      let u ← escape? e
      let (us, rest) ← readString cs
      some (u :: us, rest)
  | c :: cs =>
      if c.toNat < 0x20 ∨ c = '\\' then none
      else do
        let (us, rest) ← readString cs
        some (c.toNat :: us, rest)

/-- Items up to a closing bracket, at most `limit` of them. -/
def readItems (item : Reader Value) : Nat → Reader (List Value)
  | 0, _ => none
  | limit + 1, cs => do
      let (v, rest) ← item cs
      match skip rest with
      | ',' :: rest => do
          let (vs, rest) ← readItems item limit rest
          some (v :: vs, rest)
      | ']' :: rest => some ([v], rest)
      | _ => none

/-- A key with its value. -/
def readEntry (item : Reader Value) : Reader (List Nat × Value) := fun cs =>
  match skip cs with
  | '"' :: rest => do
      let (key, rest) ← readString rest
      match skip rest with
      | ':' :: rest => do
          let (v, rest) ← item rest
          some ((key, v), rest)
      | _ => none
  | _ => none

/-- Entries up to a closing brace, at most `limit` of them. -/
def readEntries (item : Reader Value) : Nat → Reader (List (List Nat × Value))
  | 0, _ => none
  | limit + 1, cs => do
      let (e, rest) ← readEntry item cs
      match skip rest with
      | ',' :: rest => do
          let (es, rest) ← readEntries item limit rest
          some (e :: es, rest)
      | '\x7d' :: rest => some ([e], rest)
      | _ => none

/-- One value, nested at most `limit` deep and with at most `limit` parts at each level. -/
def readValue : Nat → Reader Value
  | 0, _ => none
  | limit + 1, cs =>
      match skip cs with
      | 'n' :: 'u' :: 'l' :: 'l' :: rest => some (.null, rest)
      | 't' :: 'r' :: 'u' :: 'e' :: rest => some (.boolean true, rest)
      | 'f' :: 'a' :: 'l' :: 's' :: 'e' :: rest => some (.boolean false, rest)
      | '"' :: rest => (readString rest).map fun (us, rest) => (.string us, rest)
      | '[' :: rest =>
          match skip rest with
          | ']' :: rest => some (.array [], rest)
          | rest => (readItems (readValue limit) limit rest).map fun (vs, rest) => (.array vs, rest)
      | '\x7b' :: rest =>
          match skip rest with
          | '\x7d' :: rest => some (.object [], rest)
          | rest =>
              (readEntries (readValue limit) limit rest).map fun (es, rest) => (.object es, rest)
      | rest => readNumber rest

/-- The value at the start of a text, and what follows it. -/
def read : Reader Value := fun cs => readValue (cs.length + 1) cs

end TensorFormula.Json
