import TensorFormula.Toml.Scalar

/-!
# Quoted text in TOML

Basic strings know escapes, literal strings do not; both have a form of one line and a form of
several. A reader takes what it reads from the front of a text and returns the rest.
-/

namespace TensorFormula.Toml

abbrev Reader (α : Type) := List Char → Option (α × List Char)

def isBlank (c : Char) : Bool := c == ' ' || c == '\t'

def skipBlank (cs : List Char) : List Char := cs.dropWhile isBlank

/-- The characters that may stand in comments and between quotes. -/
def isPlain (c : Char) : Bool := c == '\t' || (0x20 ≤ c.toNat && c.toNat != 0x7F)

/-- What follows a line break, if there is one. -/
def lineBreak? : List Char → Option (List Char)
  | '\n' :: cs => some cs
  | '\r' :: '\n' :: cs => some cs
  | _ => none

/-- Skips blanks and whole line breaks; a carriage return without its line feed stays. -/
def skipGap : List Char → List Char
  | ' ' :: cs => skipGap cs
  | '\t' :: cs => skipGap cs
  | '\n' :: cs => skipGap cs
  | '\r' :: '\n' :: cs => skipGap cs
  | cs => cs

/-- The character of a hexadecimal code point, which is no surrogate. -/
def codePoint? (cs : List Char) : Option Char :=
  (Text.numberOf? 16 cs).bind fun n => if n.isValidChar then some (Char.ofNat n) else none

def escape? : Char → Option Char
  | 'b' => some '\x08'
  | 't' => some '\t'
  | 'n' => some '\n'
  | 'f' => some '\x0c'
  | 'r' => some '\r'
  | '"' => some '"'
  | '\\' => some '\\'
  | _ => none

/-- The escaped character after a backslash. -/
def readEscape : Reader Char
  | 'u' :: a :: b :: c :: d :: cs => (codePoint? [a, b, c, d]).map fun x => (x, cs)
  | 'U' :: a :: b :: c :: d :: e :: f :: g :: h :: cs =>
      (codePoint? [a, b, c, d, e, f, g, h]).map fun x => (x, cs)
  | c :: cs => (escape? c).map fun x => (x, cs)
  | [] => none

/-- The rest of a one-line string after its quote, at most `limit` characters. -/
def readBasic : Nat → Reader (List Char)
  | 0, _ => none
  | limit + 1, cs =>
      match cs with
      | '"' :: rest => some ([], rest)
      | '\\' :: rest => do
          let (c, rest) ← readEscape rest
          let (text, rest) ← readBasic limit rest
          some (c :: text, rest)
      | c :: rest =>
          if isPlain c then (readBasic limit rest).map fun (text, rest) => (c :: text, rest)
          else none
      | [] => none

def readLiteral : Reader (List Char) := fun cs =>
  match cs.dropWhile fun c => isPlain c && c != '\x27' with
  | '\x27' :: rest => some (cs.takeWhile fun c => isPlain c && c != '\x27', rest)
  | _ => none

/-- How many quotes stand at the start, and what follows them. -/
def quotes (q : Char) (cs : List Char) : Nat × List Char :=
  ((cs.takeWhile (· == q)).length, cs.dropWhile (· == q))

/-- The rest of a string of several lines after its opening quotes. Up to two quotes may stand
before the closing ones; a backslash at the end of a line joins it to the next text. -/
def readMultiline (q : Char) : Nat → Reader (List Char)
  | 0, _ => none
  | limit + 1, cs =>
      match quotes q cs with
      | (0, '\\' :: rest) =>
          if q = '"' then
            match lineBreak? (skipBlank rest) with
            | some more =>
                readMultiline q limit (skipGap more)
            | none => do
                let (c, rest) ← readEscape rest
                let (text, rest) ← readMultiline q limit rest
                some (c :: text, rest)
          else (readMultiline q limit rest).map fun (text, rest) => ('\\' :: text, rest)
      | (0, rest) =>
          match lineBreak? rest with
          | some more => (readMultiline q limit more).map fun (text, rest) => ('\n' :: text, rest)
          | none =>
              match rest with
              | c :: more =>
                  if isPlain c then
                    (readMultiline q limit more).map fun (text, rest) => (c :: text, rest)
                  else none
              | [] => none
      | (n, rest) =>
          if n < 3 then
            (readMultiline q limit rest).map fun (text, rest) => (List.replicate n q ++ text, rest)
          else if n ≤ 5 then some (List.replicate (n - 3) q, rest)
          else none

/-- A line break right after the opening quotes is dropped. -/
def readString : Reader (List Char)
  | '"' :: '"' :: '"' :: cs => readMultiline '"' (cs.length + 1) ((lineBreak? cs).getD cs)
  | '\x27' :: '\x27' :: '\x27' :: cs =>
      readMultiline '\x27' (cs.length + 1) ((lineBreak? cs).getD cs)
  | '"' :: cs => readBasic (cs.length + 1) cs
  | '\x27' :: cs => readLiteral cs
  | _ => none

end TensorFormula.Toml
