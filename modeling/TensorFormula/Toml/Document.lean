import TensorFormula.Toml.Quoted

/-!
# TOML documents

A document is read line by line: a line sets a key, opens a table or adds an element to an array of
tables. Values nest to a fixed depth only, and so do dotted keys.
-/

namespace TensorFormula.Toml

/-- The depth from which on arrays, inline tables and dotted keys are refused. -/
def depthLimit : Nat := 80

def skipComment : List Char → List Char
  | '#' :: cs => cs.dropWhile isPlain
  | cs => cs

/-- Skips blanks, comments and line breaks, of which there are at most `limit`. -/
def skipLines : Nat → List Char → List Char
  | 0, cs => cs
  | limit + 1, cs =>
      let rest := skipComment (skipBlank cs)
      match lineBreak? rest with
      | some more => skipLines limit more
      | none => rest

def isBareKey (c : Char) : Bool := c.isAlphanum || c == '-' || c == '_'

def readKeyPart : Reader Key := fun cs =>
  match cs with
  | '"' :: rest => readBasic (rest.length + 1) rest
  | '\x27' :: rest => readLiteral rest
  | _ =>
      let k := cs.takeWhile isBareKey
      if k.isEmpty then none else some (k, cs.dropWhile isBareKey)

/-- The parts of a dotted key, at most `limit` of them. -/
def readKey : Nat → Reader (List Key)
  | 0, _ => none
  | limit + 1, cs => do
      let (k, rest) ← readKeyPart (skipBlank cs)
      match skipBlank rest with
      | '.' :: more => do
          let (ks, rest) ← readKey limit more
          some (k :: ks, rest)
      | rest => some ([k], rest)

/-- A key and the tables on the way to it. It has fewer parts than the depth limit. -/
def readPath : Reader (List Key × Key) := fun cs => do
  let (ks, rest) ← readKey (depthLimit - 1) cs
  let k ← ks.getLast?
  some ((ks.dropLast, k), rest)

def isWordPart (c : Char) : Bool :=
  c.isAlphanum || c == '+' || c == '-' || c == '_' || c == '.' || c == ':'

/-- A value without quotes and brackets. A date may have its time after a single space. -/
def readScalar : Reader Value := fun cs =>
  let word := cs.takeWhile isWordPart
  let rest := cs.dropWhile isWordPart
  match rest with
  | ' ' :: more =>
      let late := more.takeWhile isWordPart
      if (date? word) == some [] ∧ (late.head?.any Char.isDigit) then
        if isMoment (word ++ ' ' :: late) then some (.moment, more.dropWhile isWordPart) else none
      else (scalar? word).map fun v => (v, rest)
  | _ => (scalar? word).map fun v => (v, rest)

/-- The items of an array up to its closing bracket, at most `limit` of them. -/
def readItems (item : Reader Value) : Nat → Reader (List Value)
  | 0, _ => none
  | limit + 1, cs =>
      match skipLines cs.length cs with
      | ']' :: rest => some ([], rest)
      | start => do
          let (v, rest) ← item start
          match skipLines rest.length rest with
          | ',' :: more => do
              let (vs, rest) ← readItems item limit more
              some (v :: vs, rest)
          | ']' :: more => some ([v], more)
          | _ => none

/-- A dotted key, an equals sign and a value. -/
def readPair (item : Reader Value) : Reader (List Key × Key × Value) := fun cs => do
  let ((path, k), rest) ← readPath cs
  match skipBlank rest with
  | '=' :: more => do
      let (v, rest) ← item (skipBlank more)
      some ((path, k, v), rest)
  | _ => none

/-- The pairs of an inline table up to its closing brace, at most `limit` of them. -/
def readPairs (item : Reader Value) : Nat → Entries → Reader Entries
  | 0, _, _ => none
  | limit + 1, es, cs => do
      let ((path, k, v), rest) ← readPair item cs
      let es ← es.insert k v path
      match skipBlank rest with
      | ',' :: more => readPairs item limit es more
      | '\x7d' :: more => some (es, more)
      | _ => none

/-- A value with less than `limit` levels of arrays and inline tables. -/
def readValue : Nat → Reader Value
  | 0, _ => none
  | limit + 1, cs =>
      match cs with
      | '"' :: _ => (readString cs).map fun (text, rest) => (.string text, rest)
      | '\x27' :: _ => (readString cs).map fun (text, rest) => (.string text, rest)
      | '[' :: rest =>
          if limit = 0 then none
          else
            (readItems (readValue limit) cs.length rest).map fun (vs, rest) => (.array vs, rest)
      | '\x7b' :: rest =>
          if limit = 0 then none
          else
            match skipBlank rest with
            | '\x7d' :: rest => some (.table .inline [], rest)
            | rest =>
                (readPairs (readValue limit) cs.length [] rest).map fun (es, rest) =>
                  (.table .inline es, rest)
      | _ => readScalar cs

/-- What a line says. -/
inductive Line
  | empty
  | pair (path : List Key) (key : Key) (value : Value)
  | header (path : List Key) (key : Key)
  | element (path : List Key) (key : Key)

/-- The key of a header and what follows its closing brackets. -/
def readHeader (close : List Char) (make : List Key → Key → Line) : Reader Line := fun cs => do
  let ((path, k), rest) ← readPath cs
  if close.isPrefixOf rest then some (make path k, rest.drop close.length) else none

def readLine : Reader Line := fun cs =>
  match skipBlank cs with
  | '[' :: '[' :: rest => readHeader [']', ']'] .element rest
  | '[' :: rest => readHeader [']'] .header rest
  | rest =>
      if (skipComment rest).isEmpty ∨ (lineBreak? (skipComment rest)).isSome then
        some (.empty, rest)
      else (readPair (readValue depthLimit) rest).map fun ((path, k, v), rest) =>
        (.pair path k v, rest)

/-- The table that is being filled: the document itself, or one that a header names. -/
structure Document where
  root : Entries
  current : Option (List Key × Key)

/-- Opens the table of a header, which may have been named on the way to another one before. -/
def openTable : Option Value → Option Value
  | none => some (.table .header [])
  | some (.table .path es) => some (.table .header es)
  | some _ => none

/-- Adds an element to an array of tables. -/
def openElement : Option Value → Option Value
  | none => some (.tables [[]])
  | some (.tables es) => some (.tables ([] :: es))
  | some _ => none

/-- Adds a value to a table under a dotted key. -/
def insertInto (path : List Key) (k : Key) (v : Value) : Option Value → Option Value
  | some (.table origin es) => (Entries.insert k v path es).map fun es => .table origin es
  | some (.tables (last :: before)) =>
      (Entries.insert k v path last).map fun es => .tables (es :: before)
  | _ => none

namespace Document

def add (d : Document) : Line → Option Document
  | .empty => some d
  | .header path k => (d.root.modify k openTable path).map fun root => ⟨root, some (path, k)⟩
  | .element path k => (d.root.modify k openElement path).map fun root => ⟨root, some (path, k)⟩
  | .pair path k v =>
      match d.current with
      | none => (d.root.insert k v path).map fun root => { d with root }
      | some (table, name) =>
          (d.root.modify name (insertInto path k v) table).map fun root => { d with root }

/-- Reads at most `limit` lines. -/
def readLines (limit : Nat) (d : Document) (cs : List Char) : Option Document :=
  match limit with
  | 0 => none
  | limit + 1 => do
      let (line, rest) ← readLine cs
      let d ← d.add line
      match skipComment (skipBlank rest) with
      | [] => some d
      | rest => do
          let more ← lineBreak? rest
          readLines limit d more

end Document

/-- The table that a text describes. A byte order mark before it is dropped. -/
def read (cs : List Char) : Option Entries :=
  let cs := match cs with
    | '\ufeff' :: rest => rest
    | _ => cs
  ((Document.readLines (cs.length + 1) ⟨[], none⟩ cs)).map Document.root

end TensorFormula.Toml
