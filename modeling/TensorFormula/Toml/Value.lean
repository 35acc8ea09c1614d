/-!
# TOML values and tables

A document is a table of named values. Tables remember how they came to be, because that decides
what may still be added to them: a table that a header or an inline value defines is complete, one
that only a longer header or a dotted key has named may grow in its own way.
-/

namespace TensorFormula.Toml

inductive Origin
  /-- Written between braces. -/
  | inline
  /-- Defined by its own header. -/
  | header
  /-- Named on the way to another header. -/
  | path
  /-- Named on the way to a dotted key. -/
  | dotted
deriving DecidableEq, Repr

inductive Value
  | string (text : List Char)
  | integer (n : Int)
  | float (x : Float)
  | boolean (b : Bool)
  /-- A date, a time or both. -/
  | moment
  | array (items : List Value)
  | table (origin : Origin) (entries : List (List Char × Value))
  /-- The tables of repeated double-bracket headers, the last first. -/
  | tables (elements : List (List (List Char × Value)))

abbrev Key := List Char

abbrev Entries := List (Key × Value)

namespace Entries

def find? (k : Key) (es : Entries) : Option Value := es.lookup k

/-- Replaces the value of a key, or adds the key at the end. -/
def put (k : Key) (v : Value) : Entries → Entries
  | [] => [(k, v)]
  | e :: es => if e.1 = k then (k, v) :: es else e :: put k v es

/-- Adds a value under a dotted key, whose last part is `k`. The part before it may only go through
tables that dotted keys have made, or through others on the way to such a table. -/
def insert (k : Key) (v : Value) : List Key → Entries → Option Entries
  | [], es => if (es.find? k).isSome then none else some (es ++ [(k, v)])
  | p :: ps, es =>
      match es.find? p with
      | none => (insert k v ps []).map fun sub => es ++ [(p, .table .dotted sub)]
      | some (.table origin sub) =>
          if origin = .dotted ∨ (origin = .path ∧ ps ≠ []) then
            (insert k v ps sub).map fun sub => es.put p (.table origin sub)
          else none
      | some (.tables (last :: before)) =>
          if ps ≠ [] then
            (insert k v ps last).map fun last => es.put p (.tables (last :: before))
          else none
      | some _ => none

/-- Changes the value that a header names, going through any table but an inline one. -/
def modify (k : Key) (f : Option Value → Option Value) : List Key → Entries → Option Entries
  | [], es => (f (es.find? k)).map fun v => es.put k v
  | p :: ps, es =>
      match es.find? p with
      | none => (modify k f ps []).map fun sub => es ++ [(p, .table .path sub)]
      | some (.table .inline _) => none
      | some (.table origin sub) =>
          (modify k f ps sub).map fun sub => es.put p (.table origin sub)
      | some (.tables (last :: before)) =>
          (modify k f ps last).map fun last => es.put p (.tables (last :: before))
      | some _ => none

end Entries

end TensorFormula.Toml
