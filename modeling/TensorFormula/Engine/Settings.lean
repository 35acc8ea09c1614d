import TensorFormula.Formula.Canonical
import TensorFormula.Tensor.Fault
import TensorFormula.Toml.Document

/-!
# Settings of the engine

Settings are read from a TOML document, in which each key may be left out, and written as one. The
slope of the leaky functions has to be a finite number other than zero.
-/

namespace TensorFormula

structure Settings where
  cacheFormulas : Bool
  cacheCapacity : Nat
  leakySlope : Float

inductive SettingsFault
  /-- The text is no TOML, or a key has a value of the wrong type. -/
  | malformed
  /-- TOML has no integer for the capacity. -/
  | unwritable
  | slope (value : Float)
  | unreadable (path reason : String)

namespace SettingsFault

def kind (_ : SettingsFault) : FaultKind := .argument

def reason : SettingsFault → String
  | malformed => "TOML parse error"
  | unwritable => "TOML serialise error"
  | slope v => "leaky_slope must be finite and non-zero, got " ++ String.ofList (plainText v)
  | unreadable path reason => "cannot read config '" ++ path ++ "': " ++ reason

def message (f : SettingsFault) : String := "configuration error: " ++ f.reason

end SettingsFault

/-- The shortest digits without an exponent, and always with a point. -/
def Layout.toml : Layout := { Layout.plain with point := true, nan := "nan" }

namespace Settings

/-- What applies to keys that are left out. -/
def standard : Settings where
  cacheFormulas := true
  cacheCapacity := 256
  leakySlope := 0.1

def validate (s : Settings) : Except SettingsFault Settings :=
  if s.leakySlope.isFinite ∧ s.leakySlope != 0 then .ok s else .error (.slope s.leakySlope)

/-- Equality of settings, slopes being compared as numbers. -/
def same (s t : Settings) : Bool :=
  s.cacheFormulas == t.cacheFormulas && s.cacheCapacity == t.cacheCapacity &&
    s.leakySlope == t.leakySlope

section Reading

open Toml

def flag? : Value → Option Bool
  | .boolean b => some b
  | _ => none

def capacity? : Value → Option Nat
  | .integer n => if 0 ≤ n then some n.toNat else none
  | _ => none

/-- An integer stands for the nearest double. -/
def slope? : Value → Option Float
  | .float x => some x
  | .integer n => some (Element.ofInt n)
  | _ => none

/-- The value of a key, or the given one if there is no such key. -/
def field {α : Type} (es : Entries) (key : String) (read? : Value → Option α) (missing : α) :
    Option α :=
  match es.find? key.toList with
  | none => some missing
  | some v => read? v

def ofEntries? (es : Entries) : Option Settings := do
  let cacheFormulas ← field es "cache_formulas" flag? standard.cacheFormulas
  let cacheCapacity ← field es "cache_capacity" capacity? standard.cacheCapacity
  let leakySlope ← field es "leaky_slope" slope? standard.leakySlope
  some { cacheFormulas, cacheCapacity, leakySlope }

/-- The valid settings that a document describes. -/
def ofToml (text : List Char) : Except SettingsFault Settings :=
  match (Toml.read text).bind ofEntries? with
  | none => .error .malformed
  | some s => s.validate

end Reading

section Writing

def flagText (b : Bool) : List Char := (if b then "true" else "false").toList

def line (key : String) (value : List Char) : List Char :=
  key.toList ++ " = ".toList ++ value ++ ['\n']

/-- One key to a line. The integers of TOML have 64 bits, one of them for the sign. -/
def toToml (s : Settings) : Except SettingsFault (List Char) :=
  if s.cacheCapacity < Nat.pow 2 63 then
    .ok (line "cache_formulas" (flagText s.cacheFormulas) ++
      line "cache_capacity" (natText s.cacheCapacity) ++
      line "leaky_slope" (Layout.toml.text .double (Element.bits s.leakySlope)))
  else .error .unwritable

end Writing

end Settings

end TensorFormula
