import TensorFormula.Engine.Settings
import TensorFormula.Formula.Fault
import TensorFormula.Json.Tensor

/-!
# Failures of commands

A failure is reported with its causes, the outermost first.
-/

namespace TensorFormula.Command

/-- Why a tensor could not be loaded. -/
inductive LoadFault
  | unreadable (path reason : String)
  /-- The text begins like an array but is no array of numbers. -/
  | notArray
  /-- The numbers of an array make no vector. -/
  | notVector (fault : TensorFault)
  | notTensor (fault : Json.Fault)

inductive Failure
  | settings (fault : SettingsFault)
  /-- The receiver has the index zero. -/
  | operand (index : Nat) (fault : LoadFault)
  | evaluation (formula : String) (fault : FormulaFault)
  | formula (fault : FormulaFault)

inductive Cause
  | stated (text : String)
  | malformedJson

namespace Cause

def text : Cause → String
  | stated text => text
  | malformedJson => "malformed JSON"

end Cause

def LoadFault.causes : LoadFault → List Cause
  | unreadable path reason =>
      [.stated ("cannot read tensor file '" ++ path ++ "'"), .stated reason]
  | notArray => [.stated "invalid JSON array", .malformedJson]
  | notVector f => [.stated f.message]
  | notTensor .malformed => [.stated "invalid tensor JSON", .malformedJson]
  | notTensor (.tensor f) => [.stated "invalid tensor JSON", .stated f.message]

def operandName (index : Nat) : String :=
  if index = 0 then "receiver (%0)" else "operand %" ++ toString index

namespace Failure

/-- The failure as it is first named. -/
def outline : Failure → String
  | .settings f => f.message
  | .operand index _ => operandName index
  | .evaluation text _ => "failed to evaluate '" ++ text ++ "'"
  | .formula f => f.message

def causes : Failure → List Cause
  | .settings _ => []
  | .operand _ f => f.causes
  | .evaluation _ f => [.stated f.message]
  | .formula _ => []

end Failure

/-- A text after a mark, further lines being indented as deep as the first. -/
def hanging (mark text : String) : String :=
  mark ++ String.intercalate ("\n" ++ String.ofList (List.replicate mark.length ' '))
    (text.splitOn "\n")

/-- Causes are numbered if there are several. -/
def causeLines : List String → List String
  | [text] => [hanging "    " text]
  | texts => texts.zipIdx.map fun (text, i) => hanging ("    " ++ toString i ++ ": ") text

/-- A failure and its causes in words. -/
def report (outline : String) (causes : List String) : String :=
  "Error: " ++ outline ++
    if causes.isEmpty then ""
    else "\n\nCaused by:\n" ++ String.intercalate "\n" (causeLines causes)

end TensorFormula.Command
