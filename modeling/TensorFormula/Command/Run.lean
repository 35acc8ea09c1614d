import TensorFormula.Command.Arguments
import TensorFormula.Command.Failure
import TensorFormula.Command.Listing
import TensorFormula.Engine.Basic

/-!
# Running commands

A command line is run on given files. The configuration is loaded before anything else, the operands
of an evaluation are loaded from left to right, and the first failure ends the run.
-/

namespace TensorFormula.Command

/-- The text of each file, or the reason why it cannot be read. -/
abbrev Files := String → Except String String

inductive Outcome
  /-- The arguments ask for nothing that can be done. -/
  | usage
  | success (output : String)
  /-- What was printed before the failure is kept. -/
  | failure (output : String) (f : Failure)

namespace Outcome

def exitCode : Outcome → UInt32
  | usage => 2
  | success _ => 0
  | failure .. => 1

/-- What is printed as output. -/
def output : Outcome → String
  | usage => ""
  | success output => output
  | failure output _ => output

/-- What is printed as an error. -/
def complaint : Outcome → String
  | usage => "error: the arguments are not understood\n"
  | success _ => ""
  | failure _ f => report f.outline (f.causes.map Cause.text) ++ "\n"

end Outcome

def versionText : String := "tensor-calc 0.1.0\n"

def loadSettings (files : Files) : Option String → Except Failure Settings
  | none => .ok .standard
  | some path =>
      match files path with
      | .error reason => .error (.settings (.unreadable path reason))
      | .ok text => (Settings.ofToml text.toList).mapError .settings

section

variable {α : Type} [Element α]

/-- The tensor of a JSON text; an array of numbers stands for a vector. -/
def readTensor (cs : List Char) : Except LoadFault (Tensor α) :=
  if (cs.dropWhile Text.isBlank).head? = some '[' then
    match (Json.readNumbers cs : Except Json.Fault (List α)) with
    | .error _ => .error .notArray
    | .ok xs => (Tensor.ofArray (.vector xs.length) xs.toArray).mapError .notVector
  else (Json.readTensor cs).mapError .notTensor

/-- The path that an argument names instead of a tensor. -/
def path? (argument : String) : Option String :=
  match argument.toList with
  | '@' :: path => some (String.ofList path)
  | _ => none

def loadTensor (files : Files) (argument : String) : Except LoadFault (Tensor α) :=
  match path? argument with
  | none => readTensor argument.toList
  | some path =>
      match files path with
      | .error reason => .error (.unreadable path reason)
      | .ok text => readTensor text.toList

def loadOperand (files : Files) (index : Nat) (argument : String) : Except Failure (Tensor α) :=
  (loadTensor files argument).mapError (.operand index)

/-- Loads the operands from the given index on. -/
def loadOperands (files : Files) (index : Nat) : List String → Except Failure (List (Tensor α))
  | [] => .ok []
  | argument :: arguments => do
      let t ← loadOperand files index argument
      let ts ← loadOperands files (index + 1) arguments
      .ok (t :: ts)

def resultText (pretty : Bool) (t : Tensor α) : String :=
  String.ofList (if pretty then Json.pretty t else Json.compact t) ++ "\n"

variable (α) in
/-- What an evaluation prints, in a given type of elements. -/
def evaluationText (files : Files) (config : Option String) (e : Evaluation) :
    Except Failure String := do
  let settings ← loadSettings files config
  let engine ← (Engine.create settings).mapError Failure.settings
  let receiver : Tensor α ← loadOperand files 0 e.receiver
  let operands ← loadOperands files 1 e.operands
  let t ← (engine.calculate receiver e.formula operands).1.mapError (.evaluation e.formula)
  .ok (resultText e.pretty t)

end

def runEvaluation (files : Files) (config : Option String) (e : Evaluation) : Outcome :=
  let text := match e.width with
    | .single => evaluationText Float32 files config e
    | .double => evaluationText Float files config e
  match text with
  | .ok output => .success output
  | .error f => .failure "" f

/-- The tokens are shown even if they make no tree. -/
def runParsing (files : Files) (config : Option String) (formula : String) : Outcome :=
  match loadSettings files config with
  | .error f => .failure "" f
  | .ok _ =>
      match scan formula.toList with
      | .error f => .failure "" (.formula f)
      | .ok tokens =>
          match parse formula with
          | .error f => .failure (tokenTable formula tokens) (.formula f)
          | .ok n => .success (tokenTable formula tokens ++ treeSummary n)

def Request.run (files : Files) : Request → Outcome
  | .version => .success versionText
  | .evaluate config e => runEvaluation files config e
  | .parse config formula => runParsing files config formula

/-- The files that a request reads. -/
def Request.paths : Request → List String
  | .version => []
  | .evaluate config e => config.toList ++ (e.receiver :: e.operands).filterMap path?
  | .parse config _ => config.toList

/-- Runs the words of a command line. -/
def run (files : Files) (words : List String) : Outcome :=
  match request? words with
  | none => .usage
  | some r => r.run files

end TensorFormula.Command
