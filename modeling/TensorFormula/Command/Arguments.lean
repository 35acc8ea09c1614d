import TensorFormula.Element

/-!
# Command-line arguments

Options stand before and after the name of a command, and each command has its own. An option with
a value takes it from the same word or from the next one, which must not look like an option;
one-letter switches may share a word. Options other than the operands and the verbosity are given at
most once on each side of the command's name.
-/

namespace TensorFormula.Command

inductive Choice
  | config
  | verbose
  | version
  | formula
  | receiver
  | operand
  | double
  | pretty
deriving DecidableEq, Repr

namespace Choice

def name : Choice → String
  | config => "config"
  | verbose => "verbose"
  | version => "version"
  | formula => "formula"
  | receiver => "receiver"
  | operand => "operand"
  | double => "f64"
  | pretty => "pretty"

def letter? : Choice → Option Char
  | config => some 'c'
  | verbose => some 'v'
  | version => some 'V'
  | formula => some 'f'
  | receiver => some 'r'
  | operand => some 'o'
  | double => none
  | pretty => none

def takesValue : Choice → Bool
  | config | formula | receiver | operand => true
  | _ => false

def isRepeatable : Choice → Bool
  | operand | verbose => true
  | _ => false

/-- Before the command. -/
def general : List Choice := [config, verbose, version]

def ofEvaluation : List Choice := [config, verbose, formula, receiver, operand, double, pretty]

def ofParsing : List Choice := [config, verbose, formula]

end Choice

/-- A given option; the value of a switch is empty. -/
structure Given where
  choice : Choice
  value : String

/-- What a single word says. -/
inductive Word
  | options (given : List Given)
  /-- The value of the last option is the next word. -/
  | unfinished (given : List Given) (choice : Choice)
  | version (given : List Given)
  | terminator
  | plain

def Word.after (g : Given) : Word → Word
  | options given => options (g :: given)
  | unfinished given choice => unfinished (g :: given) choice
  | version given => version (g :: given)
  | w => w

/-- Only a lone dash may stand for a value without being taken for an option. -/
def isOption (word : String) : Bool := word != "-" && word.toList.head? == some '-'

/-- One-letter options in a row; what follows one with a value is its value. -/
def readCluster (allowed : List Choice) : List Char → Option Word
  | [] => some (.options [])
  | c :: cs =>
      match allowed.find? fun choice => choice.letter? == some c with
      | none => none
      | some choice =>
          if choice.takesValue then
            match cs with
            | [] => some (.unfinished [] choice)
            | '=' :: value => some (.options [⟨choice, String.ofList value⟩])
            | value => some (.options [⟨choice, String.ofList value⟩])
          else if choice = .version then some (.version [])
          else (readCluster allowed cs).map (Word.after ⟨choice, ""⟩)

/-- An option that is written out, with or without its value. -/
def readLong (allowed : List Choice) (cs : List Char) : Option Word :=
  match allowed.find? fun choice => choice.name.toList == cs.takeWhile (· != '=') with
  | none => none
  | some choice =>
      match choice.takesValue, cs.dropWhile (· != '=') with
      | true, _ :: value => some (.options [⟨choice, String.ofList value⟩])
      | true, [] => some (.unfinished [] choice)
      | false, _ :: _ => none
      | false, [] => some (if choice = .version then .version [] else .options [⟨choice, ""⟩])

def readWord (allowed : List Choice) (word : String) : Option Word :=
  match word.toList with
  | ['-', '-'] => some .terminator
  | '-' :: '-' :: cs => readLong allowed cs
  | '-' :: c :: cs => readCluster allowed (c :: cs)
  | _ => some .plain

/-- How the options on one side of the command's name end. -/
inductive Ending
  | finished
  | version
  | command (name : String) (rest : List String)

def prepend (given : List Given) : List Given × Ending → List Given × Ending
  | (more, ending) => (given ++ more, ending)

def readOptions (allowed : List Choice) : List String → Option (List Given × Ending)
  | [] => some ([], .finished)
  | word :: rest =>
      match readWord allowed word with
      | none => none
      | some (.options given) => (readOptions allowed rest).map (prepend given)
      | some (.unfinished given choice) =>
          match rest with
          | [] => none
          | value :: rest =>
              if isOption value then none
              else (readOptions allowed rest).map (prepend (given ++ [⟨choice, value⟩]))
      | some (.version given) => some (given, .version)
      | some .terminator => if rest.isEmpty then some ([], .finished) else none
      | some .plain => some ([], .command word rest)

namespace Given

def values (given : List Given) (choice : Choice) : List String :=
  (given.filter fun g => g.choice == choice).map Given.value

/-- What is not repeatable occurs once at most, and a path is not empty. -/
def areValid (given : List Given) : Bool :=
  given.all fun g =>
    (g.choice.isRepeatable || (values given g.choice).length == 1) &&
      (g.choice != .config || g.value != "")

def value? (given : List Given) (choice : Choice) : Option String := (values given choice).head?

def has (given : List Given) (choice : Choice) : Bool := (value? given choice).isSome

end Given

/-- An evaluation; tensors are given by a text, or by a path behind an at sign. -/
structure Evaluation where
  formula : String
  receiver : String
  operands : List String
  width : Width
  pretty : Bool

inductive Request
  | version
  | evaluate (config : Option String) (e : Evaluation)
  | parse (config : Option String) (formula : String)

open Given in
def evaluation? (given : List Given) : Option Evaluation := do
  let formula ← value? given .formula
  let receiver ← value? given .receiver
  some {
    formula, receiver
    operands := values given .operand
    width := if has given .double then .double else .single
    pretty := has given .pretty }

/-- The options behind the name of a command. -/
def commandOptions? (allowed : List Choice) (words : List String) : Option (List Given) :=
  match readOptions allowed words with
  | some (given, .finished) => if Given.areValid given then some given else none
  | _ => none

open Given in
/-- What the words of a command line ask for. The configuration that is named last counts. -/
def request? (words : List String) : Option Request := do
  let (given, ending) ← readOptions Choice.general words
  if ¬ areValid given then none
  else
    match ending with
    | .version => some .version
    | .command "eval" rest => do
        let own ← commandOptions? Choice.ofEvaluation rest
        let e ← evaluation? own
        some (.evaluate ((value? own .config).or (value? given .config)) e)
    | .command "parse" rest => do
        let own ← commandOptions? Choice.ofParsing rest
        let formula ← value? own .formula
        some (.parse ((value? own .config).or (value? given .config)) formula)
    | _ => none

end TensorFormula.Command
