import TensorFormula.Command.Run

/-!
# The program

Reads the files that the command line names, runs it on them and prints the outcome.
-/

namespace TensorFormula.Command

def readingError : IO.Error → String
  | .noFileOrDirectory .. => "No such file or directory (os error 2)"
  | .permissionDenied .. => "Permission denied (os error 13)"
  | .inappropriateType .. => "Is a directory (os error 21)"
  | e => toString e

def readFile (path : String) : IO (Except String String) :=
  try
    let text ← IO.FS.readFile path
    return .ok text
  catch e => return .error (readingError e)

/-- The files with the given paths. -/
def readFiles (paths : List String) : IO Files := do
  let texts ← paths.mapM readFile
  let found := paths.zip texts
  return fun path => (found.lookup path).getD (.error "No such file or directory (os error 2)")

def Outcome.print (o : Outcome) : IO UInt32 := do
  IO.print o.output
  IO.eprint o.complaint
  return o.exitCode

end TensorFormula.Command

open TensorFormula.Command in
def main (words : List String) : IO UInt32 :=
  match request? words with
  | none => Outcome.usage.print
  | some r => do
      let files ← readFiles r.paths
      (r.run files).print
