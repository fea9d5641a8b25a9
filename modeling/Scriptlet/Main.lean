import Scriptlet.CommandLine

/-!
# The program

Reads the file, if one is meant, and writes what the run reports.
-/

namespace Scriptlet

/-- Fuel for a run from the command line: more steps than a computer takes. -/
def runFuel : Nat := Nat.pow 2 62

/-- The text of a file, if it can be read. -/
def readText? (path : String) : IO (Option String) := do
  try
    let text ← IO.FS.readFile path
    pure (some text)
  catch _ =>
    pure none

/-- Runs the program with its arguments and gives its exit status. -/
def runProgram (args : List String) : IO UInt32 := do
  match Options.ofArguments? args with
  | none =>
    IO.eprint CommandLine.usage
    pure 2
  | some options =>
    let text? ← if options.file then readText? options.contents else pure (some options.contents)
    let report := options.run runFuel text?
    IO.print report.output
    IO.eprint report.errors
    pure report.code

end Scriptlet

def main (args : List String) : IO UInt32 :=
  Scriptlet.runProgram args
