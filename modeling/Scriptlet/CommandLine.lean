import Scriptlet.Session

/-!
# The command line

One argument is a script, or with `-f` the name of a file that holds one.  Flags
may stand before and after it, short ones may be written together, and the value
of an option may be attached to it or follow it.  After `--` nothing is an
option any more.  No option and no flag may be given twice.
-/

namespace Scriptlet

/-- What the command line asks for. -/
structure Options where
  /-- The argument is the name of a file. -/
  file : Bool
  /-- The name of the script in messages. -/
  name : Option String
  maxCallDepth : Option Nat
  /-- The value of the script is printed. -/
  printResult : Bool
  /-- The script, or the name of its file. -/
  contents : String
  deriving DecidableEq

/-- How the program ends: its exit status and what it wrote. -/
structure Report where
  code : UInt32
  output : String
  errors : String
  deriving DecidableEq

namespace CommandLine

/-- The options met so far. -/
structure Draft where
  file : Bool := false
  name : Option String := none
  maxCallDepth : Option Nat := none
  printResult : Bool := false
  contents : Option String := none
  deriving DecidableEq

/-- The options that stand for themselves. -/
inductive Flag where
  | file
  | printResult
  deriving DecidableEq

/-- The options that take a value. -/
inductive Setting where
  | name
  | maxCallDepth
  deriving DecidableEq

/-- An option. -/
inductive Switch where
  | flag (flag : Flag)
  | setting (setting : Setting)
  deriving DecidableEq

/-- The option with a long name. -/
def Switch.long? : String → Option Switch
  | "file" => some (.flag .file)
  | "print-result" => some (.flag .printResult)
  | "name" => some (.setting .name)
  | "max-call-depth" => some (.setting .maxCallDepth)
  | _ => none

/-- The option with a short name. -/
def Switch.short? : Char → Option Switch
  | 'f' => some (.flag .file)
  | 'p' => some (.flag .printResult)
  | 'n' => some (.setting .name)
  | _ => none

/-- A number of calls: decimal digits below `2 ^ 64`, perhaps after a plus sign. -/
def readCount? (text : List Char) : Option Nat :=
  let digits := match text with
    | '+' :: cs => cs
    | cs => cs
  if digits.isEmpty || !digits.all Digits.isDigit then none
  else
    let n := Digits.value digits
    if n < Nat.pow 2 64 then some n else none

namespace Draft

/-- Notes a flag that was not given before. -/
def raise? (d : Draft) : Flag → Option Draft
  | .file => if d.file then none else some { d with file := true }
  | .printResult => if d.printResult then none else some { d with printResult := true }

/-- Notes the value of an option that was not given before. -/
def set? (d : Draft) (s : Setting) (value : List Char) : Option Draft :=
  match s with
  | .name => if d.name.isSome then none else some { d with name := some (String.ofList value) }
  | .maxCallDepth =>
    if d.maxCallDepth.isSome then none
    else (readCount? value).map fun n => { d with maxCallDepth := some n }

/-- Notes the argument. -/
def put? (d : Draft) (value : List Char) : Option Draft :=
  if d.contents.isSome then none else some { d with contents := some (String.ofList value) }

/-- The options, if there was an argument. -/
def finish? (d : Draft) : Option Options :=
  d.contents.map fun contents => ⟨d.file, d.name, d.maxCallDepth, d.printResult, contents⟩

/-- Notes short options that are written together.  The last may be one that
takes a value: the value is what is left, without a `=` before it, and if
nothing is left the option waits for the next argument. -/
def shorts? (d : Draft) : List Char → Option (Draft × Option Setting)
  | [] => some (d, none)
  | c :: cs =>
    match Switch.short? c with
    | some (.flag flag) => (d.raise? flag).bind fun d => d.shorts? cs
    | some (.setting s) =>
      match cs with
      | [] => some (d, some s)
      | '=' :: value => (d.set? s value).map (·, none)
      | value => (d.set? s value).map (·, none)
    | none => none

/-- Notes a long option, whose value may follow a `=`. -/
def long? (d : Draft) (text : List Char) : Option (Draft × Option Setting) :=
  let key := text.takeWhile (· != '=')
  let value? := match text.dropWhile (· != '=') with
    | [] => none
    | _ :: value => some value
  match Switch.long? (String.ofList key), value? with
  | some (.flag flag), none => (d.raise? flag).map (·, none)
  | some (.setting s), some value => (d.set? s value).map (·, none)
  | some (.setting s), none => some (d, some s)
  | _, _ => none

end Draft

/-- Where the reading of the arguments stands. -/
inductive Stage where
  /-- Options may follow. -/
  | options
  /-- The value of this option must follow. -/
  | value (setting : Setting)
  /-- Options are over. -/
  | rest

/-- Reads the arguments one by one.  An argument that starts with a hyphen, a
lone hyphen apart, is an option and never the value of one. -/
def read? : Stage → Draft → List (List Char) → Option Draft
  | .value _, _, [] => none
  | _, d, [] => some d
  | .rest, d, arg :: args => (d.put? arg).bind fun d => read? .rest d args
  | .value s, d, arg :: args =>
    match arg with
    | '-' :: _ :: _ => none
    | value => (d.set? s value).bind fun d => read? .options d args
  | .options, d, arg :: args =>
    let continueWith : Option (Draft × Option Setting) → Option Draft := fun step =>
      match step with
      | none => none
      | some (d, none) => read? .options d args
      | some (d, some s) => read? (.value s) d args
    match arg with
    | ['-', '-'] => read? .rest d args
    | '-' :: '-' :: text => continueWith (d.long? text)
    | '-' :: c :: cs => continueWith (d.shorts? (c :: cs))
    | value => (d.put? value).bind fun d => read? .options d args

/-- What to do if the arguments make no sense. -/
def usage : String :=
  "usage: scriptlet [-f] [-n NAME] [-p] [--max-call-depth N] CONTENTS\n"

end CommandLine

namespace Options

/-- Reads the arguments of the command line. -/
def ofArguments? (args : List String) : Option Options :=
  (CommandLine.read? .options {} (args.map String.toList)).bind CommandLine.Draft.finish?

/-- The name of the script in messages. -/
def scriptName (o : Options) : String :=
  o.name.getD (if o.file then o.contents else "script")

/-- Lines as text. -/
def linesText (lines : Array String) : String :=
  lines.foldl (fun text line => text ++ line ++ "\n") ""

/-- Runs a script whose only function of the host is `print`.  The text is missing
if it was to come from a file that cannot be read. -/
def run (fuel : Nat) (o : Options) (text? : Option String) : Report :=
  match text? with
  | none =>
    ⟨1, "", "Failed to read the input file '" ++ o.contents
      ++ "'. Perhaps this file does not exist?\n"⟩
  | some text =>
    let machine := Session.start (o.maxCallDepth.getD Machine.defaultMaxCallDepth) [.print]
    match Session.runText fuel o.scriptName text machine with
    | (.done value?, m) =>
      let shown := match value? with
        | some value => if o.printResult then m.heap.render value ++ "\n" else ""
        | none => ""
      ⟨0, linesText m.output ++ shown, ""⟩
    | (.failed e, m) => ⟨1, linesText m.output, e.message ++ "\n"⟩
    | (.outOfFuel, m) => ⟨1, linesText m.output, "out of fuel\n"⟩

end Options

end Scriptlet
