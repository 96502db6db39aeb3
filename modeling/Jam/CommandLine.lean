/-
The command line.

A program is read from the input and run once. Its arguments are the
targets, and the variables of the environment are variables of the
program; one of them asks for the silence of the classic language about
unset variables and undefined rules.

What the program echoes is the output; warnings and the report of an
error are the error output. The status tells whether the program ran to
its end without asking to exit.
-/
import Jam.Eval.Session
import Jam.Report

namespace Jam.CommandLine

/-- What the command line is given. -/
structure Request where
  arguments : List String
  environment : List (String × String)
  input : ByteArray

/-- What the command line answers. -/
structure Response where
  status : Nat
  output : String
  errorOutput : String
deriving DecidableEq, Repr

/-- The name of the text that is read from the input. -/
def sourceName : String := "<stdin>"

/-- The variable that asks for the silence of the classic language. -/
def classicVariable : String := "JAMFRONT_CLASSIC"

/-- The settings that a request asks for. -/
def settings (r : Request) : Settings :=
  let classic := r.environment.findRev? (·.1 == classicVariable)
  let silent := classic.map (·.2) == some "1"
  { targets := r.arguments
    silentUnset := silent
    silentUndefinedRules := silent }

/-- Run the text that was read. -/
def respondTo (r : Request) (text : String) : Response :=
  let session : Session StreamReporter :=
    { settings := settings r
      scopes := Scopes.initial.importEnvironment r.environment
      reporter := {} }
  let (result, after) := session.run ⟨sourceName, text⟩
  let ⟨out, err⟩ := after.reporter
  match result with
  | .ok ending => ⟨if ending.signal = .exit then 1 else 0, out, err⟩
  | .error (.error e) => ⟨1, out, err ++ report text.toList e⟩
  | .error .outOfPasses | .error .unbalanced => ⟨1, out, err⟩

/-- Read the input as text and run it. -/
def respond (r : Request) : Response :=
  match String.fromUTF8? r.input with
  | some text => respondTo r text
  | none =>
    ⟨1, "",
      "failed to read source from stdin: stream did not contain valid UTF-8\n"⟩

/-- The variables in a block of `name=value` entries, each ended by NUL. -/
def environmentOf (block : String) : List (String × String) :=
  (block.splitOn "\x00").filterMap fun entry =>
    match entry.splitOn "=" with
    | name :: value :: more => some (name, "=".intercalate (value :: more))
    | _ => none

end Jam.CommandLine
