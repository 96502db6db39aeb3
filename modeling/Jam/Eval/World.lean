/-
The world a program runs in.

A `World` is everything that running a program can change: the variables,
the rules that are defined, the signal by which statements break off what
they stand in, and the record of what was reported. `Settings` is what it
cannot change.

Reporting is recording: `World.events` holds warnings and echoed text in
the order in which they came. What a host makes of the record is a
function of it, either two lists (`warningsOf`, `echoesOf`) or the text
of two streams (`outputOf`, `errorOutputOf`).
-/
import Jam.Scopes
import Jam.Diagnostic

namespace Jam

-- ============================================================ settings

/-- What the host decides once and for all. -/
structure Settings where
  /-- The targets that are asked for. -/
  targets : Value := []
  /-- Reading a variable without a value is not reported. -/
  silentUnset : Bool := false
  /-- Invoking a rule that does not exist is not reported. -/
  silentUndefinedRules : Bool := false
  /-- How many invocations of rules may be active at once. -/
  maxDepth : Nat := 100
  /-- How many passes one while loop may make. -/
  maxPasses : Nat := 1_000_000_000_000_000_000
deriving Repr, DecidableEq

/-- Whether warnings of a kind are kept back. -/
def Settings.silences (settings : Settings) : WarningKind → Bool
  | .unsetVariable => settings.silentUnset
  | .undefinedRule => settings.silentUndefinedRules
  | .subscriptOutOfRange | .strayControlFlow => false

-- ============================================================= reports

/-- Something that was reported. -/
inductive Event
  | warned (w : Warning)
  | echoed (text : String)
deriving DecidableEq, Repr

/-- The warnings of a record. -/
def warningsOf (events : List Event) : List Warning :=
  events.filterMap fun
    | .warned w => some w
    | .echoed _ => none

/-- The echoed texts of a record. -/
def echoesOf (events : List Event) : List String :=
  events.filterMap fun
    | .warned _ => none
    | .echoed text => some text

/-- Texts as lines. -/
def linesOf (texts : List String) : String :=
  String.join (texts.map (· ++ "\n"))

/-- What a record writes to the output of a host. -/
def outputOf (events : List Event) : String := linesOf (echoesOf events)

/-- What a record writes to the error output of a host. -/
def errorOutputOf (events : List Event) : String :=
  linesOf ((warningsOf events).map Warning.display)

-- =========================================================== the world

/-- How a statement breaks off what it stands in. -/
inductive Signal
  /-- Not at all. -/
  | none
  | break
  | continue
  | return
  | exit
deriving DecidableEq, Repr

/-- All that running a program can change. -/
structure World where
  scopes : Scopes := .initial
  rules : Table RuleDefinition := .empty
  signal : Signal := .none
  events : Array Event := #[]
deriving Repr

namespace World

/-- Record a warning, unless the settings keep it back. -/
def warn (settings : Settings) (w : Warning) (world : World) : World :=
  if settings.silences w.kind then world
  else { world with events := world.events.push (.warned w) }

/-- Record warnings in order. -/
def warnAll (settings : Settings) (ws : List Warning) (world : World) : World :=
  ws.foldl (fun world w => world.warn settings w) world

/-- Record an echoed text. -/
def echo (text : String) (world : World) : World :=
  { world with events := world.events.push (.echoed text) }

/-- Raise a signal, in place of the one there is. -/
def raise (signal : Signal) (world : World) : World := { world with signal }

/-- The value of a variable, seen from a frame. -/
def lookup (frame : FrameId) (world : World) (name : String) : Option Value :=
  world.scopes.find? frame name

/-- Give a variable a value in a frame. -/
def bind (frame : FrameId) (name : String) (value : Value) (world : World) :
    World :=
  { world with scopes := world.scopes.set frame name value }

/-- Give a variable a value where it has one, or globally. -/
def assign (frame : FrameId) (name : String) (value : Value) (world : World) :
    World :=
  { world with scopes := world.scopes.assign frame name value }

/-- Define a rule, in place of the one there was. -/
def define (name : String) (rule : RuleDefinition) (world : World) : World :=
  { world with rules := world.rules.insert name rule }

/-- Open a frame below `parent`. Inside it, no signal is raised yet. -/
def enter (parent : FrameId) (world : World) : FrameId × World :=
  let (frame, scopes) := world.scopes.createSubscope parent
  (frame, { world with scopes, signal := .none })

/-- Close a frame. The signal raised inside it stays raised. -/
def leave (frame : FrameId) (world : World) : World :=
  { world with scopes := world.scopes.release frame }

end World

end Jam
