/-
Running statements.

A statement is an action in a frame. Three things bound what it can do:

- the statement itself: its parts are run, nothing else of it;
- the passes a while loop may make, a number from the settings;
- the depth of invocations. Rules are looked up when they are invoked, so
  the body of a rule is no part of the statement that invokes it. The
  statement is therefore run with a way to invoke rules given
  (`Invoke`), and `invokeWithin` gives one for every number of further
  invocations, each from the one below.
-/
import Jam.Eval.Action

namespace Jam

/-- How a rule is invoked: the frame of the invocation, the name, the rule,
the arguments, and the place. -/
abbrev Invoke :=
  FrameId → String → RuleDefinition → List Value → Span → Eval Value

open Eval (inSubscope inside)

-- ============================================================= signals

/-- Whether a loop ends with the pass that was just made. A break or
continue has then done its work. -/
def loopEnds : Eval Bool := do
  match (← get).signal with
  | .none => return false
  | .continue => modify (·.raise .none); return false
  | .break => modify (·.raise .none); return true
  | .return | .exit => return true

/-- Warn about a break or continue that found no loop. -/
def warnStray (settings : Settings) (keyword place : String) (span : Span) :
    Eval Unit :=
  Eval.warn settings .strayControlFlow
    s!"'{keyword}' escaped {place} outside of any loop" span

/-- End the body of a rule or program: a return is done, a break or
continue went too far, an exit goes on. -/
def settle (settings : Settings) (place : String) (span : Span) :
    Eval Unit := do
  match (← get).signal with
  | .return => modify (·.raise .none)
  | .break =>
    modify (·.raise .none)
    warnStray settings "break" place span
  | .continue =>
    modify (·.raise .none)
    warnStray settings "continue" place span
  | .exit | .none => return

-- =============================================================== loops

/-- Run `body` for each value, until a pass ends the loop. The value of the
loop is that of its last pass, and `last` if there is none. -/
def forEach (body : String → Eval Value) : List String → Value → Eval Value
  | [], last => return last
  | x :: xs, _ => do
    let value ← body x
    if ← loopEnds then return value else forEach body xs value

/-- Run `body` while `test` holds, but not more often than given. -/
def repeatWhile (test : Eval Bool) (body : Eval Value) :
    Nat → Value → Eval Value
  | passes, last => do
    if ← test then
      match passes with
      | 0 => throw .outOfPasses
      | passes + 1 => do
        let value ← body
        if ← loopEnds then return value else repeatWhile test body passes value
    else return last

-- ====================================================== built-in rules

/-- The rules that exist without being defined. -/
inductive BuiltIn
  /-- Echo the first argument. -/
  | echo
  /-- Echo the first argument and end the program. -/
  | exit
deriving DecidableEq, Repr

/-- The built-in rule with a name. -/
def BuiltIn.ofName? (name : String) : Option BuiltIn :=
  if name = "Echo" ∨ name = "ECHO" ∨ name = "echo" then some echo
  else if name = "Exit" ∨ name = "EXIT" ∨ name = "exit" then some exit
  else none

/-- Echo the first of some arguments. -/
def echoFirst (arguments : List Value) : Eval Unit :=
  modify (·.echo (Value.display (arguments.head?.getD [])))

/-- Invoke a rule that is not defined: a built-in one, or none. -/
def invokeUndefined (settings : Settings) (name : String)
    (arguments : List Value) (span : Span) : Eval Value := do
  match BuiltIn.ofName? name with
  | some .echo => echoFirst arguments
  | some .exit =>
    echoFirst arguments
    modify (·.raise .exit)
  | none =>
    Eval.warn settings .undefinedRule
      s!"rule '{name}' was invoked but was never defined" span
  return []

-- ========================================================== statements

/-- Assign to a variable; the value is what the variable then has. -/
def assignVariable (frame : FrameId) (op : AssignOp) (name : String)
    (value : Value) : Eval Value := do
  match op, (← get).lookup frame name with
  | .keep, some current => return current
  | .append, some current =>
    modify (·.assign frame name (current ++ value))
    return current ++ value
  | _, _ =>
    modify (·.assign frame name value)
    return value

/-- Give variables of a frame the same value. -/
def bindAll (frame : FrameId) (value : Value) (names : List String) :
    Eval Unit :=
  names.forM fun name => modify (·.bind frame name value)

mutual

/-- Run a statement in a frame. -/
def Statement.exec (settings : Settings) (invoke : Invoke) (frame : FrameId) :
    Statement → Eval Value
  | .invocation name arguments span => do
    let name ← Eval.read settings frame name.resolve
    let arguments ← Eval.read settings frame (listValues · arguments)
    match (← get).rules.find? name with
    | some rule => invoke frame name rule arguments span
    | none => invokeUndefined settings name arguments span
  | .assignment name op value _ => do
    let name ← Eval.read settings frame name.resolve
    let value ← Eval.read settings frame value.value
    assignVariable frame op name value
  | .localBinding names value _ => do
    let names ← Eval.read settings frame names.value
    let value ← match value with
      | some value => Eval.read settings frame value.value
      | none => pure []
    bindAll frame value names
    return value
  | .returnWith value _ => do
    let value ← Eval.read settings frame value.value
    modify (·.raise .return)
    return value
  | .breakLoop _ => do
    modify (·.raise .break)
    return []
  | .continueLoop _ => do
    modify (·.raise .continue)
    return []
  | .block b => inSubscope frame fun inner => execBlock settings invoke inner b
  | .choice condition yes none _ => do
    if ← Eval.read settings frame condition.holds then
      inSubscope frame fun inner => execBlock settings invoke inner yes
    else return []
  | .choice condition yes (some no) _ => do
    if ← Eval.read settings frame condition.holds then
      inSubscope frame fun inner => execBlock settings invoke inner yes
    else no.exec settings invoke frame
  | .forLoop name values body _ => do
    let name ← Eval.read settings frame name.resolve
    let values ← Eval.read settings frame values.value
    forEach (fun x => inSubscope frame fun inner => do
      modify (·.bind inner name [x])
      execBlock settings invoke inner body) values []
  | .whileLoop condition body _ =>
    repeatWhile (Eval.read settings frame condition.holds)
      (inSubscope frame fun inner => execBlock settings invoke inner body)
      settings.maxPasses []
  | .definition rule => do
    let name ← Eval.read settings frame rule.name.resolve
    modify (·.define name rule)
    return []
termination_by structural s => s

/-- Run the statements of a block in a frame that is already its own. -/
def execBlock (settings : Settings) (invoke : Invoke) (frame : FrameId) :
    Block → Eval Value
  | ⟨statements, _⟩ => execAll settings invoke frame statements []
termination_by structural b => b

/-- Run statements in order, until one raises a signal. The value is that of
the last one run, and `last` if there is none. -/
def execAll (settings : Settings) (invoke : Invoke) (frame : FrameId) :
    List Statement → Value → Eval Value
  | [], last => return last
  | s :: ss, _ => do
    let value ← s.exec settings invoke frame
    if (← get).signal = .none then execAll settings invoke frame ss value
    else return value
termination_by structural ss => ss

end

-- =============================================================== rules

/-- Bind the arguments of an invocation: by number, then by the names of the
parameters, of which one may depend on those before it. -/
def bindArguments (settings : Settings) (frame : FrameId)
    (parameters : List Identifier) (arguments : List Value) : Eval Unit := do
  (arguments.zipIdx 1).forM fun (value, n) =>
    modify (·.bind frame (toString n) value)
  parameters.zipIdx.forM fun (parameter, i) => do
    let name ← Eval.read settings frame parameter.resolve
    modify (·.bind frame name (arguments[i]?.getD []))

/-- Invoke rules, with at most so many invocations active inside each other
from here on. -/
def invokeWithin (settings : Settings) : Nat → Invoke
  | 0 => fun _ name _ _ span =>
    throw (.error (.found (.recursionLimit name settings.maxDepth) span))
  | further + 1 => fun frame name rule arguments span =>
    inside span <| inSubscope frame fun inner => do
      bindArguments settings inner rule.parameters arguments
      let value ← execBlock settings
          (invokeWithin settings further) inner rule.body
      settle settings s!"rule '{name}'" rule.body.span
      return value

end Jam
