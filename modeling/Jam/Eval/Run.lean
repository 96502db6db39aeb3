/-
Running whole texts, and pieces of them.

A piece of a program runs at a `Site`: in a frame, and with a number of
invocations already active around it. A program runs at the root, in a
world that may have seen other programs before: variables and rules stay.
It begins with no signal raised, and the signal left when it ends is none,
unless the program asked to exit.
-/
import Jam.Eval.Statements
import Jam.Syntax.Parse

namespace Jam

-- =============================================================== sites

/-- Where in the running of a program something runs. -/
structure Site where
  frame : FrameId := Scopes.root
  /-- How many invocations are active around it. -/
  depth : Nat := 0
deriving DecidableEq, Repr

/-- Outside of everything. -/
def Site.top : Site := {}

/-- The way to invoke rules at a site. -/
def Site.invoke (site : Site) (settings : Settings) : Invoke :=
  invokeWithin settings (settings.maxDepth - site.depth)

/-- One invocation more is active in the body of a rule than around it, and
the limit is looked at before the rule is entered. -/
theorem Site.invoke_eq (settings : Settings) (site : Site) (name : String)
    (rule : RuleDefinition) (arguments : List Value) (span : Span) :
    site.invoke settings site.frame name rule arguments span =
      if settings.maxDepth ≤ site.depth then
        throw (.error (.found (.recursionLimit name settings.maxDepth) span))
      else
        Eval.inside span <| Eval.inSubscope site.frame fun inner => do
          bindArguments settings inner rule.parameters arguments
          let callee : Site := ⟨inner, site.depth + 1⟩
          let value ← execBlock settings
              (callee.invoke settings) inner rule.body
          settle settings s!"rule '{name}'" rule.body.span
          return value := by
  unfold Site.invoke
  split
  · next h =>
    rw [Nat.sub_eq_zero_of_le h]
    rfl
  · next h =>
    have hd : settings.maxDepth - site.depth =
        settings.maxDepth - (site.depth + 1) + 1 := by
      omega
    rw [hd]
    rfl

/-- Run statements in order at a site. -/
def runStatements (settings : Settings) (site : Site)
    (statements : List Statement) : Eval Value :=
  execAll settings (site.invoke settings) site.frame statements []

/-- The value of a phrase at a site. -/
def Phrase.eval (settings : Settings) (site : Site) : Phrase → Eval Value
  | .literal l => return [l.text]
  | .identifier i => return [← Eval.read settings site.frame i.resolve]
  | .variable v => Eval.read settings site.frame v.value
  | .list l => Eval.read settings site.frame l.value
  | .statement s => s.exec settings (site.invoke settings) site.frame

/-- Run a whole program at a site. -/
def Program.eval (settings : Settings) (site : Site) (p : Program) :
    Eval Value := do
  let value ← runStatements settings site p.statements
  settle settings "the program" p.span
  return value

-- ============================================================ programs

/-- How a program ended. -/
structure Ending where
  /-- The value of the last statement that was run. -/
  value : Value
  /-- Exit if the program asked for it, else none. -/
  signal : Signal
deriving DecidableEq, Repr

/-- The variable that tells a program its targets. -/
def targetsVariable : String := "JAMTARGETS"

/-- Run a parsed program in a world. -/
def Program.runIn (settings : Settings) (p : Program) : Eval Ending := do
  modify (·.bind Scopes.root targetsVariable settings.targets)
  modify (·.raise .none)
  let value ← p.eval settings .top
  return ⟨value, (← get).signal⟩

/-- Read and run a source text. A text that does not parse changes nothing. -/
def runText (settings : Settings) (source text : String) : Eval Ending := do
  match Program.parse source text with
  | .ok p => p.runIn settings
  | .error e => throw (.error e)

end Jam
