/-
Sessions: texts that are run one after another for one host.

Variables and rules stay from one text to the next. What is reported while
a text runs goes to a `Reporter`, in the order in which it came. A reporter
takes it and answers nothing.
-/
import Jam.Eval.Run

namespace Jam

variable {ρ : Type}

-- =========================================================== reporters

/-- What takes warnings and echoed text. -/
class Reporter (ρ : Type) where
  warning : ρ → Warning → ρ
  echo : ρ → String → ρ

/-- Keeps all it takes. -/
structure Collector where
  warnings : List Warning := []
  echoed : List String := []
deriving DecidableEq, Repr

instance : Reporter Collector where
  warning c w := { c with warnings := c.warnings ++ [w] }
  echo c text := { c with echoed := c.echoed ++ [text] }

/-- Writes echoed text to one stream, and warnings to another one, each as
a line. -/
structure StreamReporter where
  out : String := ""
  err : String := ""
deriving DecidableEq, Repr

instance : Reporter StreamReporter where
  warning s w := { s with err := s.err ++ (w.display ++ "\n") }
  echo s text := { s with out := s.out ++ (text ++ "\n") }

namespace Reporter

variable [Reporter ρ]

/-- Take what was reported. -/
def receive (reporter : ρ) : Event → ρ
  | .warned w => warning reporter w
  | .echoed text => echo reporter text

/-- Take a whole record in order. -/
def receiveAll (reporter : ρ) (events : List Event) : ρ :=
  events.foldl receive reporter

end Reporter

-- ============================================================ sessions

/-- A text and the name it is known by. -/
structure SourceText where
  name : String
  text : String
deriving DecidableEq, Repr

/-- What a host keeps from one text to the next. -/
structure Session (ρ : Type) where
  settings : Settings := {}
  scopes : Scopes := .initial
  rules : Table RuleDefinition := .empty
  reporter : ρ

namespace Session

variable [Reporter ρ]

/-- Run a text. -/
def run (s : Session ρ) (source : SourceText) :
    Except Halt Ending × Session ρ :=
  let (result, world) := (runText s.settings source.name source.text).runIn
    { scopes := s.scopes, rules := s.rules }
  (result, { s with
    scopes := world.scopes
    rules := world.rules
    reporter := Reporter.receiveAll s.reporter world.events.toList })

/-- Run texts in order. Each gives its result, and the session after it. -/
def runAll : Session ρ → List SourceText → List (Except Halt Ending × Session ρ)
  | _, [] => []
  | s, source :: sources =>
    let (result, after) := s.run source
    (result, after) :: after.runAll sources

end Session

end Jam
