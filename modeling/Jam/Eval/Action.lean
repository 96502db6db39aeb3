/-
Actions: what running a piece of a program is.

An action takes a world and leaves a world, and has a value unless it
breaks down. The world it leaves counts in both cases. Actions are put
together from a few that do one thing each:

- `Eval.read` reads words in a frame and changes nothing but the record;
- `Eval.warn` adds to the record;
- `Eval.inSubscope` runs an action in a frame of its own. Frames are
  opened and closed by it alone, and closed also when the action breaks
  down. It checks that frames are closed in the opposite of the order in
  which they were opened;
- `Eval.inside` lets the errors of an action tell what they lie within.

The lemmas `runIn_…` say what each of them does to a world.
-/
import Jam.Eval.World
import Jam.Eval.Words

namespace Jam

-- ============================================================= actions

/-- Why an action has no value. -/
inductive Halt
  /-- The program is at fault. -/
  | error (e : Error)
  /-- A while loop made all the passes it may make. -/
  | outOfPasses
  /-- A frame was to be closed that is not the one opened last. -/
  | unbalanced
deriving Repr, DecidableEq

/-- What changes a world and has a value, or else breaks down. -/
abbrev Eval (α : Type) := ExceptT Halt (StateM World) α

namespace Eval

/-- Run an action in a world. -/
def runIn {α : Type} (x : Eval α) (world : World) : Except Halt α × World :=
  x.run world

/-- An action by its effect. -/
def ofRun {α : Type} (f : World → Except Halt α × World) : Eval α :=
  ExceptT.mk f

/-- Read with the variables that a frame sees, and record the warnings. -/
def read {α : Type} (settings : Settings) (frame : FrameId)
    (reading : Environment → Reading α) : Eval α :=
  ofRun fun world =>
    let (result, warnings) := (reading (world.lookup frame)).results
    (result.mapError Halt.error, world.warnAll settings warnings.toList)

/-- Record a warning. -/
def warn (settings : Settings) (kind : WarningKind) (message : String)
    (span : Span) : Eval Unit :=
  modify (·.warn settings ⟨kind, message, some span⟩)

/-- Run `body` in a new frame below `parent`, and close the frame, which by
then has to be the one opened last. -/
def inSubscope {α : Type} (parent : FrameId) (body : FrameId → Eval α) :
    Eval α :=
  ofRun fun world =>
    let (frame, world) := world.enter parent
    let (result, world) := (body frame).runIn world
    if world.scopes.depth = frame + 1 then (result, world.leave frame)
    else (.error .unbalanced, world.leave frame)

/-- Let errors tell what they lie within. -/
def inside {α : Type} (span : Span) (x : Eval α) : Eval α :=
  ofRun fun world =>
    match x.runIn world with
    | (.error (.error e), world) => (.error (.error (e.within span)), world)
    | outcome => outcome

end Eval

namespace Eval

variable {α β : Type} (world : World)

@[simp] theorem runIn_pure (a : α) :
    (pure a : Eval α).runIn world = (.ok a, world) := rfl

/-- An action is followed by the next one only if it has a value. -/
theorem runIn_bind (x : Eval α) (f : α → Eval β) :
    (x >>= f).runIn world =
      match x.runIn world with
      | (.ok a, world) => (f a).runIn world
      | (.error h, world) => (.error h, world) := by
  change (ExceptT.run x >>= ExceptT.bindCont f : StateM World _) world = _
  change (let (r, world) :=
    x.runIn world; (ExceptT.bindCont f r : StateM World _) world) = _
  rcases x.runIn world with ⟨_ | _, _⟩ <;> rfl

@[simp] theorem runIn_throw (h : Halt) :
    (throw h : Eval α).runIn world = (.error h, world) := rfl

@[simp] theorem runIn_get :
    (get : Eval World).runIn world = (.ok world, world) := rfl

@[simp] theorem runIn_modify (f : World → World) :
    (modify f : Eval Unit).runIn world = (.ok (), f world) := rfl

@[simp] theorem runIn_warn (settings : Settings) (kind : WarningKind)
    (message : String) (span : Span) :
    (warn settings kind message span).runIn world =
      (.ok (), world.warn settings ⟨kind, message, some span⟩) := rfl

theorem runIn_read (settings : Settings) (frame : FrameId)
    (reading : Environment → Reading α) :
    (read settings frame reading).runIn world =
      ((reading (world.lookup frame)).results.1.mapError Halt.error,
        world.warnAll settings
        (reading (world.lookup frame)).results.2.toList) := rfl

theorem runIn_inSubscope (parent : FrameId) (body : FrameId → Eval α) :
    (inSubscope parent body).runIn world =
      match (body (world.enter parent).1).runIn (world.enter parent).2 with
      | (result, inner) =>
        if inner.scopes.depth = (world.enter parent).1 + 1 then
          (result, inner.leave (world.enter parent).1)
        else (.error .unbalanced, inner.leave (world.enter parent).1) := rfl

theorem runIn_inside (span : Span) (x : Eval α) :
    (inside span x).runIn world =
      match x.runIn world with
      | (.error (.error e), world) => (.error (.error (e.within span)), world)
      | outcome => outcome := rfl

end Eval

end Jam
