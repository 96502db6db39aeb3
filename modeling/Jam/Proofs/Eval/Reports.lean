/-
What reporting does to a world.

Warnings go to the end of the record, those that the settings keep back
left out, and nothing else of the world is touched
(`World.warnAll_eq`). Reading words changes a world in this way only.
-/
import Jam.Eval.World

namespace Jam

/-- Whether an event is put on record: echoed text always, a warning unless
it is kept back. -/
def Settings.records (settings : Settings) : Event → Bool
  | .warned w => !settings.silences w.kind
  | .echoed _ => true

-- =================================================== parts of a record

theorem warningsOf_append (events more : List Event) :
    warningsOf (events ++ more) = warningsOf events ++ warningsOf more :=
  List.filterMap_append

theorem echoesOf_append (events more : List Event) :
    echoesOf (events ++ more) = echoesOf events ++ echoesOf more :=
  List.filterMap_append

@[simp] theorem warningsOf_warned (ws : List Warning) :
    warningsOf (ws.map .warned) = ws := by
  induction ws with
  | nil => rfl
  | cons w ws ih => exact congrArg (w :: ·) ih

@[simp] theorem echoesOf_warned (ws : List Warning) :
    echoesOf (ws.map .warned) = [] := by
  induction ws with
  | nil => rfl
  | cons w ws ih => exact ih

-- ============================================================= reports

namespace World

variable (settings : Settings) (world : World)

/-- The world with events added to its record. -/
def record (events : List Event) (world : World) : World :=
  { world with events := world.events ++ events.toArray }

@[simp] theorem record_nil : world.record [] = world := by
  simp [record]

theorem record_append (events more : List Event) :
    (world.record events).record more = world.record (events ++ more) := by
  simp [record]

theorem echo_eq (text : String) :
    world.echo text = world.record [.echoed text] := by
  simp [echo, record]

/-- A warning is recorded unless it is kept back. -/
theorem warn_eq (w : Warning) :
    world.warn settings w =
      world.record ([.warned w].filter settings.records) := by
  unfold warn
  by_cases h : settings.silences w.kind = true
  · simp [h, Settings.records]
  · simp [h, Settings.records, record]

/-- Of several warnings those are recorded that are not kept back. -/
theorem warnAll_eq (ws : List Warning) :
    world.warnAll settings ws =
      world.record ((ws.map .warned).filter settings.records) := by
  induction ws generalizing world with
  | nil => simp [warnAll]
  | cons w ws ih =>
    have hstep : world.warnAll settings (w :: ws) =
        (world.warn settings w).warnAll settings ws :=
      rfl
    rw [hstep, ih, warn_eq, record_append, ← List.filter_append]
    rfl

/-- The same, with the warnings chosen before they are put on record. -/
theorem warnAll_eq_map (ws : List Warning) :
    world.warnAll settings ws = world.record
      ((ws.filter fun w => settings.records (.warned w)).map .warned) := by
  rw [warnAll_eq, List.filter_map]
  rfl

@[simp] theorem warnAll_scopes (ws : List Warning) :
    (world.warnAll settings ws).scopes = world.scopes := by
  rw [warnAll_eq]
  rfl

@[simp] theorem warnAll_rules (ws : List Warning) :
    (world.warnAll settings ws).rules = world.rules := by
  rw [warnAll_eq]
  rfl

@[simp] theorem warnAll_signal (ws : List Warning) :
    (world.warnAll settings ws).signal = world.signal := by
  rw [warnAll_eq]
  rfl

end World

end Jam
