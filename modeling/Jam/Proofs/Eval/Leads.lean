/-
What a run can do to a world, whatever it runs.

Running a statement in a frame makes few kinds of steps: something is
reported, a signal is raised, a variable gets a value, a rule is defined,
and a frame of its own is opened, used and closed. `Leads` relates two
worlds if such steps lead from the one to the other. It forgets in which
order a program makes them and keeps what most statements about variables
and rules need:

- a variable is bound only in the frame of the running statement, and only
  if the statement may declare there (the flag `own`);
- it is assigned through that frame;
- a rule gets defined only if every statement of its body is allowed;
- frames are opened below that frame, and closed again.

What is allowed is a parameter, a predicate on statements. Since rules
come from the world and the world's rules from the programs that were
run, it is also what the rules of the world are known to obey
(`World.RulesObey`).

# What is proved

- `Leads.depth`, `Leads.parent?`: frames that were open stay open, with
  the same parents, and no others remain.
- `Leads.binds_mono`, `Leads.binds_only`: names stay bound, and only the
  root and the frame of the statement bind new ones, the latter only if
  the statement may declare there.
- `Leads.rules`: the rules of the world go on obeying.
-/
import Jam.Eval.World
import Jam.Proofs.Scopes.Frames
import Jam.Proofs.Syntax.Nodes

namespace Jam

variable {allowed : Statement → Prop} {own : Bool} {frame : FrameId}
  {before after : World}

-- ======================================================== the relation

/-- Every statement in the body of every rule is allowed. -/
def World.RulesObey (allowed : Statement → Prop) (world : World) : Prop :=
  ∀ name rule, world.rules.find? name = some rule → ∀ s ∈ rule.body.nodes,
    allowed s

/-- Steps of a run in `frame` lead from one world to another. -/
inductive Leads (allowed : Statement → Prop) :
    Bool → FrameId → World → World → Prop
  | refl {own frame world} : Leads allowed own frame world world
  | trans {own frame before middle after} :
      Leads allowed own frame before middle →
      Leads allowed own frame middle after →
      Leads allowed own frame before after
  /-- Something is reported. -/
  | report {own frame world} (event : Event) :
      Leads allowed own frame world
        { world with events := world.events.push event }
  | raise {own frame world} (signal : Signal) :
      Leads allowed own frame world (world.raise signal)
  /-- A variable is bound in a frame that the run may declare in. -/
  | bind {frame world} (name : String) (value : Value) :
      Leads allowed true frame world (world.bind frame name value)
  | assign {own frame world} (name : String) (value : Value) :
      Leads allowed own frame world (world.assign frame name value)
  | define {own frame world} (name : String) (rule : RuleDefinition) :
      (∀ s ∈ rule.body.nodes, allowed s) →
      Leads allowed own frame world (world.define name rule)
  /-- A frame is opened, run in, and closed. -/
  | inside {own frame world after} :
      Leads allowed true (world.enter frame).1 (world.enter frame).2 after →
      Leads allowed own frame world (after.leave (world.enter frame).1)

namespace Leads

-- ============================================================= reports

theorem warn (settings : Settings) (w : Warning) :
    Leads allowed own frame before (before.warn settings w) := by
  unfold World.warn
  split
  · exact .refl
  · exact .report (.warned w)

theorem warnAll (settings : Settings) (ws : List Warning) :
    Leads allowed own frame before (before.warnAll settings ws) := by
  induction ws generalizing before with
  | nil => exact .refl
  | cons w ws ih => exact .trans (.warn settings w) ih

-- ============================================================== frames

theorem depth_enter (world : World) (frame : FrameId) :
    (world.enter frame).2.scopes.depth = (world.enter frame).1 + 1 :=
  Scopes.depth_createSubscope world.scopes frame

theorem depth_leave {world : World} {frame : FrameId} (h : frame ≠ Scopes.root)
    (hd : world.scopes.depth = frame + 1) :
    (world.leave frame).scopes.depth = frame :=
  Scopes.depth_release world.scopes frame h (hd ▸ Nat.le_succ frame)

theorem enter_ne_root (world : World) (frame : FrameId) :
    (world.enter frame).1 ≠ Scopes.root :=
  Nat.ne_of_gt world.scopes.depth_pos

/-- No frame is left open, and none is closed that was open. -/
theorem depth (h : Leads allowed own frame before after) :
    after.scopes.depth = before.scopes.depth := by
  induction h with
  | refl | report | raise | define => rfl
  | trans _ _ ih₁ ih₂ => exact ih₂.trans ih₁
  | bind name value => exact Scopes.depth_set ..
  | assign name value => exact Scopes.depth_set ..
  | @inside own frame world after _ ih =>
    rw [depth_enter] at ih
    exact depth_leave (enter_ne_root world frame) ih

/-- Frames that were open keep their parents. -/
theorem parent? (h : Leads allowed own frame before after) (id : FrameId) :
    after.scopes.parent? id = before.scopes.parent? id := by
  by_cases hid : id < before.scopes.depth
  · induction h with
    | refl | report | raise | define => rfl
    | trans h₁ _ ih₁ ih₂ => exact (ih₂ (h₁.depth ▸ hid)).trans (ih₁ hid)
    | bind name value => exact Scopes.parent?_set ..
    | assign name value => exact Scopes.parent?_set ..
    | @inside own frame world after h ih =>
      have hin := ih (by rw [depth_enter]; exact Nat.lt_succ_of_lt hid)
      calc (after.leave (world.enter frame).1).scopes.parent? id
          = after.scopes.parent? id := Scopes.parent?_release _ _ hid
        _ = (world.enter frame).2.scopes.parent? id := hin
        _ = world.scopes.parent? id := Scopes.parent?_createSubscope _ _ hid
  · -- a frame that is not open has no parent, before and after
    have hb : before.scopes.parent? id = none := by
      simpa [← Scopes.isSome_parent?] using hid
    have ha : after.scopes.parent? id = none := by
      simpa [← Scopes.isSome_parent?, ← h.depth] using hid
    rw [ha, hb]

-- =============================================================== names

/-- A name that is bound in an open frame stays bound there. -/
theorem binds_mono (h : Leads allowed own frame before after) {id : FrameId}
    {name : String} (hb : before.scopes.Binds id name) :
    after.scopes.Binds id name := by
  induction h with
  | refl | report | raise | define => exact hb
  | trans _ _ ih₁ ih₂ => exact ih₂ (ih₁ hb)
  | bind other value => exact hb.set ..
  | assign other value => exact hb.set ..
  | @inside own frame world after h ih =>
    have hlt := hb.lt_depth
    have hin : (world.enter frame).2.scopes.Binds id name :=
      (Scopes.binds_createSubscope ..).mpr hb
    exact (Scopes.binds_release _ _ _ hlt).mpr (ih hin)

/-- Only the root and the frame of the run get new names, the latter only
if the run may declare in it. -/
theorem binds_only (h : Leads allowed own frame before after) {id : FrameId}
    {name : String} (hid : id < before.scopes.depth) (hroot : id ≠ Scopes.root)
    (hown : own = true → id ≠ frame) (hb : after.scopes.Binds id name) :
    before.scopes.Binds id name := by
  induction h with
  | refl | report | raise | define => exact hb
  | trans h₁ _ ih₁ ih₂ => exact ih₁ hid hown (ih₂ (h₁.depth ▸ hid) hown hb)
  | bind other value => exact hb.of_set _ _ _ (.inl (hown rfl))
  | @assign own frame world other value =>
    refine Scopes.Binds.of_set (world.scopes.target frame other) other
      value hb ?_
    rcases Scopes.binds_target world.scopes frame other with ht | ht
    · exact .inr ht
    · exact .inl (ht ▸ hroot)
  | @inside own frame world after h ih =>
    have hne : id ≠ (world.enter frame).1 := Nat.ne_of_lt hid
    have hlt : id < (world.enter frame).2.scopes.depth := by
      rw [depth_enter]
      exact Nat.lt_succ_of_lt hid
    have hin := ih hlt (fun _ => hne) ((Scopes.binds_release _ _ _ hid).mp hb)
    exact (Scopes.binds_createSubscope ..).mp hin

-- =============================================================== rules

/-- Rules obey afterwards if they did before. -/
theorem rules (h : Leads allowed own frame before after)
    (hr : before.RulesObey allowed) : after.RulesObey allowed := by
  induction h with
  | refl | report | raise | bind | assign => exact hr
  | trans _ _ ih₁ ih₂ => exact ih₂ (ih₁ hr)
  | define name rule hrule =>
    intro other found hf
    simp only [World.define, Table.find?_insert] at hf
    split at hf
    · cases hf
      exact hrule
    · exact hr other found hf
  | inside _ ih => exact ih hr

end Leads

end Jam
