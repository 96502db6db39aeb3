/-
What the small actions of a run do to its signal, and how they fail.

Between the statements that a run consists of there are only actions of few
kinds. Most of them are plain (`Eval.Plain`): they leave the signal as it
is, and fail at most because something could not be read. What deals with
signals is a raising statement, the end of a pass (`loopEnds`), the end of
a rule (`settle`), and frames, which begin without a signal and leave the
one they end with.
-/
import Jam.Proofs.Eval.Reports
import Jam.Proofs.Eval.Steps
import Jam.Proofs.Eval.Words

namespace Jam

variable {α β : Type}

namespace Eval

-- ======================================================= plain actions

/-- The action leaves the signal alone and fails only with errors of
readings. -/
structure Plain (x : Eval α) : Prop where
  signal : ∀ world : World, (x.runIn world).2.signal = world.signal
  halts : ∀ world halt, (x.runIn world).1 = .error halt → ∃ e,
    halt = .error e ∧ e.OfReading

namespace Plain

theorem pure (a : α) : Plain (Pure.pure a : Eval α) where
  signal _ := rfl
  halts _ _ h := nomatch h

theorem changing {f : World → World}
    (h : ∀ world, (f world).signal = world.signal) : Plain (modify f) where
  signal world := h world
  halts _ _ h := nomatch h

theorem warn (settings : Settings) (kind : WarningKind) (message : String)
    (span : Span) : Plain (Eval.warn settings kind message span) := by
  refine .changing fun world => ?_
  rw [World.warn_eq]
  rfl

theorem read (settings : Settings) (frame : FrameId)
    {reading : Environment → Reading α} (h : ∀ env, (reading env).Sound) :
    Plain (Eval.read settings frame reading) where
  signal world := by
    rw [runIn_read]
    exact World.warnAll_signal ..
  halts world halt hh := by
    rw [runIn_read] at hh
    cases hr : (reading (world.lookup frame)).results.1 with
    | ok a =>
      rw [hr] at hh
      cases hh
    | error e =>
      rw [hr] at hh
      cases hh
      exact ⟨e, rfl, (h _).results hr⟩

theorem bind {x : Eval α} {f : α → Eval β} (hx : Plain x)
    (hf : ∀ a, Plain (f a)) : Plain (x >>= f) where
  signal := view_bind (·.signal) hx.signal fun a => (hf a).signal
  halts world halt h := by
    rw [runIn_bind] at h
    split at h
    · next a middle _ => exact (hf a).halts middle halt h
    · next halt' middle hrun =>
      cases h
      exact hx.halts world halt (by rw [hrun])

theorem get_bind {f : World → Eval α} (hf : ∀ world, Plain (f world)) :
    Plain (get >>= f) where
  signal world := (hf world).signal world
  halts world := (hf world).halts world

theorem closed : Closed Plain where
  pure := .pure
  bind := .bind
  get_bind := .get_bind

theorem forM {γ : Type} {f : γ → Eval Unit} (h : ∀ a, Plain (f a))
    (as : List γ) : Plain (as.forM f) := closed.forM as fun a _ => h a

theorem assignVariable (frame : FrameId) (op : AssignOp) (name : String)
    (value : Value) : Plain (assignVariable frame op name value) :=
  closed.assignVariable (fun _ => .changing fun _ => rfl) op value

theorem bindName (frame : FrameId) (name : String) (value : Value) :
    Plain (modify (·.bind frame name value)) :=
  .changing fun _ => rfl

theorem bindAll (frame : FrameId) (value : Value) (names : List String) :
    Plain (bindAll frame value names) :=
  .forM (fun name => .bindName frame name value) names

theorem bindArguments (settings : Settings) (frame : FrameId)
    (parameters : List Identifier) (arguments : List Value) :
    Plain (bindArguments settings frame parameters arguments) := by
  refine .bind (.forM (fun entry => .bindName ..) _) fun _ =>
    .forM (fun entry => ?_) _
  exact .bind (.read settings frame fun env => entry.1.resolve_sound env)
    fun name => .bindName ..

/-- Without an exit, what is done for a rule that is not defined is plain. -/
theorem invokeUndefined (settings : Settings) {name : String}
    (arguments : List Value) (span : Span)
    (h : BuiltIn.ofName? name ≠ some .exit) :
    Plain (invokeUndefined settings name arguments span) := by
  unfold Jam.invokeUndefined
  split
  · exact .bind (.changing fun _ => rfl) fun _ => .pure []
  · next hb => exact absurd hb h
  · exact .bind (.warn settings _ _ span) fun _ => .pure []

/-- What follows a plain action is run with the signal there was, unless a
reading failed. -/
theorem elim {x : Eval α} {f : α → Eval β} (hx : Plain x) (world : World)
    (P : Except Halt β × World → Prop)
    (failed : ∀ e after, x.runIn world = (.error (.error e), after) →
      e.OfReading → after.signal = world.signal → P (.error (.error e), after))
    (done : ∀ a after, x.runIn world = (.ok a, after) →
      after.signal = world.signal → P ((f a).runIn after)) :
    P ((x >>= f).runIn world) := by
  have hs := hx.signal world
  have hh := hx.halts world
  rw [runIn_bind]
  cases hrun : x.runIn world with
  | mk result after =>
    rw [hrun] at hs hh
    cases result with
    | ok a => exact done a after hrun hs
    | error halt =>
      obtain ⟨e, rfl, he⟩ := hh halt rfl
      exact failed e after hrun he hs

theorem signal_of_run {x : Eval α} (hx : Plain x) {world after : World}
    {result : Except Halt α} (h : x.runIn world = (result, after)) :
    after.signal = world.signal := by
  have hs := hx.signal world
  rw [h] at hs
  exact hs

-- ==================================================== plain statements

section Statements

variable {settings : Settings} {invoke : Invoke} {frame : FrameId}

theorem assignment (i : Identifier) (op : AssignOp) (value : WordList)
    (span : Span) :
    Plain
      ((Statement.assignment i op value span).exec settings invoke frame) := by
  rw [Statement.exec]
  refine .bind (.read settings frame i.resolve_sound) fun name => ?_
  exact .bind (.read settings frame value.value_sound) fun value =>
    .assignVariable ..

theorem localBinding (names : WordList) (value : Option WordList)
    (span : Span) :
    Plain ((Statement.localBinding names value span).exec settings invoke
      frame) := by
  rw [Statement.exec]
  refine .bind (.read settings frame names.value_sound) fun names => ?_
  have binds (value : Value) :
      Plain (do Jam.bindAll frame value names; return value) :=
    .bind (.bindAll frame value names) fun _ => .pure value
  cases value with
  | none => exact .bind (.pure []) binds
  | some value => exact .bind (.read settings frame value.value_sound) binds

theorem definition (rule : RuleDefinition) :
    Plain ((Statement.definition rule).exec settings invoke frame) := by
  rw [Statement.exec]
  refine .bind (.read settings frame rule.name.resolve_sound) fun name => ?_
  exact .bind (.changing fun _ => rfl) fun _ => .pure []

end Statements

end Plain

-- ============================================================== values

/-- Two actions have a value together if each has one. -/
theorem runIn_bind_ok {x : Eval α} {f : α → Eval β} {world after : World}
    {b : β} (h : (x >>= f).runIn world = (.ok b, after)) :
    ∃ a middle, x.runIn world = (.ok a, middle) ∧
      (f a).runIn middle = (.ok b, after) := by
  rw [runIn_bind] at h
  split at h
  · next a middle hrun => exact ⟨a, middle, hrun, h⟩
  · next halt middle hrun =>
    have : (Except.error halt : Except Halt β) = .ok b := congrArg Prod.fst h
    cases this

/-- What follows an action with a value is run in the world it leaves. -/
theorem runIn_bind_of_ok {x : Eval α} {f : α → Eval β} {world after : World}
    {a : α} (h : x.runIn world = (.ok a, after)) :
    (x >>= f).runIn world = (f a).runIn after := by
  rw [runIn_bind, h]

/-- What is read leaves nothing but its warnings. -/
theorem runIn_read_ok {settings : Settings} {frame : FrameId}
    {reading : Environment → Reading α} {world after : World} {a : α}
    (h : (read settings frame reading).runIn world = (.ok a, after)) :
    ∃ warnings, (reading (world.lookup frame)).results = (.ok a, warnings) ∧
      after = world.warnAll settings warnings.toList := by
  rw [runIn_read] at h
  cases hr : (reading (world.lookup frame)).results with
  | mk result warnings =>
    rw [hr] at h
    cases result with
    | ok b =>
      cases h
      exact ⟨warnings, rfl, rfl⟩
    | error e => cases h

theorem runIn_get_bind (f : World → Eval α) (world : World) :
    (get >>= f).runIn world = (f world).runIn world := rfl

/-- If the first of them is plain, the second one is run with the signal there
was. -/
theorem Plain.runIn_bind_ok {x : Eval α} {f : α → Eval β} (hx : Plain x)
    {world after : World} {b : β} (h : (x >>= f).runIn world = (.ok b, after)) :
    ∃ a middle,
      middle.signal = world.signal ∧ (f a).runIn middle = (.ok b, after) := by
  obtain ⟨a, middle, hrun, h⟩ := Eval.runIn_bind_ok h
  exact ⟨a, middle, hx.signal_of_run hrun, h⟩

-- ============================================================= signals

/-- After a pass, a break or continue has done its work. -/
theorem runIn_loopEnds (world : World) :
    loopEnds.runIn world =
      (.ok (world.signal != .none && world.signal != .continue),
        if world.signal = .break ∨ world.signal = .continue then
          world.raise .none
        else world) := by
  unfold loopEnds
  rw [runIn_get_bind]
  cases world.signal <;> rfl

/-- The end of a rule lets an exit pass and nothing else. -/
theorem runIn_settle (settings : Settings) (place : String) (span : Span)
    (world : World) :
    (settle settings place span).runIn world =
      (.ok (), ((settle settings place span).runIn world).2) ∧
    ((settle settings place span).runIn world).2.signal =
      (if world.signal = .exit then .exit else .none) := by
  unfold settle
  rw [runIn_get_bind]
  cases hs : world.signal <;>
    simp [hs, runIn_bind, warnStray, World.warn_eq, World.raise, World.record]

/-- So there is an exit afterwards if there was one before. -/
theorem settle_exit_iff (settings : Settings) (place : String) (span : Span)
    (world : World) :
    ((settle settings place span).runIn world).2.signal = .exit ↔
      world.signal = .exit := by
  rw [(runIn_settle settings place span world).2]
  split
  · next h => exact ⟨fun _ => h, fun _ => rfl⟩
  · next h => exact ⟨nofun, fun he => absurd he h⟩

/-- The built-in rule that exits echoes, and raises the signal. -/
theorem runIn_invokeUndefined_exit (settings : Settings) {name : String}
    (arguments : List Value) (span : Span)
    (h : BuiltIn.ofName? name = some .exit) (world : World) :
    (invokeUndefined settings name arguments span).runIn world =
      (.ok [], ((echoFirst arguments).runIn world).2.raise .exit) := by
  unfold invokeUndefined
  rw [h]
  rfl

/-- An exit is passed on as it is. -/
theorem runIn_settle_exit (settings : Settings) (place : String) (span : Span)
    {world : World} (h : world.signal = .exit) :
    (settle settings place span).runIn world = (.ok (), world) := by
  unfold settle
  rw [runIn_get_bind]
  simp only [h]
  rfl

-- ============================================================== frames

/-- What is run in a frame of its own is run in the world with that frame open,
and then the frame is closed, since it is closed in its turn. -/
theorem runIn_inSubscope_of_steps {frame : FrameId} {body : FrameId → Eval α}
    (h : ∀ inner, Steps (fun _ => True) true inner (body inner))
    (world : World) :
    (inSubscope frame body).runIn world =
      (((body (world.enter frame).1).runIn (world.enter frame).2).1,
        ((body (world.enter frame).1).runIn (world.enter frame).2).2.leave
          (world.enter frame).1) := by
  have hl := (h (world.enter frame).1).leads (world.enter frame).2
    fun _ _ _ _ _ => trivial
  have hd := hl.depth.trans (Leads.depth_enter world frame)
  rw [runIn_inSubscope]
  dsimp only
  rw [if_pos hd]

end Eval

end Jam
