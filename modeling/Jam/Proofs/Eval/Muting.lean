/-
Evaluation under settings that keep warnings back.

A world has a record, and nothing that is run looks at it. So with a kind
of warning kept back, everything is done as before, and the record is the
part of the full one that the settings let through.

# What is proved

Take out of the record of a world what settings keep back
(`World.keeping`). Running under these settings after that is the same as
running under settings that keep nothing back, and taking out afterwards
(`Eval.Muted`). This holds of each statement, each program and each text
(`Statement.exec_muted`, `Program.runIn_muted`, `runText_muted`). It is a
square that commutes, and squares are put together side by side: from it
for the small actions follows it for what these are parts of.
-/
import Jam.Proofs.Eval.Closure
import Jam.Proofs.Eval.Reports
import Jam.Eval.Run

namespace Jam

variable {α β : Type}

-- ====================================================== less on record

/-- The second settings differ from the first at most in what they keep
back, and the first keep nothing back. -/
structure Settings.Mutes (loud quiet : Settings) : Prop where
  targets : quiet.targets = loud.targets
  maxDepth : quiet.maxDepth = loud.maxDepth
  maxPasses : quiet.maxPasses = loud.maxPasses
  records : ∀ event, loud.records event = true

/-- The settings with these kinds of warnings kept back, and no others. -/
def Settings.silencing (settings : Settings) (unset undefinedRules : Bool) :
    Settings :=
  { settings with silentUnset := unset, silentUndefinedRules := undefinedRules }

theorem Settings.silencing_mutes (settings : Settings)
    (unset undefinedRules : Bool) :
    (settings.silencing false false).Mutes
      (settings.silencing unset undefinedRules) where
  targets := rfl
  maxDepth := rfl
  maxPasses := rfl
  records event := by
    cases event with
    | warned w =>
      cases hw : w.kind <;> simp only [records, silences, silencing, hw] <;> rfl
    | echoed text => rfl

namespace World

variable (keep : Event → Bool) (world : World)

/-- The world with part of its record. -/
def keeping (world : World) : World :=
  { world with events := world.events.filter keep }

theorem keeping_record (events : List Event) :
    (world.record events).keeping keep =
      (world.keeping keep).record (events.filter keep) := by
  have hevents : (world.events ++ events.toArray).filter keep =
      world.events.filter keep ++ (events.filter keep).toArray := by
    rw [Array.filter_append Array.size_append]
    exact congrArg (world.events.filter keep ++ ·) List.filter_toArray
  exact congrArg (fun events => ({ world with events } : World)) hevents

/-- Of what is put on record when nothing is kept back, part is put on
record otherwise. -/
theorem keeping_warnAll {loud quiet : Settings} (h : loud.Mutes quiet)
    (ws : List Warning) :
    (world.keeping quiet.records).warnAll quiet ws =
      (world.warnAll loud ws).keeping quiet.records := by
  have hall : (ws.map Event.warned).filter loud.records = ws.map Event.warned :=
    List.filter_eq_self.mpr fun event _ => h.records event
  rw [warnAll_eq, warnAll_eq, keeping_record, hall]

theorem keeping_signal : (world.keeping keep).signal = world.signal := rfl

theorem keeping_rules : (world.keeping keep).rules = world.rules := rfl

theorem keeping_lookup (frame : FrameId) :
    (world.keeping keep).lookup frame = world.lookup frame := rfl

/-- Opening a frame does not look at the record. -/
theorem enter_keeping (parent : FrameId) :
    (world.keeping keep).enter parent =
      ((world.enter parent).1, (world.enter parent).2.keeping keep) := rfl

end World

-- ============================================================ two runs

namespace Eval

/-- With part of the record taken out before, the second action does what
the first does with it taken out afterwards. -/
def Muted (keep : Event → Bool) (x y : Eval α) : Prop :=
  ∀ world, y.runIn (world.keeping keep) =
    ((x.runIn world).1, (x.runIn world).2.keeping keep)

namespace Muted

variable {keep : Event → Bool}

-- ======================================================= small actions

theorem pure (a : α) : Muted keep (Pure.pure a) (Pure.pure a : Eval α) :=
  fun _ => rfl

theorem throw (halt : Halt) :
    Muted keep (MonadExcept.throw halt) (MonadExcept.throw halt : Eval α) :=
  fun _ => rfl

theorem changing {f g : World → World}
    (h : ∀ world, g (world.keeping keep) = (f world).keeping keep) :
    Muted keep (modify f) (modify g) := fun world => by
  rw [runIn_modify, runIn_modify, h]

theorem raise (signal : Signal) :
    Muted keep (modify (·.raise signal)) (modify (·.raise signal)) :=
  .changing fun _ => rfl

theorem bindName (frame : FrameId) (name : String) (value : Value) :
    Muted keep (modify (·.bind frame name value))
      (modify (·.bind frame name value)) :=
  .changing fun _ => rfl

theorem assign (frame : FrameId) (name : String) (value : Value) :
    Muted keep (modify (·.assign frame name value))
      (modify (·.assign frame name value)) :=
  .changing fun _ => rfl

theorem define (name : String) (rule : RuleDefinition) :
    Muted keep (modify (·.define name rule)) (modify (·.define name rule)) :=
  .changing fun _ => rfl

-- ========================================================= composition

theorem bind {x y : Eval α} {f g : α → Eval β} (hx : Muted keep x y)
    (hf : ∀ a, Muted keep (f a) (g a)) : Muted keep (x >>= f) (y >>= g) := by
  intro world
  rw [runIn_bind, runIn_bind, hx world]
  cases hrun : x.runIn world with
  | mk result after =>
    cases result with
    | ok a => exact hf a after
    | error halt => rfl

/-- What is asked of a world must not be its record. -/
theorem get_bind {f g : World → Eval α}
    (h : ∀ world, Muted keep (f world) (g (world.keeping keep))) :
    Muted keep (get >>= f) (get >>= g) := by
  intro world
  rw [runIn_bind, runIn_bind]
  exact h world world

theorem congruent : Congruent fun (_ _ : Unit) _ x y => Muted keep x y where
  pure _ _ a := .pure a
  bind := .bind

theorem forM {γ : Type} {f g : γ → Eval Unit} (h : ∀ a, Muted keep (f a) (g a))
    (as : List γ) : Muted keep (as.forM f) (as.forM g) :=
  congruent.forM (i := ()) as fun a _ => h a

theorem inSubscope {frame : FrameId} {body body' : FrameId → Eval α}
    (h : ∀ inner, Muted keep (body inner) (body' inner)) :
    Muted keep (inSubscope frame body) (inSubscope frame body') := by
  intro world
  have hbody := h (world.enter frame).1 (world.enter frame).2
  rw [runIn_inSubscope, runIn_inSubscope, World.enter_keeping]
  dsimp only
  rw [hbody]
  -- The number of open frames is asked for, which is no part of the record.
  show (if
    ((body (world.enter frame).1).runIn (world.enter frame).2).2.scopes.depth =
    (world.enter frame).1 + 1 then _ else _) = _
  split <;> rfl

theorem inside {x y : Eval α} (span : Span) (h : Muted keep x y) :
    Muted keep (inside span x) (inside span y) := by
  intro world
  rw [runIn_inside, runIn_inside, h world]
  cases hrun : x.runIn world with
  | mk result after =>
    cases result with
    | ok a => rfl
    | error halt => cases halt <;> rfl

theorem loopEnds : Muted keep loopEnds loopEnds := by
  unfold Jam.loopEnds
  refine .get_bind fun world => ?_
  rw [World.keeping_signal]
  cases world.signal with
  | none => exact .pure _
  | «continue» => exact .bind (.raise .none) fun _ => .pure _
  | «break» => exact .bind (.raise .none) fun _ => .pure _
  | «return» => exact .pure _
  | exit => exact .pure _

theorem forEach {body body' : String → Eval Value}
    (h : ∀ x, Muted keep (body x) (body' x)) (values : List String)
    (last : Value) :
    Muted keep (forEach body values last) (forEach body' values last) :=
  congruent.forEach (i := ()) (j := ()) .loopEnds h values last

theorem repeatWhile {test test' : Eval Bool} {body body' : Eval Value}
    (ht : Muted keep test test') (hb : Muted keep body body') (passes : Nat)
    (last : Value) :
    Muted keep (repeatWhile test body passes last)
      (repeatWhile test' body' passes last) := by
  refine congruent.repeatWhile (i := ()) (j := ()) .loopEnds ht hb
    (Nat.le_refl passes) ?_ last
  rintro y (hlt | rfl)
  · exact absurd hlt (Nat.lt_irrefl passes)
  · exact .throw .outOfPasses

theorem assignVariable (frame : FrameId) (op : AssignOp) (name : String)
    (value : Value) :
    Muted keep (assignVariable frame op name value)
      (assignVariable frame op name value) := by
  unfold Jam.assignVariable
  refine .get_bind fun world => ?_
  rw [World.keeping_lookup]
  split
  · exact .pure _
  · exact .bind (.assign frame name _) fun _ => .pure _
  · exact .bind (.assign frame name value) fun _ => .pure _

theorem bindAll (frame : FrameId) (value : Value) (names : List String) :
    Muted keep (bindAll frame value names) (bindAll frame value names) :=
  .forM (fun name => .bindName frame name value) names

-- ========================================================== what warns

/-- Echoed text is never kept back. -/
theorem echoFirst (settings : Settings) (arguments : List Value) :
    Muted settings.records (echoFirst arguments) (echoFirst arguments) :=
  .changing fun world => by
    rw [World.echo_eq, World.echo_eq, World.keeping_record]
    rfl

variable {loud quiet : Settings} (h : loud.Mutes quiet)
include h

theorem warn (kind : WarningKind) (message : String) (span : Span) :
    Muted quiet.records (Eval.warn loud kind message span)
      (Eval.warn quiet kind message span) :=
  .changing fun world => world.keeping_warnAll h [⟨kind, message, some span⟩]

theorem read (frame : FrameId) (reading : Environment → Reading α) :
    Muted quiet.records (read loud frame reading)
      (read quiet frame reading) := by
  intro world
  rw [runIn_read, runIn_read, World.keeping_lookup, World.keeping_warnAll _ h]

theorem settle (place : String) (span : Span) :
    Muted quiet.records (settle loud place span) (settle quiet place span) := by
  unfold Jam.settle
  refine .get_bind fun world => ?_
  rw [World.keeping_signal]
  cases world.signal with
  | none => exact .pure ()
  | «continue» => exact .bind (.raise .none) fun _ => .warn h _ _ span
  | «break» => exact .bind (.raise .none) fun _ => .warn h _ _ span
  | «return» => exact .raise .none
  | exit => exact .pure ()

theorem invokeUndefined (name : String) (arguments : List Value) (span : Span) :
    Muted quiet.records (invokeUndefined loud name arguments span)
      (invokeUndefined quiet name arguments span) := by
  unfold Jam.invokeUndefined
  split
  · exact .bind (.echoFirst quiet arguments) fun _ => .pure []
  · exact .bind (.echoFirst quiet arguments) fun _ =>
      .bind (.raise .exit) fun _ => .pure []
  · exact .bind (.warn h _ _ span) fun _ => .pure []

theorem bindArguments (frame : FrameId) (parameters : List Identifier)
    (arguments : List Value) :
    Muted quiet.records (bindArguments loud frame parameters arguments)
      (bindArguments quiet frame parameters arguments) := by
  refine .bind (.forM (fun (value, n) => .bindName frame (toString n) value) _)
    fun _ => ?_
  refine .forM (fun (parameter, i) => ?_) _
  exact .bind (.read h frame parameter.resolve) fun name =>
    .bindName frame name _

end Muted

end Eval

-- ========================================================== evaluation

section Evaluation

open Eval (Muted)

variable {loud quiet : Settings}

/-- Two ways to invoke rules, the second with part of the record. -/
def Invoke.Muted (keep : Event → Bool) (invoke invoke' : Invoke) : Prop :=
  ∀ frame name rule arguments span,
    Eval.Muted keep (invoke frame name rule arguments span)
      (invoke' frame name rule arguments span)

variable {invoke invoke' : Invoke}

mutual

theorem Statement.exec_muted (h : loud.Mutes quiet)
    (hi : invoke.Muted quiet.records invoke') {frame : FrameId} :
    ∀ s : Statement, Muted quiet.records (s.exec loud invoke frame)
      (s.exec quiet invoke' frame)
  | .invocation name arguments span => by
    rw [Statement.exec, Statement.exec]
    refine .bind (.read h frame _) fun name =>
      .bind (.read h frame _) fun arguments => ?_
    refine .get_bind fun world => ?_
    rw [World.keeping_rules]
    split
    · exact hi frame name _ arguments span
    · exact .invokeUndefined h name arguments span
  | .assignment name op value _ => by
    rw [Statement.exec, Statement.exec]
    exact .bind (.read h frame _) fun name =>
      .bind (.read h frame _) fun value =>
      .assignVariable frame op name value
  | .localBinding names none _ => by
    rw [Statement.exec, Statement.exec]
    exact .bind (.read h frame _) fun names => .bind (.pure []) fun value =>
      .bind (.bindAll frame value names) fun _ => .pure value
  | .localBinding names (some value) _ => by
    rw [Statement.exec, Statement.exec]
    exact .bind (.read h frame _) fun names =>
      .bind (.read h frame _) fun value =>
      .bind (.bindAll frame value names) fun _ => .pure value
  | .returnWith value _ => by
    rw [Statement.exec, Statement.exec]
    exact .bind (.read h frame _) fun value => .bind (.raise .return) fun _ =>
      .pure value
  | .breakLoop _ => .bind (.raise .break) fun _ => .pure []
  | .continueLoop _ => .bind (.raise .continue) fun _ => .pure []
  | .block b => by
    rw [Statement.exec, Statement.exec]
    exact .inSubscope fun _ => execBlock_muted h hi b
  | .choice condition yes none _ => by
    rw [Statement.exec, Statement.exec]
    refine .bind (.read h frame _) fun holds => ?_
    split
    · exact .inSubscope fun _ => execBlock_muted h hi yes
    · exact .pure []
  | .choice condition yes (some no) _ => by
    rw [Statement.exec, Statement.exec]
    refine .bind (.read h frame _) fun holds => ?_
    split
    · exact .inSubscope fun _ => execBlock_muted h hi yes
    · exact Statement.exec_muted h hi no
  | .forLoop name values body _ => by
    rw [Statement.exec, Statement.exec]
    refine .bind (.read h frame _) fun name =>
      .bind (.read h frame _) fun values => ?_
    refine .forEach (fun x => .inSubscope fun inner => ?_) values []
    exact .bind (.bindName inner name [x]) fun _ => execBlock_muted h hi body
  | .whileLoop condition body _ => by
    rw [Statement.exec, Statement.exec, h.maxPasses]
    exact .repeatWhile (.read h frame _)
      (.inSubscope fun _ => execBlock_muted h hi body) _ []
  | .definition rule => by
    rw [Statement.exec, Statement.exec]
    exact .bind (.read h frame _) fun name => .bind (.define name rule) fun _ =>
      .pure []

theorem execBlock_muted (h : loud.Mutes quiet)
    (hi : invoke.Muted quiet.records invoke') {frame : FrameId} :
    ∀ b : Block, Muted quiet.records (execBlock loud invoke frame b)
      (execBlock quiet invoke' frame b)
  | ⟨statements, _⟩ => execAll_muted h hi statements []

theorem execAll_muted (h : loud.Mutes quiet)
    (hi : invoke.Muted quiet.records invoke') {frame : FrameId} :
    ∀ (ss : List Statement) (last : Value), Muted quiet.records
      (execAll loud invoke frame ss last) (execAll quiet invoke' frame ss last)
  | [], last => .pure last
  | s :: ss, _ => by
    rw [execAll, execAll]
    refine .bind (Statement.exec_muted h hi s) fun value =>
      .get_bind fun world => ?_
    rw [World.keeping_signal]
    split
    · exact execAll_muted h hi ss value
    · exact .pure value

end

variable (h : loud.Mutes quiet)
include h

theorem invokeWithin_muted (further : Nat) :
    (invokeWithin loud further).Muted quiet.records
      (invokeWithin quiet further) := by
  induction further with
  | zero =>
    intro frame name rule arguments span
    rw [invokeWithin, invokeWithin, h.maxDepth]
    exact .throw _
  | succ further ih =>
    intro frame name rule arguments span
    refine .inside span (.inSubscope fun inner => ?_)
    refine .bind (.bindArguments h inner rule.parameters arguments) fun _ => ?_
    refine .bind (execBlock_muted h ih rule.body) fun value => ?_
    exact .bind (.settle h _ rule.body.span) fun _ => .pure value

theorem Program.eval_muted (site : Site) (p : Program) :
    Muted quiet.records (p.eval loud site) (p.eval quiet site) := by
  have hi : (site.invoke loud).Muted quiet.records (site.invoke quiet) := by
    unfold Site.invoke
    rw [h.maxDepth]
    exact invokeWithin_muted h _
  refine .bind (execAll_muted h hi p.statements []) fun value => ?_
  exact .bind (.settle h _ p.span) fun _ => .pure value

theorem Program.runIn_muted (p : Program) :
    Muted quiet.records (p.runIn loud) (p.runIn quiet) := by
  unfold Program.runIn
  rw [h.targets]
  refine .bind (.bindName _ _ _) fun _ => .bind (.raise .none) fun _ => ?_
  exact .bind (p.eval_muted h .top) fun value => .get_bind fun world => .pure _

theorem runText_muted (source text : String) :
    Muted quiet.records (runText loud source text)
      (runText quiet source text) := by
  unfold runText
  split
  · next p _ => exact p.runIn_muted h
  · exact .throw _

end Evaluation

end Jam
