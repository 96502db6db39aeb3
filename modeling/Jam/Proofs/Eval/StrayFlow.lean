/-
Breaks and continues that find no loop.

A break is a signal, raised in one place and taken in at another one: by a
loop, or, if there is none, by the end of the rule or of the program, which
then warns. The rule that is invoked is looked up while the program runs.
So whether a break finds a loop is a question about runs; but the answer can
be read off the text.

`Statement.confined` looks at the text alone: each break and each continue
stands in the body of a loop, and no definition of a rule lies between them.

# What is proved

- Part one of `stray_flow_is_lexical`: where programs and rules are confined,
  no run warns about a stray break or continue, whatever becomes of it, and
  the rules there are afterwards are confined again.
- Part two: whatever the program is, a break or continue that is left by the
  body of an invoked rule is reported once and goes no further. The
  invocation ends without a signal, and what stands behind it is run.

The invariant of part one is `Kept`. What a statement can leave depends on
whether it stands in a loop (`Signal.Fits`), and `Eval.Flows` says which
signals an action may be begun with and which it may leave. Loops lead from
one to the other: a pass is begun outside and left inside of the loop, and
the end of the pass (`Flows.loopEnds`) is the way back.
-/
import Jam.Proofs.Eval.Exiting
import Jam.Proofs.Syntax.Outcome

namespace Jam

variable {settings : Settings} {site : Site} {world after : World} {α β : Type}

-- ================================================= confined statements

mutual

/-- Whether every break and continue in a statement has a loop: one inside the
statement, or one that the statement stands in. -/
def Statement.confined (inLoop : Bool) : Statement → Bool
  | .breakLoop _ | .continueLoop _ => inLoop
  | .block b => b.confined inLoop
  | .choice _ yes none _ => yes.confined inLoop
  | .choice _ yes (some no) _ => yes.confined inLoop && no.confined inLoop
  | .forLoop _ _ body _ | .whileLoop _ body _ => body.confined true
  | .definition rule => rule.confined
  | .invocation .. | .assignment .. | .localBinding .. | .returnWith .. => true
termination_by structural s => s

def Block.confined (inLoop : Bool) : Block → Bool
  | ⟨statements, _⟩ => allConfined inLoop statements
termination_by structural b => b

/-- The body of a rule stands in no loop, wherever the rule is defined. -/
def RuleDefinition.confined : RuleDefinition → Bool
  | ⟨_, _, body, _⟩ => body.confined false
termination_by structural r => r

def allConfined (inLoop : Bool) : List Statement → Bool
  | [] => true
  | s :: ss => s.confined inLoop && allConfined inLoop ss
termination_by structural ss => ss

end

/-- A program stands in no loop. -/
def Program.confined (p : Program) : Bool := allConfined false p.statements

/-- The rules of the world are confined. -/
def World.RulesConfined (world : World) : Prop :=
  ∀ name rule, world.rules.find? name = some rule → rule.confined = true

theorem World.RulesConfined.define {name : String} {rule : RuleDefinition}
    (h : world.RulesConfined) (hr : rule.confined = true) :
    (world.define name rule).RulesConfined := by
  intro other found hf
  rw [World.define, Table.find?_insert] at hf
  split at hf
  · cases hf
    exact hr
  · exact h other found hf

-- ====================================================== stray warnings

/-- The warnings of a world about a break or continue that found no loop. -/
def World.strays (world : World) : List Warning :=
  (warningsOf world.events.toList).filter fun w => w.kind = .strayControlFlow

theorem World.strays_record (events : List Event) (world : World) :
    (world.record events).strays = world.strays ++
      (warningsOf events).filter fun w => w.kind = .strayControlFlow := by
  rw [World.strays, World.record, Array.toList_append, warningsOf_append,
    List.filter_append]
  rfl

/-- Warnings of other kinds are none of them. -/
theorem World.strays_warnAll (settings : Settings) (ws : List Warning)
    (world : World) (h : ∀ w ∈ ws, w.kind ≠ .strayControlFlow) :
    (world.warnAll settings ws).strays = world.strays := by
  have hnone : (ws.filter fun w => settings.records (.warned w)).filter
      (fun w => w.kind = .strayControlFlow) = [] :=
    List.filter_eq_nil_iff.mpr fun w hw hk =>
      h w (List.mem_filter.mp hw).1 (of_decide_eq_true hk)
  rw [World.warnAll_eq_map, World.strays_record, warningsOf_warned, hnone,
    List.append_nil]

namespace Eval

/-- The action defines no rule, and warns of no stray break or continue. -/
structure Calm (x : Eval α) : Prop where
  rules : ∀ world : World, (x.runIn world).2.rules = world.rules
  strays : ∀ world : World, (x.runIn world).2.strays = world.strays

namespace Calm

theorem pure (a : α) : Calm (Pure.pure a : Eval α) :=
  ⟨fun _ => rfl, fun _ => rfl⟩

theorem bindName (frame : FrameId) (name : String) (value : Value) :
    Calm (modify (·.bind frame name value) : Eval Unit) :=
  ⟨fun _ => rfl, fun _ => rfl⟩

theorem assign (frame : FrameId) (name : String) (value : Value) :
    Calm (modify (·.assign frame name value) : Eval Unit) :=
  ⟨fun _ => rfl, fun _ => rfl⟩

theorem warn (settings : Settings) {kind : WarningKind}
    (h : kind ≠ .strayControlFlow) (message : String) (span : Span) :
    Calm (Eval.warn settings kind message span) where
  rules world := world.warnAll_rules settings [⟨kind, message, some span⟩]
  strays world :=
    World.strays_warnAll settings [⟨kind, message, some span⟩] world
    (List.forall_mem_singleton.mpr h)

/-- Reading warns of other things. -/
theorem read (settings : Settings) (frame : FrameId)
    {reading : Environment → Reading α} (h : ∀ env, (reading env).Built) :
    Calm (Eval.read settings frame reading) where
  rules world := by
    rw [runIn_read]
    exact world.warnAll_rules settings _
  strays world := by
    rw [runIn_read]
    refine World.strays_warnAll settings _ world fun w hw hk => ?_
    have hkind := (h (world.lookup frame)).warnings w hw
    rw [hk] at hkind
    exact hkind

theorem bind {x : Eval α} {f : α → Eval β} (hx : Calm x)
    (hf : ∀ a, Calm (f a)) : Calm (x >>= f) where
  rules := view_bind (·.rules) hx.rules fun a => (hf a).rules
  strays := view_bind (·.strays) hx.strays fun a => (hf a).strays

theorem get_bind {f : World → Eval α} (hf : ∀ world, Calm (f world)) :
    Calm (get >>= f) :=
  ⟨fun world => (hf world).rules world, fun world => (hf world).strays world⟩

theorem closed : Closed Calm where
  pure := .pure
  bind := .bind
  get_bind := .get_bind

theorem forM {γ : Type} {f : γ → Eval Unit} (h : ∀ a, Calm (f a))
    (as : List γ) : Calm (as.forM f) := closed.forM as fun a _ => h a

theorem bindAll (frame : FrameId) (value : Value) (names : List String) :
    Calm (bindAll frame value names) :=
  .forM (fun name => .bindName frame name value) names

theorem bindArguments (settings : Settings) (frame : FrameId)
    (parameters : List Identifier) (arguments : List Value) :
    Calm (bindArguments settings frame parameters arguments) := by
  refine .bind (.forM (fun entry => .bindName ..) _) fun _ =>
    .forM (fun entry => ?_) _
  exact .bind (.read settings frame fun env => entry.1.resolve_built env)
    fun name => .bindName ..

theorem assignVariable (frame : FrameId) (op : AssignOp) (name : String)
    (value : Value) : Calm (assignVariable frame op name value) :=
  closed.assignVariable (fun _ => .assign frame name _) op value

theorem echoFirst (arguments : List Value) : Calm (echoFirst arguments) where
  rules _ := rfl
  strays world := by
    have hrun : ((Jam.echoFirst arguments).runIn world).2 =
        world.echo (Value.display (arguments.head?.getD [])) := rfl
    rw [hrun, World.echo_eq, World.strays_record]
    exact List.append_nil _

theorem invokeUndefined (settings : Settings) (name : String)
    (arguments : List Value) (span : Span) :
    Calm (invokeUndefined settings name arguments span) :=
  closed.invokeUndefined (.echoFirst arguments) ⟨fun _ => rfl, fun _ => rfl⟩
    (fun message => .warn settings (by decide) message span) name

/-- A calm action leaves the stray warnings that there are. -/
theorem strays_of_run {x : Eval α} {result : Except Halt α} (hx : Calm x)
    (h : x.runIn world = (result, after)) : after.strays = world.strays := by
  have hs := hx.strays world
  rw [h] at hs
  exact hs

end Calm

end Eval

-- ==================================================== signals that fit

/-- A break or continue fits in a loop only. -/
def Signal.Fits (inLoop : Bool) (signal : Signal) : Prop :=
  signal = .break ∨ signal = .continue → inLoop = true

namespace Signal.Fits

variable {signal : Signal} {inLoop : Bool}

theorem none : Fits inLoop .none := by rintro (h | h) <;> cases h

theorem «return» : Fits inLoop .return := by rintro (h | h) <;> cases h

theorem exit : Fits inLoop .exit := by rintro (h | h) <;> cases h

theorem inside : Fits true signal := fun _ => rfl

theorem weaken (h : Fits false signal) : Fits inLoop signal :=
  fun hs => nomatch h hs

end Signal.Fits

-- ======================================================= the invariant

/-- No break and no continue went astray, rules are confined, and with a value
there is a signal that fits. -/
structure Kept (leaving : Bool) (world : World)
    (outcome : Except Halt α × World) : Prop where
  rules : outcome.2.RulesConfined
  strays : outcome.2.strays = world.strays
  fits : ∀ a, outcome.1 = .ok a → outcome.2.signal.Fits leaving

namespace Eval

/-- The action, begun with a signal that fits `entry`, keeps the invariant and
leaves a signal that fits `leaving`. -/
structure Flows (entry leaving : Bool) (x : Eval α) : Prop where
  kept : ∀ world, world.RulesConfined → world.signal.Fits entry →
    Kept leaving world (x.runIn world)

namespace Flows

variable {entry middle leaving inLoop : Bool}

-- ====================================================== atomic actions

theorem pure (a : α) : Flows inLoop inLoop (Pure.pure a : Eval α) where
  kept _ hr hs := ⟨hr, rfl, fun _ _ => hs⟩

theorem throw (halt : Halt) : Flows entry leaving (throw halt : Eval α) where
  kept _ hr _ := ⟨hr, rfl, fun _ h => nomatch h⟩

/-- What is calm and leaves the signal alone keeps the invariant. -/
theorem of_calm {x : Eval α} (hc : Calm x) (hp : Plain x) :
    Flows inLoop inLoop x where
  kept world hr hs :=
    { rules := fun name rule hf => hr name rule (hc.rules world ▸ hf)
      strays := hc.strays world
      fits := fun _ _ => (hp.signal world).symm ▸ hs }

theorem bindName (frame : FrameId) (name : String) (value : Value) :
    Flows inLoop inLoop (modify (·.bind frame name value) : Eval Unit) :=
  .of_calm (.bindName frame name value) (.bindName frame name value)

theorem read (settings : Settings) (frame : FrameId)
    {reading : Environment → Reading α} (h : ∀ env, (reading env).Built) :
    Flows inLoop inLoop (Eval.read settings frame reading) :=
  .of_calm (.read settings frame h)
    (.read settings frame fun env => (h env).sound)

theorem raise {signal : Signal} (h : signal.Fits leaving) :
    Flows entry leaving (modify (·.raise signal) : Eval Unit) where
  kept _ hr _ := ⟨hr, rfl, fun _ _ => h⟩

-- ========================================================= composition

theorem bind {x : Eval α} {f : α → Eval β} (hx : Flows entry middle x)
    (hf : ∀ a, Flows middle leaving (f a)) : Flows entry leaving (x >>= f) where
  kept world hr hs := by
    have hk := hx.kept world hr hs
    rw [runIn_bind]
    split
    · next a after hrun =>
      rw [hrun] at hk
      have hk' := (hf a).kept after hk.rules (hk.fits a rfl)
      exact ⟨hk'.rules, hk'.strays.trans hk.strays, hk'.fits⟩
    · next halt after hrun =>
      rw [hrun] at hk
      exact ⟨hk.rules, hk.strays, fun _ h => nomatch h⟩

/-- What an action is begun with and what it leaves is whether it stands in a
loop. -/
theorem congruent :
    Congruent fun entry leaving _ (x _ : Eval _) => Flows entry leaving x where
  pure _ _ a := .pure a
  bind := .bind

/-- What is done with the world is done with one that keeps the invariant. -/
theorem get_bind {f : World → Eval α}
    (hf : ∀ world, world.RulesConfined → world.signal.Fits entry →
      Kept leaving world ((f world).runIn world)) :
    Flows entry leaving (get >>= f) where
  kept world hr hs := hf world hr hs

theorem weaken {x : Eval α} (h : Flows entry false x) :
    Flows entry leaving x where
  kept world hr hs :=
    have hk := h.kept world hr hs
    ⟨hk.rules, hk.strays, fun a ha => (hk.fits a ha).weaken⟩

/-- Inside a frame of its own no signal is raised yet. -/
theorem inSubscope {frame : FrameId} {body : FrameId → Eval α}
    (h : ∀ inner, Flows false leaving (body inner)) :
    Flows entry leaving (inSubscope frame body) where
  kept world hr _ := by
    have hk := (h (world.enter frame).1).kept (world.enter frame).2 hr .none
    rw [runIn_inSubscope]
    dsimp only
    split
    · exact ⟨hk.rules, hk.strays, hk.fits⟩
    · exact ⟨hk.rules, hk.strays, fun _ h => nomatch h⟩

theorem inside {x : Eval α} (span : Span) (hx : Flows entry leaving x) :
    Flows entry leaving (inside span x) where
  kept world hr hs := by
    have hk := hx.kept world hr hs
    rw [runIn_inside]
    split
    · next hrun =>
      rw [hrun] at hk
      exact ⟨hk.rules, hk.strays, fun _ h => nomatch h⟩
    · exact hk

-- ====================================================== loops and ends

/-- The end of a pass takes in a break or continue. -/
theorem loopEnds : Flows true false loopEnds := by
  unfold Jam.loopEnds
  refine .get_bind fun world hr hs => ?_
  have ends (b : Bool) :
      Flows true false (do modify (·.raise .none); return b : Eval Bool) :=
    .bind (.raise .none) fun _ => .pure b
  split
  · next h => exact ⟨hr, rfl, fun _ _ => h ▸ .none⟩
  · exact (ends false).kept world hr hs
  · exact (ends true).kept world hr hs
  · next h => exact ⟨hr, rfl, fun _ _ => h ▸ .return⟩
  · next h => exact ⟨hr, rfl, fun _ _ => h ▸ .exit⟩

/-- The end of a rule does not warn if the signal fits outside of loops. -/
theorem settle (settings : Settings) (place : String) (span : Span) :
    Flows false false (settle settings place span) := by
  unfold Jam.settle
  refine .get_bind fun world hr hs => ?_
  split
  · exact ⟨hr, rfl, fun _ _ => .none⟩
  · next h => exact nomatch hs (.inl h)
  · next h => exact nomatch hs (.inr h)
  · exact (pure ()).kept world hr hs
  · exact (pure ()).kept world hr hs

/-- A pass is begun outside of the loop, so to speak, and left inside of it. -/
theorem forEach {body : String → Eval Value}
    (h : ∀ x, Flows false true (body x)) (values : List String) (last : Value) :
    Flows false false (forEach body values last) :=
  congruent.forEach (g := body) .loopEnds h values last

theorem repeatWhile {test : Eval Bool} {body : Eval Value}
    (ht : Flows false false test) (hb : Flows false true body) (passes : Nat)
    (last : Value) : Flows false false (repeatWhile test body passes last) :=
  congruent.repeatWhile (u := test) (c := body) .loopEnds ht hb
    (Nat.le_refl passes) (fun _ _ => .throw _) last

-- ===================================================== undefined rules

/-- A rule that is not defined raises an exit at most. -/
theorem invokeUndefined (settings : Settings) (name : String)
    (arguments : List Value) (span : Span) :
    Flows inLoop inLoop (invokeUndefined settings name arguments span) where
  kept world hr hs := by
    have hc := Calm.invokeUndefined settings name arguments span
    refine ⟨fun other rule hf => hr other rule (hc.rules world ▸ hf),
      hc.strays world, ?_⟩
    intro a _
    by_cases hb : BuiltIn.ofName? name = some .exit
    · rw [runIn_invokeUndefined_exit settings arguments span hb]
      exact .exit
    · rw [(Plain.invokeUndefined settings arguments span hb).signal]
      exact hs

end Flows

end Eval

-- ========================================================== statements

section Statements

open Eval (Flows)

variable {invoke : Invoke}

/-- A way to invoke rules that keeps the invariant, for confined rules. -/
def Invoke.Flows (invoke : Invoke) : Prop :=
  ∀ (frame : FrameId) (name : String) (rule : RuleDefinition)
    (arguments : List Value) (span : Span),
    rule.confined = true →
    Eval.Flows false false (invoke frame name rule arguments span)

mutual

/-- A confined statement leaves a break or continue only where it stands in a
loop. -/
theorem Statement.exec_flows (hi : invoke.Flows) {inLoop : Bool}
    {frame : FrameId} :
    ∀ s : Statement, s.confined inLoop = true →
      Flows false inLoop (s.exec settings invoke frame)
  | .invocation name arguments span, _ => by
    rw [Statement.exec]
    refine .weaken
      (.bind (.read settings frame name.resolve_built) fun name => ?_)
    refine .bind
      (.read settings frame fun env => listValues_built env arguments)
      fun values => ?_
    refine .get_bind fun world hr hs => ?_
    split
    · next rule hf =>
      exact (hi frame name rule values span (hr name rule hf)).kept world hr hs
    · exact (Flows.invokeUndefined settings name values span).kept world hr hs
  | .assignment name op value _, _ => by
    rw [Statement.exec]
    refine .weaken
      (.bind (.read settings frame name.resolve_built) fun name => ?_)
    refine .bind (.read settings frame value.value_built) fun value => ?_
    exact .of_calm (.assignVariable frame op name value)
      (.assignVariable frame op name value)
  | .localBinding names value _, _ => by
    rw [Statement.exec]
    refine .weaken
      (.bind (.read settings frame names.value_built) fun names => ?_)
    have binds (value : Value) :
        Flows false false (do bindAll frame value names; return value) :=
      .bind (.of_calm (.bindAll ..) (.bindAll ..)) fun _ => .pure value
    cases value with
    | none => exact .bind (.pure []) binds
    | some value => exact .bind (.read settings frame value.value_built) binds
  | .returnWith value _, _ => by
    rw [Statement.exec]
    refine .bind (.read settings frame value.value_built) fun value => ?_
    exact .bind (.raise .return) fun _ => .pure value
  | .breakLoop _, h => by
    obtain rfl : inLoop = true := h
    rw [Statement.exec]
    exact .bind (.raise .inside) fun _ => .pure []
  | .continueLoop _, h => by
    obtain rfl : inLoop = true := h
    rw [Statement.exec]
    exact .bind (.raise .inside) fun _ => .pure []
  | .block b, h => by
    rw [Statement.exec]
    exact .inSubscope fun _ => execBlock_flows hi b h
  | .choice condition yes none _, h => by
    rw [Statement.exec]
    refine .bind (.read settings frame fun env => condition.holds_built env)
      fun holds => ?_
    split
    · exact .inSubscope fun _ => execBlock_flows hi yes h
    · exact .weaken (.pure [])
  | .choice condition yes (some no) _, h => by
    obtain ⟨hyes, hno⟩ := Bool.and_eq_true_iff.mp h
    rw [Statement.exec]
    refine .bind (.read settings frame fun env => condition.holds_built env)
      fun holds => ?_
    split
    · exact .inSubscope fun _ => execBlock_flows hi yes hyes
    · exact Statement.exec_flows hi no hno
  | .forLoop name values body _, h => by
    rw [Statement.exec]
    refine .weaken
      (.bind (.read settings frame name.resolve_built) fun name => ?_)
    refine .bind (.read settings frame values.value_built) fun values => ?_
    refine .forEach (fun x => .inSubscope fun inner => ?_) values []
    exact .bind (.bindName inner name [x]) fun _ => execBlock_flows hi body h
  | .whileLoop condition body _, h => by
    rw [Statement.exec]
    have htest : Flows false false (Eval.read settings frame condition.holds) :=
      .read settings frame fun env => condition.holds_built env
    refine .weaken (.repeatWhile htest ?_ _ [])
    exact .inSubscope fun _ => execBlock_flows hi body h
  | .definition rule, h => by
    rw [Statement.exec]
    refine .weaken
      (.bind (.read settings frame rule.name.resolve_built) fun name => ?_)
    refine .bind ⟨fun world hr hs => ?_⟩ fun _ => .pure []
    exact ⟨hr.define h, rfl, fun _ _ => hs⟩

theorem execBlock_flows (hi : invoke.Flows) {inLoop : Bool} {frame : FrameId} :
    ∀ b : Block, b.confined inLoop = true →
      Flows false inLoop (execBlock settings invoke frame b)
  | ⟨statements, _⟩, h => execAll_flows hi statements [] h

theorem execAll_flows (hi : invoke.Flows) {inLoop : Bool} {frame : FrameId} :
    ∀ (ss : List Statement) (last : Value), allConfined inLoop ss = true →
      Flows false inLoop (execAll settings invoke frame ss last)
  | [], last, _ => .weaken (.pure last)
  | s :: ss, _, h => by
    obtain ⟨hs, hss⟩ := Bool.and_eq_true_iff.mp h
    rw [execAll]
    refine .bind (Statement.exec_flows hi s hs) fun value =>
      .get_bind fun world hr hfits => ?_
    split
    · next hn =>
      exact (execAll_flows hi ss value hss).kept world hr (hn ▸ .none)
    · exact (Flows.pure value).kept world hr hfits

end

/-- Invoking confined rules keeps the invariant, however many invocations are
left. -/
theorem invokeWithin_flows (settings : Settings) (further : Nat) :
    (invokeWithin settings further).Flows := by
  induction further with
  | zero => exact fun _ _ _ _ _ _ => .throw _
  | succ further ih =>
    intro frame name rule arguments span h
    have hbody : rule.body.confined false = true := by
      cases rule
      exact h
    refine .inside span (.inSubscope fun inner => ?_)
    refine .bind (.of_calm (.bindArguments ..) (.bindArguments ..)) fun _ => ?_
    refine .bind (execBlock_flows ih rule.body hbody) fun value => ?_
    exact .bind (.settle settings _ rule.body.span) fun _ => .pure value

/-- A confined program keeps the invariant, whatever signal it finds. -/
theorem Program.flows (settings : Settings) {p : Program}
    (h : p.confined = true) : Flows true false (p.runIn settings) := by
  have hall : Flows false false (runStatements settings .top p.statements) :=
    execAll_flows (invokeWithin_flows settings _) p.statements [] h
  have heval : Flows false false (p.eval settings .top) :=
    .bind hall fun value => .bind (.settle settings _ p.span) fun _ =>
      .pure value
  have hquiet : Flows true false (modify (·.raise .none) : Eval Unit) :=
    .raise .none
  refine .bind (.bindName ..) fun _ => .bind hquiet fun _ =>
    .bind heval fun value => ?_
  exact .get_bind fun world hr hs => ⟨hr, rfl, fun _ _ => hs⟩

end Statements

-- ========================================================== stray flow

/-- The word for what a loop takes in. -/
def Signal.loopWord? : Signal → Option String
  | .break => some "break"
  | .continue => some "continue"
  | .none | .return | .exit => .none

/-- The warning about a break or continue that is left in some place. -/
def strayWarning (word place : String) (span : Span) : Warning :=
  ⟨.strayControlFlow, s!"'{word}' escaped {place} outside of any loop",
    some span⟩

/-- The end of a rule or program reports it, and takes it in. -/
theorem Eval.runIn_settle_stray (settings : Settings) (place : String)
    (span : Span) {word : String} (h : world.signal.loopWord? = some word) :
    (settle settings place span).runIn world = (.ok (),
      (world.raise .none).warn settings (strayWarning word place span)) := by
  unfold settle
  rw [runIn_get_bind]
  cases hs : world.signal <;> rw [hs] at h <;> cases h <;> rfl

section Invocations

variable {name : String} {rule : RuleDefinition} {arguments : List Value}
  {value : Value}

/-- An invoked rule whose body has a value has that value. -/
theorem Stage.run_invoked_of_body (name : String) (rule : RuleDefinition)
    {bound done : World}
    (hb : (bindArguments settings site.frame rule.parameters arguments).runIn
      world = (.ok (), bound))
    (hrun : Stage.run settings
      ⟨.statements rule.body.statements [], site, bound⟩ = (.ok value, done)) :
    Stage.run settings ⟨.invoked name rule arguments, site, world⟩ =
      (.ok value,
        ((settle settings s!"rule '{name}'" rule.body.span).runIn done).2) := by
  have hbody :
      (execBlock settings (site.invoke settings) site.frame rule.body).runIn
      bound = (.ok value, done) := by
    rcases rule with ⟨_, _, ⟨_, _⟩, _⟩
    exact hrun
  rw [Stage.run_invoked, Eval.runIn_bind_of_ok hb, Eval.runIn_bind_of_ok hbody,
    Eval.runIn_bind_of_ok (Eval.runIn_settle ..).1]
  rfl

/-- The invocation of a rule ends as the rule does, and closes its frame. -/
theorem Calls.invoked_ok {i : Identifier} {lists : List WordList}
    {place span : Span} {site' : Site} {inner done : World}
    (h : Calls settings ⟨.statement (.invocation i lists place), site, world⟩
      [span] ⟨.invoked name rule arguments, site', inner⟩)
    (hrun : Stage.run settings ⟨.invoked name rule arguments, site', inner⟩ =
      (.ok value, done)) :
    ∃ after,
      Stage.run settings ⟨.statement (.invocation i lists place), site, world⟩ =
        (.ok value, after) ∧
      after.signal = done.signal ∧ done.OnlyCloses after := by
  cases h with
  | @invocation _ _ _ _ _ _ read _ _ _ hi hv hrule hd =>
    have hun := unwound_invoke name rule arguments place read hd
    rw [← Stage.run_invocation place hi hv hrule, hrun] at hun
    exact ⟨_, Prod.ext hun.result rfl, hun.world.signal, hun.world.onlyCloses⟩

end Invocations

/-- Nothing stray is reported while an invocation is prepared. -/
theorem Calls.strays_of_body {c c' b : Stage} {span : Span}
    (h : Calls settings c [span] c') (h' : Calls settings c' [] b) :
    b.world.strays = c.world.strays := by
  cases h with
  | @invocation i lists _ _ _ _ _ _ _ _ hi hv =>
    have hnamed := (Eval.Calm.read settings _ i.resolve_built).strays_of_run hi
    have hread := (Eval.Calm.read settings _ fun env =>
      listValues_built env lists).strays_of_run hv
    cases h' with
    | body hb =>
      have hbound := (Eval.Calm.bindArguments ..).strays_of_run hb
      exact hbound.trans (hread.trans hnamed)

/-- A break or continue that the body of an invoked rule leaves is reported, and
goes no further. -/
theorem Calls.stray {c c' b : Stage} {span : Span} {value : Value}
    {done : World} {word : String} (h : Calls settings c [span] c')
    (h' : Calls settings c' [] b) (hrun : b.run settings = (.ok value, done))
    (hs : done.signal.loopWord? = some word) :
    ∃ i lists name rule arguments after,
      c.task = .statement (.invocation i lists span) ∧
      c'.task = .invoked name rule arguments ∧
      c.run settings = (.ok value, after) ∧ after.signal = .none ∧
      after.events = done.events.push
        (.warned (strayWarning word s!"rule '{name}'" rule.body.span)) := by
  cases h with
  | @invocation i lists _ _ _ _ _ name arguments rule hi hv hrule hd =>
    cases h' with
    | @body _ parameter parameters statements place extent _ _ _ _ hb =>
      have hrule' := Stage.run_invoked_of_body name
        ⟨parameter, parameters, ⟨statements, place⟩, extent⟩ hb hrun
      rw [Eval.runIn_settle_stray settings _ _ hs] at hrule'
      obtain ⟨after, hafter, hsignal, hcloses⟩ :=
        Calls.invoked_ok (.invocation hi hv hrule hd) hrule'
      exact ⟨i, lists, name, _, arguments, after, rfl, rfl, hafter, hsignal,
        hcloses.events⟩

/-- Stray control flow can be read off the text. Where programs and rules are
confined, no run warns about it, and rules stay confined. In general, a break or
continue that the body of an invoked rule leaves is reported once, and the
invocation ends without a signal, so that what is behind it is run. -/
theorem stray_flow_is_lexical (settings : Settings) :
    (∀ (p : Program) (world : World), p.confined = true → world.RulesConfined →
      ((p.runIn settings).runIn world).2.strays = world.strays ∧
      ((p.runIn settings).runIn world).2.RulesConfined) ∧
    ∀ (c c' b : Stage) (span : Span) (value : Value) (done : World)
        (word : String),
      Calls settings c [span] c' → Calls settings c' [] b →
      b.run settings = (.ok value, done) → done.signal.loopWord? = some word →
      ∃ i lists name rule arguments after,
        c.task = .statement (.invocation i lists span) ∧
        c'.task = .invoked name rule arguments ∧
        c.run settings = (.ok value, after) ∧ after.signal = .none ∧
        b.world.strays = c.world.strays ∧
        after.events = done.events.push
          (.warned (strayWarning word s!"rule '{name}'" rule.body.span)) ∧
        ∀ ss last, Calls settings
          ⟨.statements (.invocation i lists span :: ss) last, c.site, c.world⟩
          [] ⟨.statements ss value, c.site, after⟩ := by
  refine ⟨fun p world hp hr => ?_,
    fun c c' b span value done word h h' hrun hs => ?_⟩
  · have hk := (Program.flows settings hp).kept world hr .inside
    exact ⟨hk.strays, hk.rules⟩
  · obtain ⟨i, lists, name, rule, arguments, after, hc, hc', hafter, hsignal,
        hevents⟩ :=
      h.stray h' hrun hs
    refine ⟨i, lists, name, rule, arguments, after, hc, hc', hafter, hsignal,
      h.strays_of_body h', hevents, fun ss last => .tail ?_ hsignal⟩
    rw [← hafter, ← hc]

/-- A rule is defined in a loop and breaks off a loop of its own. -/
def loopingText : String :=
  "for x in a { rule r { for y in b { break ; } } r ; continue ; }"

/-- It warns of nothing stray; and the invocation of a rule that is but a break
is reported once, in whatever it stands. -/
theorem loopingText_confined :
    (∃ p, Program.parse "t" loopingText = .ok p ∧ p.confined = true ∧
      ((p.runIn {}).runIn {}).2.strays = []) ∧
    let place := Span.ofPoint "t" .origin
    let name : Identifier := ⟨[.text "r"], place⟩
    let world :=
      World.define "r" ⟨name, [], ⟨[.breakLoop place], place⟩, place⟩ {}
    let invocation : Stage :=
      ⟨.statement (.invocation name [] place), .top, world⟩
    ∃ c' b done after, Calls {} invocation [place] c' ∧ Calls {} c' [] b ∧
      b.run {} = (.ok [], done) ∧ done.signal = .break ∧
      invocation.run {} = (.ok [], after) ∧ after.signal = .none ∧
      after.events = #[.warned (strayWarning "break" "rule 'r'" place)] := by
  obtain ⟨hconfined, hstray⟩ := stray_flow_is_lexical {}
  refine ⟨?_, ?_⟩
  · have hparse : (Program.parse "t" loopingText).toOption.elim false
        Program.confined = true := by
      decide +kernel
    obtain ⟨p, hp, hlexical⟩ := Except.exists_ok_of_elim hparse
    exact ⟨p, hp, hlexical,
      (hconfined p {} hlexical fun _ _ hf => nomatch hf).1⟩
  · intro place name world invocation
    have hcall : Calls {} invocation [place] _ :=
      .invocation rfl rfl rfl (by decide)
    obtain ⟨_, _, _, _, _, after, -, hrule, hrun, hsignal, -, hevents, -⟩ :=
      hstray _ _ _ place [] _ "break" hcall (.body rfl) rfl rfl
    cases hrule
    exact ⟨_, _, _, after, hcall, .body rfl, rfl, rfl, hrun, hsignal, hevents⟩

end Jam
