/-
The stages that a run comes through.

A run is a value of a function, and says nothing of what happened in
between. For statements about the middle of a run, this module tells what
a run consists of. A `Stage` is something under way (`Task`: a statement,
the rest of a list of statements, a block in a frame of its own, the rest of
the passes of a loop, an invoked rule), at a site and in a world.
`Calls` relates a stage to those that running it comes to next; which they
are depends on what the evaluation of words, and of the stages called
before, gives. `Reaches` follows calls over any number of steps. Both carry
the places of the invocations that are entered on the way, innermost first.

Stages are run by the evaluator itself (`Stage.run`), so the relation adds
no second semantics. It names the worlds in which the evaluator runs the
parts of what it runs.

# What is proved

- `Stage.induct`: calls do not go on forever, so properties of stages can be
  shown from those of the stages they call. Invocations are bounded by their
  depth; between two of them parts of statements are run, and the passes of
  a loop are counted.
- `Calls.depth`, `Calls.depth_le`: the depth counts the invocations, and
  stays within the limit.
- `Calls.quiet`: everything that is run begins without a signal.
-/
import Jam.Proofs.Eval.Actions

namespace Jam

open Eval (inSubscope)

-- ==================================================== tasks and stages

/-- Something under way in a run. -/
inductive Task
  | statement (s : Statement)
  /-- The rest of a list of statements, and the value so far. -/
  | statements (ss : List Statement) (last : Value)
  /-- A block in a frame of its own, with the variable of a for loop in it. -/
  | framed (loopVariable : Option (String × String)) (b : Block)
  /-- The rest of the passes of a for loop. -/
  | passes (name : String) (values : List String) (body : Block) (last : Value)
  /-- The rest of a while loop, which may make so many passes. -/
  | passesWhile (condition : Condition) (body : Block) (further : Nat)
      (last : Value)
  /-- An invoked rule, in the frame of its invocation. -/
  | invoked (name : String) (rule : RuleDefinition) (arguments : List Value)

variable {settings : Settings} {site : Site} {world : World}

/-- A block in a frame of its own. -/
def execFramed (settings : Settings) (site : Site)
    (loopVariable : Option (String × String)) (b : Block) : Eval Value :=
  inSubscope site.frame fun inner =>
    match loopVariable with
    | none => execBlock settings (site.invoke settings) inner b
    | some (name, x) => do
      modify (·.bind inner name [x])
      execBlock settings (site.invoke settings) inner b

/-- Run what is under way at a site. -/
def Task.exec (settings : Settings) (site : Site) : Task → Eval Value
  | .statement s => s.exec settings (site.invoke settings) site.frame
  | .statements ss last =>
    execAll settings (site.invoke settings) site.frame ss last
  | .framed loopVariable b => execFramed settings site loopVariable b
  | .passes name values body last =>
    forEach (fun x => execFramed settings site (some (name, x)) body)
      values last
  | .passesWhile condition body further last =>
    repeatWhile (Eval.read settings site.frame condition.holds)
      (execFramed settings site none body) further last
  | .invoked name rule arguments => do
    bindArguments settings site.frame rule.parameters arguments
    let value ← execBlock settings (site.invoke settings) site.frame rule.body
    settle settings s!"rule '{name}'" rule.body.span
    return value

/-- What is under way goes by steps. -/
theorem Task.exec_steps (settings : Settings) (site : Site) (t : Task) :
    Eval.Steps (fun _ => True) true site.frame (t.exec settings site) := by
  have hi : (site.invoke settings).Steps fun _ => True :=
    invokeWithin_steps settings _
  have framed (loopVariable : Option (String × String)) (b : Block) :
      Eval.Steps (fun _ => True) true site.frame
      (execFramed settings site loopVariable b) := by
    refine .inSubscope fun inner => ?_
    split
    · exact execBlock_steps hi b fun _ _ => trivial
    · exact .bind (.changing fun _ => .bind _ _) fun _ =>
        execBlock_steps hi b fun _ _ => trivial
  cases t with
  | statement s =>
    exact Statement.exec_steps hi s (fun _ _ => trivial) fun _ => rfl
  | statements ss last => exact execAll_steps hi ss last fun _ _ => trivial
  | framed loopVariable b => exact framed loopVariable b
  | passes name values body last =>
    exact .forEach (fun x => framed _ body) values last
  | passesWhile condition body further last =>
    exact .repeatWhile (s := .whileLoop condition body body.span) trivial rfl
      (.read ..) (framed none body) further last
  | invoked name rule arguments =>
    refine .bind (.bindArguments settings rule.parameters arguments) fun _ => ?_
    refine .bind (execBlock_steps hi rule.body fun _ _ => trivial)
      fun value => ?_
    exact .bind (.settle settings _ rule.body.span) fun _ => .pure value

/-- Something under way, where, and in which world it begins. -/
structure Stage where
  task : Task
  site : Site
  world : World

/-- The outcome of what is under way at a stage. -/
def Stage.run (settings : Settings) (c : Stage) : Except Halt Value × World :=
  (c.task.exec settings c.site).runIn c.world

theorem Stage.run_statement (settings : Settings) (s : Statement) (site : Site)
    (world : World) :
    Stage.run settings ⟨.statement s, site, world⟩ =
      (s.exec settings (site.invoke settings) site.frame).runIn world := rfl

theorem Stage.run_framed (settings : Settings)
    (loopVariable : Option (String × String)) (b : Block) (site : Site)
    (world : World) :
    Stage.run settings ⟨.framed loopVariable b, site, world⟩ =
      (execFramed settings site loopVariable b).runIn world := rfl

theorem Stage.run_passesWhile (settings : Settings) (condition : Condition)
    (body : Block) (further : Nat) (last : Value) (site : Site)
    (world : World) :
    Stage.run settings ⟨.passesWhile condition body further last, site, world⟩ =
      (repeatWhile (Eval.read settings site.frame condition.holds)
        (execFramed settings site none body) further last).runIn world := rfl

theorem Stage.run_invoked (settings : Settings) (name : String)
    (rule : RuleDefinition) (arguments : List Value) (site : Site)
    (world : World) :
    Stage.run settings ⟨.invoked name rule arguments, site, world⟩ =
      (do
        bindArguments settings site.frame rule.parameters arguments
        let value ←
          execBlock settings (site.invoke settings) site.frame rule.body
        settle settings s!"rule '{name}'" rule.body.span
        return value : Eval Value).runIn world := rfl

section Invocations

variable {i : Identifier} {lists : List WordList} (span : Span) {name : String}
  {arguments : List Value} {middle after : World}
  (hr : (Eval.read settings site.frame i.resolve).runIn world =
    (.ok name, middle))
  (hr' : (Eval.read settings site.frame (listValues · lists)).runIn middle =
    (.ok arguments, after))
include hr hr'

/-- Once its name and arguments are read, the rule of an invocation is
invoked. -/
theorem Stage.run_invocation {rule : RuleDefinition}
    (hrule : after.rules.find? name = some rule) :
    Stage.run settings ⟨.statement (.invocation i lists span), site, world⟩ =
      (site.invoke settings site.frame name rule arguments span).runIn
      after := by
  rw [Stage.run_statement, Statement.exec, Eval.runIn_bind_of_ok hr,
    Eval.runIn_bind_of_ok hr', Eval.runIn_get_bind, hrule]

theorem Stage.run_invocation_undefined (hrule : after.rules.find? name = none) :
    Stage.run settings ⟨.statement (.invocation i lists span), site, world⟩ =
      (invokeUndefined settings name arguments span).runIn after := by
  rw [Stage.run_statement, Statement.exec, Eval.runIn_bind_of_ok hr,
    Eval.runIn_bind_of_ok hr', Eval.runIn_get_bind, hrule]

end Invocations

/-- The stage is an invocation, whose name and arguments are read as these and
leave this world. -/
inductive Invokes (settings : Settings) :
    Stage → String → List Value → World → Prop
  | intro {i : Identifier} {lists : List WordList} {span : Span} {site : Site}
      {world middle after : World} {name : String} {arguments : List Value} :
      (Eval.read settings site.frame i.resolve).runIn world =
        (.ok name, middle) →
      (Eval.read settings site.frame (listValues · lists)).runIn middle =
        (.ok arguments, after) →
      Invokes settings ⟨.statement (.invocation i lists span), site, world⟩ name
        arguments after

/-- A frame opened for a block, with the loop variable bound in it. -/
def World.openFor (frame : FrameId) (loopVariable : Option (String × String))
    (world : World) : World :=
  match loopVariable with
  | none => (world.enter frame).2
  | some (name, x) => (world.enter frame).2.bind (world.enter frame).1 name [x]

-- =============================================================== calls

/-- Running the first stage comes to running the second one next. The list has
the place of the invocation, if that is how. -/
inductive Calls (settings : Settings) : Stage → List Span → Stage → Prop
  | block {b : Block} {site : Site} {world : World} :
      Calls settings ⟨.statement (.block b), site, world⟩ []
        ⟨.framed none b, site, world⟩
  | yes {condition : Condition} {yes : Block} {no : Option Statement}
      {span : Span} {site : Site} {world after : World} :
      (Eval.read settings site.frame condition.holds).runIn world =
        (.ok true, after) →
      Calls settings ⟨.statement (.choice condition yes no span), site, world⟩
        [] ⟨.framed none yes, site, after⟩
  | no {condition : Condition} {yes : Block} {no : Statement} {span : Span}
      {site : Site} {world after : World} :
      (Eval.read settings site.frame condition.holds).runIn world =
        (.ok false, after) →
      Calls settings
        ⟨.statement (.choice condition yes (some no) span), site, world⟩ []
        ⟨.statement no, site, after⟩
  | forLoop {i : Identifier} {list : WordList} {body : Block} {span : Span}
      {site : Site} {world middle after : World} {name : String}
      {values : List String} :
      (Eval.read settings site.frame i.resolve).runIn world =
        (.ok name, middle) →
      (Eval.read settings site.frame list.value).runIn middle =
        (.ok values, after) →
      Calls settings ⟨.statement (.forLoop i list body span), site, world⟩ []
        ⟨.passes name values body [], site, after⟩
  | whileLoop {condition : Condition} {body : Block} {span : Span} {site : Site}
      {world : World} :
      Calls settings ⟨.statement (.whileLoop condition body span), site, world⟩
        [] ⟨.passesWhile condition body settings.maxPasses [], site, world⟩
  /-- A rule that is defined is entered, unless too many are active. -/
  | invocation {i : Identifier} {lists : List WordList} {span : Span}
      {site : Site} {world middle after : World} {name : String}
      {arguments : List Value} {rule : RuleDefinition} :
      (Eval.read settings site.frame i.resolve).runIn world =
        (.ok name, middle) →
      (Eval.read settings site.frame (listValues · lists)).runIn middle =
        (.ok arguments, after) →
      after.rules.find? name = some rule → site.depth < settings.maxDepth →
      Calls settings ⟨.statement (.invocation i lists span), site, world⟩ [span]
        ⟨.invoked name rule arguments,
          ⟨(after.enter site.frame).1, site.depth + 1⟩,
          (after.enter site.frame).2⟩
  | head {s : Statement} {ss : List Statement} {last : Value} {site : Site}
      {world : World} :
      Calls settings ⟨.statements (s :: ss) last, site, world⟩ []
        ⟨.statement s, site, world⟩
  /-- The other statements are run unless the first one raised a signal. -/
  | tail {s : Statement} {ss : List Statement} {last value : Value}
      {site : Site} {world after : World} :
      Stage.run settings ⟨.statement s, site, world⟩ = (.ok value, after) →
      after.signal = .none →
      Calls settings ⟨.statements (s :: ss) last, site, world⟩ []
        ⟨.statements ss value, site, after⟩
  | framed {loopVariable : Option (String × String)}
      {statements : List Statement} {span : Span} {site : Site}
      {world : World} :
      Calls settings ⟨.framed loopVariable ⟨statements, span⟩, site, world⟩ []
        ⟨.statements statements [], ⟨(world.enter site.frame).1, site.depth⟩,
          world.openFor site.frame loopVariable⟩
  | pass {name x : String} {xs : List String} {body : Block} {last : Value}
      {site : Site} {world : World} :
      Calls settings ⟨.passes name (x :: xs) body last, site, world⟩ []
        ⟨.framed (some (name, x)) body, site, world⟩
  | nextPass {name x : String} {xs : List String} {body : Block}
      {last value : Value} {site : Site} {world middle after : World} :
      Stage.run settings ⟨.framed (some (name, x)) body, site, world⟩ =
        (.ok value, middle) →
      loopEnds.runIn middle = (.ok false, after) →
      Calls settings ⟨.passes name (x :: xs) body last, site, world⟩ []
        ⟨.passes name xs body value, site, after⟩
  | passWhile {condition : Condition} {body : Block} {further : Nat}
      {last : Value} {site : Site} {world after : World} :
      (Eval.read settings site.frame condition.holds).runIn world =
        (.ok true, after) →
      Calls settings
        ⟨.passesWhile condition body (further + 1) last, site, world⟩ []
        ⟨.framed none body, site, after⟩
  | nextPassWhile {condition : Condition} {body : Block} {further : Nat}
      {last value : Value} {site : Site} {world middle last' after : World} :
      (Eval.read settings site.frame condition.holds).runIn world =
        (.ok true, middle) →
      Stage.run settings ⟨.framed none body, site, middle⟩ =
        (.ok value, last') →
      loopEnds.runIn last' = (.ok false, after) →
      Calls settings
        ⟨.passesWhile condition body (further + 1) last, site, world⟩ []
        ⟨.passesWhile condition body further value, site, after⟩
  /-- The body of a rule is run once its parameters are bound. -/
  | body {name : String} {i : Identifier} {parameters : List Identifier}
      {statements : List Statement} {place span : Span} {arguments : List Value}
      {site : Site} {world after : World} :
      (bindArguments settings site.frame parameters arguments).runIn world =
        (.ok (), after) →
      Calls settings
        ⟨.invoked name ⟨i, parameters, ⟨statements, place⟩, span⟩ arguments,
          site, world⟩
        [] ⟨.statements statements [], site, after⟩

/-- Running the first stage comes to running the second one at some time, after
entering the invocations at these places, the last of them first. -/
inductive Reaches (settings : Settings) : Stage → List Span → Stage → Prop
  | here {c : Stage} : Reaches settings c [] c
  | call {c c' c'' : Stage} {places places' : List Span} :
      Calls settings c places c' → Reaches settings c' places' c'' →
      Reaches settings c (places' ++ places) c''

/-- The stage that the run of a program begins with. -/
def Program.start (settings : Settings) (p : Program) (world : World) : Stage :=
  ⟨.statements p.statements [], .top,
    (world.bind Scopes.root targetsVariable settings.targets).raise .none⟩

/-- A program ends as its statements do, apart from the signal they leave. -/
theorem Program.runIn_eq (settings : Settings) (p : Program) (world : World) :
    (p.runIn settings).runIn world =
      match (p.start settings world).run settings with
      | (.ok value, after) =>
        let last := ((settle settings "the program" p.span).runIn after).2
        (.ok ⟨value, last.signal⟩, last)
      | (.error halt, after) => (.error halt, after) := by
  have hrun : (p.runIn settings).runIn world =
      (p.eval settings .top >>= fun value =>
        do return ⟨value, (← get).signal⟩ : Eval Ending).runIn
        ((world.bind Scopes.root targetsVariable settings.targets).raise
          .none) := rfl
  have hstart : (p.start settings world).run settings =
      (runStatements settings .top p.statements).runIn
      ((world.bind Scopes.root targetsVariable settings.targets).raise .none) :=
    rfl
  rw [hrun, hstart, Eval.runIn_bind]
  unfold Program.eval
  rw [Eval.runIn_bind]
  cases (runStatements settings .top p.statements).runIn
    ((world.bind Scopes.root targetsVariable settings.targets).raise .none) with
  | mk result after =>
    cases result with
    | error halt => rfl
    | ok value =>
      dsimp only
      rw [Eval.runIn_bind,
        (Eval.runIn_settle settings "the program" p.span after).1]
      rfl

namespace Calls

variable {c c' : Stage} {places : List Span}

/-- The depth counts the invocations that are entered. -/
theorem depth (h : Calls settings c places c') :
    c'.site.depth = c.site.depth + places.length := by
  cases h <;> rfl

/-- The limit on the depth is kept. -/
theorem depth_le (h : Calls settings c places c')
    (hd : c.site.depth ≤ settings.maxDepth) :
    c'.site.depth ≤ settings.maxDepth := by
  cases h with
  | invocation _ _ _ hlt => exact hlt
  | _ => exact hd

/-- What is run begins without a signal. -/
theorem quiet (h : Calls settings c places c') (hq : c.world.signal = .none) :
    c'.world.signal = .none := by
  have read {α : Type} {frame : FrameId}
      {reading : Environment → Reading α} {world after : World} {a : α}
      (hr : (Eval.read settings frame reading).runIn world = (.ok a, after)) :
      after.signal = world.signal := by
    obtain ⟨warnings, -, rfl⟩ := Eval.runIn_read_ok hr
    exact World.warnAll_signal ..
  have goesOn
      {world after : World} (hl : loopEnds.runIn world = (.ok false, after)) :
      after.signal = .none := by
    rw [Eval.runIn_loopEnds] at hl
    cases hs : world.signal <;> rw [hs] at hl <;> cases hl
    · exact hs
    · rfl
  cases h with
  | block | whileLoop | head | pass => exact hq
  | invocation => rfl
  | yes hr | no hr | passWhile hr => exact (read hr).trans hq
  | forLoop hr hr' => exact (read hr').trans ((read hr).trans hq)
  | tail _ hs => exact hs
  | framed =>
    unfold World.openFor
    split <;> rfl
  | nextPass _ hl | nextPassWhile _ _ hl => exact goesOn hl
  | body hb => exact ((Eval.Plain.bindArguments ..).signal_of_run hb).trans hq

end Calls

namespace Reaches

variable {c c' : Stage} {places : List Span}

theorem depth (h : Reaches settings c places c') :
    c'.site.depth = c.site.depth + places.length := by
  induction h with
  | here => rfl
  | @call c c' c'' places places' h _ ih =>
    rw [ih, h.depth, List.length_append]
    omega

theorem depth_le (h : Reaches settings c places c')
    (hd : c.site.depth ≤ settings.maxDepth) :
    c'.site.depth ≤ settings.maxDepth := by
  induction h with
  | here => exact hd
  | call h _ ih => exact ih (h.depth_le hd)

theorem quiet (h : Reaches settings c places c') (hq : c.world.signal = .none) :
    c'.world.signal = .none := by
  induction h with
  | here => exact hq
  | call h _ ih => exact ih (h.quiet hq)

end Reaches

-- =========================================================== calls end

/-- The second stage calls the first one. -/
def Called (settings : Settings) (c' c : Stage) : Prop :=
  ∃ places, Calls settings c places c'

theorem passes_acc {name : String} {body : Block} {values : List String}
    {last : Value}
    (hb : ∀ x world,
      Acc (Called settings) ⟨.framed (some (name, x)) body, site, world⟩) :
    Acc (Called settings) ⟨.passes name values body last, site, world⟩ := by
  induction values generalizing last world with
  | nil => exact ⟨_, fun c' ⟨_, h⟩ => nomatch h⟩
  | cons x xs ih =>
    refine ⟨_, fun c' ⟨_, h⟩ => ?_⟩
    cases h with
    | pass => exact hb x world
    | nextPass => exact ih

theorem passesWhile_acc {condition : Condition} {body : Block} {further : Nat}
    {last : Value}
    (hb : ∀ world, Acc (Called settings) ⟨.framed none body, site, world⟩) :
    Acc (Called settings)
      ⟨.passesWhile condition body further last, site, world⟩ := by
  induction further generalizing last world with
  | zero => exact ⟨_, fun c' ⟨_, h⟩ => nomatch h⟩
  | succ further ih =>
    refine ⟨_, fun c' ⟨_, h⟩ => ?_⟩
    cases h with
    | passWhile => exact hb _
    | nextPassWhile => exact ih

section Syntax

variable {depth : Nat}

mutual

/-- Calls from a statement end if they do from the rules invoked in it. -/
theorem Statement.acc (hi : ∀ c : Stage, c.site.depth = depth + 1 →
      c.site.depth ≤ settings.maxDepth → Acc (Called settings) c) :
    ∀ (s : Statement) (site : Site) (world : World), site.depth = depth →
      Acc (Called settings) ⟨.statement s, site, world⟩
  | .invocation i lists span, site, world, hd => by
    refine ⟨_, fun c' ⟨_, h⟩ => ?_⟩
    cases h with
    | invocation _ _ _ hlt => exact hi _ (by rw [hd]) hlt
  | .assignment .., _, _, _ => ⟨_, fun _ ⟨_, h⟩ => nomatch h⟩
  | .localBinding .., _, _, _ => ⟨_, fun _ ⟨_, h⟩ => nomatch h⟩
  | .returnWith .., _, _, _ => ⟨_, fun _ ⟨_, h⟩ => nomatch h⟩
  | .breakLoop _, _, _, _ => ⟨_, fun _ ⟨_, h⟩ => nomatch h⟩
  | .continueLoop _, _, _, _ => ⟨_, fun _ ⟨_, h⟩ => nomatch h⟩
  | .definition _, _, _, _ => ⟨_, fun _ ⟨_, h⟩ => nomatch h⟩
  | .block b, site, world, hd => by
    refine ⟨_, fun c' ⟨_, h⟩ => ?_⟩
    cases h with
    | block => exact Block.acc hi b none site world hd
  | .choice condition yes none span, site, world, hd => by
    refine ⟨_, fun c' ⟨_, h⟩ => ?_⟩
    cases h with
    | yes => exact Block.acc hi yes none site _ hd
  | .choice condition yes (some no) span, site, world, hd => by
    refine ⟨_, fun c' ⟨_, h⟩ => ?_⟩
    cases h with
    | yes => exact Block.acc hi yes none site _ hd
    | no => exact Statement.acc hi no site _ hd
  | .forLoop i values body span, site, world, hd => by
    refine ⟨_, fun c' ⟨_, h⟩ => ?_⟩
    cases h with
    | forLoop =>
      exact passes_acc fun x world => Block.acc hi body _ site world hd
  | .whileLoop condition body span, site, world, hd => by
    refine ⟨_, fun c' ⟨_, h⟩ => ?_⟩
    cases h with
    | whileLoop =>
      exact passesWhile_acc fun world => Block.acc hi body none site world hd

theorem Block.acc
    (hi : ∀ c : Stage, c.site.depth = depth + 1 →
      c.site.depth ≤ settings.maxDepth → Acc (Called settings) c) :
    ∀ (b : Block) (loopVariable : Option (String × String)) (site : Site)
        (world : World), site.depth = depth →
      Acc (Called settings) ⟨.framed loopVariable b, site, world⟩
  | ⟨statements, _⟩, loopVariable, site, world, hd => by
    refine ⟨_, fun c' ⟨_, h⟩ => ?_⟩
    cases h with
    | framed => exact statements_acc hi statements [] _ _ hd

theorem statements_acc
    (hi : ∀ c : Stage, c.site.depth = depth + 1 →
      c.site.depth ≤ settings.maxDepth → Acc (Called settings) c) :
    ∀ (ss : List Statement) (last : Value) (site : Site) (world : World),
      site.depth = depth →
      Acc (Called settings) ⟨.statements ss last, site, world⟩
  | [], _, _, _, _ => ⟨_, fun _ ⟨_, h⟩ => nomatch h⟩
  | s :: ss, last, site, world, hd => by
    refine ⟨_, fun c' ⟨_, h⟩ => ?_⟩
    cases h with
    | head => exact Statement.acc hi s site world hd
    | tail => exact statements_acc hi ss _ site _ hd

end

end Syntax

/-- Calls end: the depth grows with invocations up to its limit, and between two
of them what is run is part of what was run before. -/
theorem called_wf (settings : Settings) : WellFounded (Called settings) := by
  have acc : ∀ further (c : Stage), settings.maxDepth - c.site.depth = further →
      Acc (Called settings) c := by
    intro further
    induction further using Nat.strongRecOn with
    | ind further ih =>
      rintro ⟨task, site, world⟩ hc
      have hi : ∀ c : Stage, c.site.depth = site.depth + 1 →
          c.site.depth ≤ settings.maxDepth → Acc (Called settings) c := by
        intro c hd hle
        have hlt : settings.maxDepth - c.site.depth < further := by
          simp only at hc
          omega
        exact ih _ hlt c rfl
      cases task with
      | statement s => exact Statement.acc hi s site world rfl
      | statements ss last => exact statements_acc hi ss last site world rfl
      | framed loopVariable b =>
        exact Block.acc hi b loopVariable site world rfl
      | passes name values body last =>
        exact passes_acc fun x world => Block.acc hi body _ site world rfl
      | passesWhile condition body further last =>
        exact passesWhile_acc fun world => Block.acc hi body none site world rfl
      | invoked name rule arguments =>
        refine ⟨_, fun c' ⟨_, h⟩ => ?_⟩
        cases h with
        | body => exact statements_acc hi _ [] site _ rfl
  exact ⟨fun c => acc _ c rfl⟩

/-- A property holds of all stages if it holds of a stage whenever it holds of
those it calls. -/
theorem Stage.induct (settings : Settings) {motive : Stage → Prop}
    (step : ∀ c, (∀ places c', Calls settings c places c' → motive c') →
      motive c) (c : Stage) : motive c :=
  (called_wf settings).induction c fun c ih => step c fun places c' h =>
    ih c' ⟨places, h⟩

end Jam
