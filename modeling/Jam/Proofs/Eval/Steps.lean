/-
Every statement goes by the steps of `Leads`.

`Eval.Steps` says of an action what `Leads` says of two worlds: wherever
the rules obey, the action leads from the world it starts in to the one
it ends in. It also says which breakdowns the action may end in: an
error of the program always; running out of passes only if some while
loop is allowed; and a frame closed out of turn never. The last is a fact
about `Eval.inSubscope`, which checks this at every closing: the body
went by steps, so it left as many frames open as it found, and the frame
to be closed is the one opened last.

The property is closed under everything actions are put together with
(`Steps.bind`, `Steps.inSubscope`, `Steps.forEach` and so on), and from
there the induction over statements has one short case per kind
(`Statement.exec_steps`). Rules are invoked through `invokeWithin`, by
induction on the number of invocations left.
-/
import Jam.Proofs.Eval.Closure
import Jam.Proofs.Eval.Leads
import Jam.Eval.Run

namespace Jam

variable {allowed : Statement → Prop} {own : Bool} {frame : FrameId}
  {α β : Type}

/-- The breakdowns that can come about where only some statements are run. -/
def Halt.Possible (allowed : Statement → Prop) : Halt → Prop
  | .error _ => True
  | .outOfPasses => ∃ s, allowed s ∧ s.isWhile = true
  | .unbalanced => False

namespace Eval

/-- The action, run in `frame`, goes by steps. -/
structure Steps (allowed : Statement → Prop) (own : Bool) (frame : FrameId)
    (x : Eval α) : Prop where
  leads : ∀ world, world.RulesObey allowed →
    Leads allowed own frame world (x.runIn world).2
  halts : ∀ world, world.RulesObey allowed → ∀ halt,
    (x.runIn world).1 = .error halt → halt.Possible allowed

namespace Steps

-- ====================================================== atomic actions

theorem pure (a : α) : Steps allowed own frame (Pure.pure a : Eval α) where
  leads _ _ := .refl
  halts _ _ _ h := nomatch h

theorem fail (e : Error) :
    Steps allowed own frame (throw (.error e) : Eval α) where
  leads _ _ := .refl
  halts _ _ halt h := by
    cases h
    trivial

theorem outOfPasses {s : Statement} (hs : allowed s) (hw : s.isWhile = true) :
    Steps allowed own frame (throw .outOfPasses : Eval α) where
  leads _ _ := .refl
  halts _ _ halt h := by
    cases h
    exact ⟨s, hs, hw⟩

/-- Changing the world by a step. -/
theorem changing {f : World → World}
    (h : ∀ world, Leads allowed own frame world (f world)) :
    Steps allowed own frame (modify f) where
  leads world _ := h world
  halts _ _ _ h := nomatch h

theorem warn (settings : Settings) (kind : WarningKind) (message : String)
    (span : Span) :
    Steps allowed own frame (Eval.warn settings kind message span) :=
  .changing fun _ => .warn settings ⟨kind, message, some span⟩

theorem read (settings : Settings) (place : FrameId)
    (reading : Environment → Reading α) :
    Steps allowed own frame (Eval.read settings place reading) where
  leads world _ := by
    rw [runIn_read]
    exact .warnAll settings _
  halts world _ halt h := by
    rw [runIn_read] at h
    cases hr : (reading (world.lookup place)).results.1 with
    | ok a =>
      rw [hr] at h
      cases h
    | error e =>
      rw [hr] at h
      cases h
      trivial

-- ========================================================= composition

theorem bind {x : Eval α} {f : α → Eval β} (hx : Steps allowed own frame x)
    (hf : ∀ a, Steps allowed own frame (f a)) :
    Steps allowed own frame (x >>= f) where
  leads := rel_bind
    (R := fun world after => world.RulesObey allowed →
      Leads allowed own frame world after)
    (fun h h' hr => .trans (h hr) (h' ((h hr).rules hr))) hx.leads fun a =>
      (hf a).leads
  halts world hr halt h := by
    have hl := hx.leads world hr
    rw [runIn_bind] at h
    split at h
    · next a middle hrun =>
      rw [hrun] at hl
      exact (hf a).halts middle (hl.rules hr) halt h
    · next halt' middle hrun =>
      cases h
      exact hx.halts world hr halt (by rw [hrun])

/-- What is done with the world is done with one whose rules obey. -/
theorem get_bind {f : World → Eval α}
    (hf : ∀ world, world.RulesObey allowed →
      Steps allowed own frame (f world)) :
    Steps allowed own frame (get >>= f) where
  leads world hr := by
    rw [runIn_bind]
    exact (hf world hr).leads world hr
  halts world hr halt h := by
    rw [runIn_bind] at h
    exact (hf world hr).halts world hr halt h

/-- A frame of its own is closed in its turn. -/
theorem inSubscope {body : FrameId → Eval α}
    (h : ∀ inner, Steps allowed true inner (body inner)) :
    Steps allowed own frame (inSubscope frame body) where
  leads world hr := by
    have hl := (h (world.enter frame).1).leads (world.enter frame).2 hr
    rw [runIn_inSubscope]
    dsimp only
    split
    · exact .inside hl
    · exact .inside hl
  halts world hr halt hh := by
    have hl := (h (world.enter frame).1).leads (world.enter frame).2 hr
    have hd := hl.depth.trans (Leads.depth_enter world frame)
    rw [runIn_inSubscope] at hh
    dsimp only at hh
    rw [if_pos hd] at hh
    exact (h (world.enter frame).1).halts (world.enter frame).2 hr halt hh

theorem inside {x : Eval α} (span : Span) (hx : Steps allowed own frame x) :
    Steps allowed own frame (inside span x) where
  leads world hr := by
    rw [runIn_inside_world]
    exact hx.leads world hr
  halts world hr halt h := by
    rw [runIn_inside] at h
    split at h
    · cases h
      trivial
    · exact hx.halts world hr halt h

-- =================================================== loops and signals

theorem raise (signal : Signal) :
    Steps allowed own frame (modify (·.raise signal) : Eval Unit) :=
  .changing fun _ => .raise signal

theorem closed : Closed (Steps allowed own frame) where
  pure := .pure
  bind := .bind
  get_bind hf := .get_bind fun world _ => hf world

theorem loopEnds : Steps allowed own frame loopEnds :=
  closed.loopEnds (.raise .none)

theorem settle (settings : Settings) (place : String) (span : Span) :
    Steps allowed own frame (settle settings place span) :=
  closed.settle (.raise .none)
    (fun kind message => .warn settings kind message span) place

theorem forEach {body : String → Eval Value}
    (h : ∀ x, Steps allowed own frame (body x)) (values : List String)
    (last : Value) : Steps allowed own frame (forEach body values last) :=
  closed.forEach .loopEnds h values last

/-- A loop that may run out of passes is a loop that is allowed. -/
theorem repeatWhile {s : Statement} (hs : allowed s) (hw : s.isWhile = true)
    {test : Eval Bool} {body : Eval Value} (ht : Steps allowed own frame test)
    (hb : Steps allowed own frame body) (passes : Nat) (last : Value) :
    Steps allowed own frame (repeatWhile test body passes last) :=
  closed.repeatWhile .loopEnds ht hb (.outOfPasses hs hw) passes last

-- ======================================== variables and built-in rules

theorem echoFirst (arguments : List Value) :
    Steps allowed own frame (echoFirst arguments) :=
  .changing fun _ => .report (.echoed _)

theorem invokeUndefined (settings : Settings) (name : String)
    (arguments : List Value) (span : Span) :
    Steps allowed own frame (invokeUndefined settings name arguments span) :=
  closed.invokeUndefined (.echoFirst arguments) (.raise .exit)
    (fun message => .warn settings _ message span) name

theorem assignVariable (op : AssignOp) (name : String) (value : Value) :
    Steps allowed own frame (assignVariable frame op name value) :=
  closed.assignVariable (fun _ => .changing fun _ => .assign name _) op value

/-- Doing something for each member of a list. -/
theorem forM {γ : Type} {f : γ → Eval Unit}
    (h : ∀ a, Steps allowed own frame (f a)) (as : List γ) :
    Steps allowed own frame (as.forM f) :=
  closed.forM as fun a _ => h a

theorem bindAll (value : Value) (names : List String) :
    Steps allowed true frame (bindAll frame value names) :=
  .forM (fun name => .changing fun _ => .bind name value) names

theorem bindArguments (settings : Settings) (parameters : List Identifier)
    (arguments : List Value) :
    Steps allowed true frame
      (bindArguments settings frame parameters arguments) := by
  refine .bind (.forM (fun entry => ?_) _) fun _ => .forM (fun entry => ?_) _
  · exact .changing fun _ => .bind _ _
  · exact .bind (.read settings frame _) fun name => .changing fun _ =>
      .bind name _

end Steps

end Eval

-- ========================================================== statements

section Statements

open Eval (Steps)

variable {settings : Settings} {invoke : Invoke}

/-- A way to invoke rules that goes by steps, for rules that obey. -/
def Invoke.Steps (allowed : Statement → Prop) (invoke : Invoke) : Prop :=
  ∀ (frame : FrameId) (name : String) (rule : RuleDefinition)
    (arguments : List Value) (span : Span), (∀ s ∈ rule.body.nodes, allowed s) →
    ∀ own, Eval.Steps allowed own frame (invoke frame name rule arguments span)

mutual

/-- A statement goes by steps if everything in it is allowed, and without
binding in its own frame unless it declares. -/
theorem Statement.exec_steps (hi : invoke.Steps allowed) {own : Bool}
    {frame : FrameId} :
    ∀ s : Statement, (∀ x ∈ s.nodes, allowed x) →
      (s.declares = true → own = true) →
      Steps allowed own frame (s.exec settings invoke frame)
  | .invocation name arguments span, _, _ => by
    rw [Statement.exec]
    refine .bind (.read ..) fun name => .bind (.read ..) fun arguments => ?_
    refine .get_bind fun world hr => ?_
    split
    · next rule hf =>
      exact hi frame name rule arguments span (hr name rule hf) own
    · exact .invokeUndefined settings name arguments span
  | .assignment name op value _, _, _ => by
    rw [Statement.exec]
    refine .bind (.read ..) fun name => .bind (.read ..) fun value => ?_
    exact .assignVariable op name value
  | .localBinding names value _, _, ho => by
    obtain rfl := ho rfl
    rw [Statement.exec]
    refine .bind (.read ..) fun names => ?_
    cases value with
    | none =>
      exact .bind (.pure []) fun value => .bind (.bindAll value names) fun _ =>
        .pure value
    | some value =>
      exact .bind (.read ..) fun value => .bind (.bindAll value names) fun _ =>
        .pure value
  | .returnWith value _, _, _ => by
    rw [Statement.exec]
    exact .bind (.read ..) fun value => .bind (.raise .return) fun _ =>
      .pure value
  | .breakLoop _, _, _ => by
    rw [Statement.exec]
    exact .bind (.raise .break) fun _ => .pure []
  | .continueLoop _, _, _ => by
    rw [Statement.exec]
    exact .bind (.raise .continue) fun _ => .pure []
  | .block b, h, _ => by
    rw [Statement.exec]
    exact .inSubscope fun _ => execBlock_steps hi b fun x hx =>
      h x (by simp [nodes_block, hx])
  | .choice condition yes none _, h, _ => by
    rw [Statement.exec]
    refine .bind (.read ..) fun holds => ?_
    split
    · exact .inSubscope fun _ =>
        execBlock_steps hi yes fun x hx => h x (by simp [nodes_choice, hx])
    · exact .pure []
  | .choice condition yes (some no) _, h, ho => by
    rw [Statement.exec]
    refine .bind (.read ..) fun holds => ?_
    split
    · exact .inSubscope fun _ =>
        execBlock_steps hi yes fun x hx => h x (by simp [nodes_choice_else, hx])
    · exact Statement.exec_steps hi no
        (fun x hx => h x (by simp [nodes_choice_else, hx])) ho
  | .forLoop name values body _, h, _ => by
    rw [Statement.exec]
    refine .bind (.read ..) fun name => .bind (.read ..) fun values => ?_
    refine .forEach (fun x => .inSubscope fun inner => ?_) values []
    refine .bind (.changing fun _ => .bind name [x]) fun _ => ?_
    exact execBlock_steps hi body fun x hx => h x (by simp [nodes_forLoop, hx])
  | .whileLoop condition body span, h, _ => by
    rw [Statement.exec]
    refine .repeatWhile (h _ (Statement.mem_nodes _)) rfl (.read ..) ?_ _ []
    exact .inSubscope fun _ =>
      execBlock_steps hi body fun x hx => h x (by simp [nodes_whileLoop, hx])
  | .definition rule, h, _ => by
    rw [Statement.exec]
    refine .bind (.read ..) fun name => .bind (.changing fun _ => ?_) fun _ =>
      .pure []
    exact .define name rule fun x hx => h x (by simp [nodes_definition, hx])

theorem execBlock_steps (hi : invoke.Steps allowed) {frame : FrameId} :
    ∀ b : Block, (∀ x ∈ b.nodes, allowed x) →
      Steps allowed true frame (execBlock settings invoke frame b)
  | ⟨statements, _⟩, h => execAll_steps hi statements [] h

theorem execAll_steps (hi : invoke.Steps allowed) {frame : FrameId} :
    ∀ (ss : List Statement) (last : Value), (∀ x ∈ nodesOf ss, allowed x) →
      Steps allowed true frame (execAll settings invoke frame ss last)
  | [], last, _ => .pure last
  | s :: ss, _, h => by
    rw [execAll]
    refine .bind (Statement.exec_steps hi s (fun x hx => h x ?_) fun _ => rfl)
      fun value => ?_
    · simp [nodesOf_cons, hx]
    · refine .get_bind fun world _ => ?_
      split
      · exact execAll_steps hi ss value fun x hx =>
          h x (by simp [nodesOf_cons, hx])
      · exact .pure value

end

-- =============================================================== rules

/-- Invoking rules goes by steps, however many invocations are left. -/
theorem invokeWithin_steps (settings : Settings) (further : Nat) :
    (invokeWithin settings further).Steps allowed := by
  induction further with
  | zero => exact fun _ _ _ _ _ _ _ => .fail _
  | succ further ih =>
    intro frame name rule arguments span h own
    refine .inside span (.inSubscope fun inner => ?_)
    refine .bind (.bindArguments settings rule.parameters arguments) fun _ => ?_
    refine .bind (execBlock_steps ih rule.body h) fun value => ?_
    exact .bind (.settle settings _ rule.body.span) fun _ => .pure value

end Statements

-- ================================================ phrases and programs

namespace Eval.Steps

variable (settings : Settings) (site : Site)

/-- A phrase goes by steps, without binding in the frame it is evaluated in
unless it is a statement that declares. -/
theorem phrase {own : Bool} (p : Phrase) (h : ∀ x ∈ p.nodes, allowed x)
    (ho : ∀ s, p = .statement s → s.declares = true → own = true) :
    Steps allowed own site.frame (p.eval settings site) :=
  match p with
  | .literal _ => .pure _
  | .identifier _ => .bind (.read ..) fun _ => .pure _
  | .variable v => .read settings site.frame v.value
  | .list l => .read settings site.frame l.value
  | .statement s =>
    Statement.exec_steps (invokeWithin_steps settings _) s h (ho s rfl)

theorem program (p : Program) (h : ∀ x ∈ p.nodes, allowed x) :
    Steps allowed true site.frame (p.eval settings site) := by
  refine .bind (execAll_steps (invokeWithin_steps settings _) p.statements [] h)
    fun value => ?_
  exact .bind (.settle settings _ p.span) fun _ => .pure value

/-- A program that is run from the start binds its targets in the root. -/
theorem run (p : Program) (h : ∀ x ∈ p.nodes, allowed x) :
    Steps allowed true Scopes.root (p.runIn settings) := by
  refine .bind (.changing fun _ => .bind _ _) fun _ =>
    .bind (.raise .none) fun _ => ?_
  refine .bind (.program settings .top p h) fun value => ?_
  exact .get_bind fun world _ => .pure _

/-- So does a text that is read and run, whether or not it parses. -/
theorem text (source text : String)
    (h : ∀ p, Program.parse source text = .ok p → ∀ x ∈ p.nodes, allowed x) :
    Steps allowed true Scopes.root (runText settings source text) := by
  unfold runText
  split
  · next p hp => exact .run settings p (h p hp)
  · exact .fail _

end Eval.Steps

end Jam
