/-
The place of an error is that of a piece.

What a program fails with is first put at one place: that of a variable
that does not fit into a name, of a subscript, or of an invocation. All of
these are pieces of the program, or of one that was run before and whose
rules are still there. So a property of the places of all pieces holds of
the place of every error, and in particular the places of errors are
between seams of the text (`runText_error_sealed`).

The property goes through readings (`Reading.FailsWith`) and through
actions (`Eval.Placing`). For actions the rules of the world are part of
it, as what is in them can be run.
-/
import Jam.Eval.Run
import Jam.Proofs.Eval.Closure
import Jam.Proofs.Eval.Reports
import Jam.Proofs.Eval.Subscripts
import Jam.Proofs.Syntax.Seams

namespace Jam

open Reading (FailsWith)

variable {P : Span → Prop} {settings : Settings} {world after : World}
  {α β : Type} {e : Error}

-- ================================================= names and variables

theorem Variable.asPart_at {v : Variable} (h : P v.span) (value : Value) :
    FailsWith (Error.At P) (v.asPart value) := by
  unfold Variable.asPart
  split
  · split
    · exact .pure _
    · exact .fail (.found h)
  · exact .fail (.found h)

theorem selection_at {span : Span} (h : P span) (value : Value)
    (text : String) : FailsWith (Error.At P) (selection value text span) := by
  unfold selection
  split
  · exact .fail (.found h)
  · split
    · exact .pure _
    · exact .bind (.warn _ _ _) fun _ => .pure _

mutual

theorem Identifier.resolve_at (env : Environment) : ∀ i : Identifier,
    (Piece.identifier i).Everywhere P → FailsWith (Error.At P) (i.resolve env)
  | ⟨parts, _⟩, h => by
    rw [Identifier.resolve]
    exact resolveParts_at env parts fun v hv => h.child (List.mem_map_of_mem hv)
termination_by structural i => i

theorem resolveParts_at (env : Environment) : ∀ parts : List Part,
    (∀ v ∈ variablesOf parts, (Piece.variable v).Everywhere P) →
      FailsWith (Error.At P) (resolveParts env parts)
  | [], _ => .pure ""
  | .text text :: parts, h => by
    rw [resolveParts]
    exact .bind (resolveParts_at env parts h) fun _ => .pure _
  | .variable v :: parts, h => by
    obtain ⟨hv, hparts⟩ := List.forall_mem_cons.mp h
    rw [resolveParts]
    refine .bind (Variable.value_at env v hv) fun value => ?_
    refine .bind (v.asPart_at hv.self value) fun text => ?_
    exact .bind (resolveParts_at env parts hparts) fun _ => .pure _
termination_by structural parts => parts

theorem Variable.value_at (env : Environment) : ∀ v : Variable,
    (Piece.variable v).Everywhere P → FailsWith (Error.At P) (v.value env)
  | ⟨name, none, span⟩, h => by
    rw [Variable.value]
    exact .bind (Identifier.resolve_at env name (h.child List.mem_cons_self))
      fun _ => valueOrUnset_fails env _ span
  | ⟨name, some sub, span⟩, h => by
    have hsub : (Piece.identifier sub).Everywhere P :=
      h.child (List.mem_cons_of_mem _ List.mem_cons_self)
    rw [Variable.value]
    refine .bind (Identifier.resolve_at env name (h.child List.mem_cons_self))
      fun _ => ?_
    refine .bind (valueOrUnset_fails env _ span) fun value => ?_
    exact .bind (Identifier.resolve_at env sub hsub) fun text =>
      selection_at hsub.self value text
termination_by structural v => v

end

-- ========================================= words, lists and conditions

theorem Word.value_at (env : Environment) (w : Word)
    (h : w.piece.Everywhere P) : FailsWith (Error.At P) (w.value env) := by
  cases w with
  | literal => exact .pure _
  | identifier i => exact .bind (i.resolve_at env h) fun _ => .pure _
  | «variable» v => exact v.value_at env h

theorem wordsValue_at (env : Environment) (ws : List Word)
    (h : ∀ w ∈ ws, w.piece.Everywhere P) :
    FailsWith (Error.At P) (wordsValue env ws) := by
  induction ws with
  | nil => exact .pure []
  | cons w ws ih =>
    obtain ⟨hw, hws⟩ := List.forall_mem_cons.mp h
    rw [wordsValue]
    exact .bind (w.value_at env hw) fun _ => .bind (ih hws) fun _ => .pure _

theorem WordList.value_at (env : Environment) (l : WordList)
    (h : (Piece.list l).Everywhere P) : FailsWith (Error.At P) (l.value env) :=
  wordsValue_at env l.items fun _ hw => h.child (List.mem_map_of_mem hw)

theorem listValues_at (env : Environment) (ls : List WordList)
    (h : ∀ l ∈ ls, (Piece.list l).Everywhere P) :
    FailsWith (Error.At P) (listValues env ls) := by
  unfold listValues
  induction ls with
  | nil => exact .pure []
  | cons l ls ih =>
    obtain ⟨hl, hls⟩ := List.forall_mem_cons.mp h
    rw [List.mapM_cons]
    exact .bind (l.value_at env hl) fun _ => .bind (ih hls) fun _ => .pure _

mutual

theorem Condition.holds_at (env : Environment) : ∀ c : Condition,
    (∀ x ∈ c.pieces, x.Everywhere P) → FailsWith (Error.At P) (c.holds env)
  | .truth word, h => by
    rw [Condition.holds]
    exact .bind (word.value_at env (h _ List.mem_cons_self)) fun _ => .pure _
  | .compare left op right, h => by
    obtain ⟨hleft, hright⟩ := List.forall_mem_cons.mp h
    rw [Condition.holds]
    refine .bind (left.value_at env hleft) fun _ => ?_
    exact .bind (right.value_at env (hright _ List.mem_cons_self))
      fun _ => .pure _
  | .member element list, h => by
    obtain ⟨helement, hlist⟩ := List.forall_mem_cons.mp h
    rw [Condition.holds]
    refine .bind (element.value_at env helement) fun _ => ?_
    exact .bind (list.value_at env (hlist _ List.mem_cons_self))
      fun _ => .pure _
  | .not condition, h => by
    rw [Condition.holds]
    exact .bind (Condition.holds_at env condition h) fun _ => .pure _
  | .and terms, h => by
    rw [Condition.holds]
    exact allHold_at env terms h
  | .or terms, h => by
    rw [Condition.holds]
    exact someHolds_at env terms h

theorem allHold_at (env : Environment) :
    ∀ cs : List Condition, (∀ x ∈ conditionPieces cs, x.Everywhere P) →
      FailsWith (Error.At P) (allHold env cs)
  | [], _ => .pure true
  | c :: cs, h => by
    obtain ⟨hc, hcs⟩ := List.forall_mem_append.mp h
    rw [allHold]
    refine .bind (Condition.holds_at env c hc) fun holds => ?_
    split
    · exact allHold_at env cs hcs
    · exact .pure false

theorem someHolds_at (env : Environment) :
    ∀ cs : List Condition, (∀ x ∈ conditionPieces cs, x.Everywhere P) →
      FailsWith (Error.At P) (someHolds env cs)
  | [], _ => .pure false
  | c :: cs, h => by
    obtain ⟨hc, hcs⟩ := List.forall_mem_append.mp h
    rw [someHolds]
    refine .bind (Condition.holds_at env c hc) fun holds => ?_
    split
    · exact .pure true
    · exact someHolds_at env cs hcs

end

-- ============================================================= actions

/-- The property holds of the places of all that is in the rules of the
world. -/
def World.Placed (P : Span → Prop) (world : World) : Prop :=
  ∀ name rule, world.rules.find? name = some rule →
    (Piece.statement (.definition rule)).Everywhere P

theorem World.Placed.define (h : world.Placed P) {name : String}
    {rule : RuleDefinition}
    (hr : (Piece.statement (.definition rule)).Everywhere P) :
    (world.define name rule).Placed P := by
  intro other found hf
  simp only [World.define, Table.find?_insert] at hf
  split at hf
  · cases hf
    exact hr
  · exact h other found hf

theorem World.Placed.warnAll (h : world.Placed P) (settings : Settings)
    (ws : List Warning) : (world.warnAll settings ws).Placed P := by
  unfold World.Placed
  rw [World.warnAll_rules]
  exact h

namespace Eval

/-- The action keeps the property of the rules, and fails only with errors whose
own place has it. -/
structure Placing (P : Span → Prop) (x : Eval α) : Prop where
  kept : ∀ world, world.Placed P → (x.runIn world).2.Placed P
  errors : ∀ world, world.Placed P → ∀ e,
    (x.runIn world).1 = .error (.error e) → e.At P

namespace Placing

theorem kept_of_run {x : Eval α} (hx : Placing P x) {result : Except Halt α}
    (h : x.runIn world = (result, after)) (hw : world.Placed P) :
    after.Placed P := by
  have hkept := hx.kept world hw
  rw [h] at hkept
  exact hkept

theorem error_of_run {x : Eval α} (hx : Placing P x)
    (h : x.runIn world = (.error (.error e), after)) (hw : world.Placed P) :
    e.At P :=
  hx.errors world hw e (congrArg Prod.fst h)

theorem pure (a : α) : Placing P (Pure.pure a : Eval α) where
  kept _ h := h
  errors _ _ _ h := by cases h

theorem fail (h : e.At P) : Placing P (throw (.error e) : Eval α) where
  kept _ h := h
  errors _ _ _ heq := by
    cases heq
    exact h

theorem outOfPasses : Placing P (throw .outOfPasses : Eval α) where
  kept _ h := h
  errors _ _ _ h := by cases h

theorem changing {f : World → World}
    (h : ∀ world, world.Placed P → (f world).Placed P) :
    Placing P (modify f) where
  kept := h
  errors _ _ _ h := by cases h

/-- What is done to other parts of the world does not concern the rules. -/
theorem aside {f : World → World} (h : ∀ world, (f world).rules = world.rules) :
    Placing P (modify f) :=
  .changing fun world hw name rule hf => hw name rule ((h world) ▸ hf)

theorem warn (settings : Settings) (kind : WarningKind) (message : String)
    (span : Span) : Placing P (Eval.warn settings kind message span) :=
  .aside fun world =>
    World.warnAll_rules settings world [⟨kind, message, some span⟩]

theorem read {frame : FrameId} {reading : Environment → Reading α}
    (h : ∀ env, FailsWith (Error.At P) (reading env)) :
    Placing P (Eval.read settings frame reading) where
  kept world hw := by
    rw [runIn_read]
    exact hw.warnAll settings _
  errors world _ e he := by
    rw [runIn_read] at he
    cases hresult : (reading (world.lookup frame)).results.1 with
    | ok a =>
      rw [hresult] at he
      cases he
    | error e' =>
      rw [hresult] at he
      cases he
      exact h (world.lookup frame) #[] e hresult

theorem bind {x : Eval α} {f : α → Eval β} (hx : Placing P x)
    (hf : ∀ a, Placing P (f a)) : Placing P (x >>= f) where
  kept := rel_bind (R := fun world after => world.Placed P → after.Placed P)
    (fun h h' hw => h' (h hw)) hx.kept fun a => (hf a).kept
  errors world hw e he := by
    rw [runIn_bind] at he
    split at he
    · next a middle hrun =>
      exact (hf a).errors middle (hx.kept_of_run hrun hw) e he
    · next hrun =>
      cases he
      exact hx.error_of_run hrun hw

/-- What is done with the world is done with one whose rules have the
property. -/
theorem get_bind {f : World → Eval α}
    (hf : ∀ world, world.Placed P → Placing P (f world)) :
    Placing P (get >>= f) where
  kept world hw := (hf world hw).kept world hw
  errors world hw := (hf world hw).errors world hw

theorem closed : Closed (Placing P) where
  pure := .pure
  bind := .bind
  get_bind hf := .get_bind fun world _ => hf world

theorem inSubscope {frame : FrameId} {body : FrameId → Eval α}
    (h : ∀ inner, Placing P (body inner)) :
    Placing P (inSubscope frame body) where
  kept world hw := by
    have hin := (h (world.enter frame).1).kept (world.enter frame).2 hw
    rw [runIn_inSubscope]
    dsimp only
    split
    · exact hin
    · exact hin
  errors world hw e he := by
    have hin := (h (world.enter frame).1).errors (world.enter frame).2 hw e
    rw [runIn_inSubscope] at he
    dsimp only at he
    split at he
    · exact hin he
    · cases he

theorem inside {x : Eval α} (span : Span) (hx : Placing P x) :
    Placing P (inside span x) where
  kept world hw := by
    rw [runIn_inside_world]
    exact hx.kept world hw
  errors world hw e he := by
    rw [runIn_inside] at he
    split at he
    · next hrun =>
      cases he
      exact (hx.error_of_run hrun hw).within span
    · exact hx.errors world hw e he

theorem raise (signal : Signal) : Placing P (modify (·.raise signal)) :=
  .aside fun _ => rfl

theorem bindName (frame : FrameId) (name : String) (value : Value) :
    Placing P (modify (·.bind frame name value)) := .aside fun _ => rfl

theorem loopEnds : Placing P loopEnds := closed.loopEnds (.raise .none)

theorem settle (settings : Settings) (place : String) (span : Span) :
    Placing P (settle settings place span) :=
  closed.settle (.raise .none)
    (fun kind message => .warn settings kind message span) place

theorem forEach {body : String → Eval Value} (h : ∀ x, Placing P (body x))
    (values : List String) (last : Value) :
    Placing P (forEach body values last) :=
  closed.forEach .loopEnds h values last

theorem repeatWhile {test : Eval Bool} {body : Eval Value} (ht : Placing P test)
    (hb : Placing P body) (passes : Nat) (last : Value) :
    Placing P (repeatWhile test body passes last) :=
  closed.repeatWhile .loopEnds ht hb .outOfPasses passes last

theorem invokeUndefined (settings : Settings) (name : String)
    (arguments : List Value) (span : Span) :
    Placing P (invokeUndefined settings name arguments span) :=
  closed.invokeUndefined (.aside fun _ => rfl) (.raise .exit)
    (fun message => .warn settings _ message span) name

theorem assignVariable (frame : FrameId) (op : AssignOp) (name : String)
    (value : Value) : Placing P (assignVariable frame op name value) :=
  closed.assignVariable (fun _ => .aside fun _ => rfl) op value

theorem bindAll (frame : FrameId) (value : Value) (names : List String) :
    Placing P (bindAll frame value names) :=
  closed.forM names fun name _ => .bindName frame name value

theorem bindArguments (settings : Settings) (frame : FrameId)
    {parameters : List Identifier}
    (hp : ∀ i ∈ parameters, (Piece.identifier i).Everywhere P)
    (arguments : List Value) :
    Placing P (bindArguments settings frame parameters arguments) := by
  refine .bind (closed.forM _ fun entry _ => ?_) fun _ =>
    closed.forM _ fun entry hentry => ?_
  · exact .bindName frame _ entry.1
  · have hmem : entry.1 ∈ parameters := List.fst_mem_of_mem_zipIdx hentry
    exact .bind (.read fun env => entry.1.resolve_at env (hp _ hmem))
      fun name => .bindName frame name _

end Placing

end Eval

-- ========================================================== statements

section Statements

open Eval (Placing)

variable {invoke : Invoke}

theorem Piece.Everywhere.statements {b : Block}
    (h : (Piece.block b).Everywhere P) :
    ∀ s ∈ b.statements, (Piece.statement s).Everywhere P := fun _ hs =>
  h.child (List.mem_map_of_mem hs)

/-- A way to invoke rules that goes so, for rules and places that have the
property. -/
def Invoke.Placing (P : Span → Prop) (invoke : Invoke) : Prop :=
  ∀ (frame : FrameId) (name : String) (rule : RuleDefinition)
    (arguments : List Value) (span : Span),
    (Piece.statement (.definition rule)).Everywhere P → P span →
    Eval.Placing P (invoke frame name rule arguments span)

mutual

theorem Statement.exec_placing (hi : invoke.Placing P) {frame : FrameId} :
    ∀ s : Statement, (Piece.statement s).Everywhere P →
      Placing P (s.exec settings invoke frame)
  | .invocation i lists span, h => by
    rw [Statement.exec]
    refine .bind
      (.read fun env => i.resolve_at env (h.child List.mem_cons_self))
      fun name => ?_
    refine .bind (.read fun env => listValues_at env lists fun l hl => ?_)
      fun arguments => ?_
    · exact h.child (List.mem_cons_of_mem _ (List.mem_map_of_mem hl))
    · refine .get_bind fun world hw => ?_
      split
      · next rule hf =>
        exact hi frame name rule arguments span (hw name rule hf) h.self
      · exact .invokeUndefined settings name arguments span
  | .assignment i op list span, h => by
    rw [Statement.exec]
    refine .bind
      (.read fun env => i.resolve_at env (h.child List.mem_cons_self))
      fun name => ?_
    refine .bind (.read fun env => list.value_at env (h.child ?_))
      fun value => ?_
    · exact List.mem_cons_of_mem _ List.mem_cons_self
    · exact .assignVariable frame op name value
  | .localBinding names value span, h => by
    rw [Statement.exec]
    refine .bind
      (.read fun env => names.value_at env (h.child List.mem_cons_self))
      fun names => ?_
    cases value with
    | none =>
      exact .bind (.pure []) fun value => .bind (.bindAll ..) fun _ =>
        .pure value
    | some list =>
      refine .bind (.read fun env => list.value_at env (h.child ?_))
        fun value => .bind (.bindAll ..) fun _ => .pure value
      exact List.mem_cons_of_mem _ List.mem_cons_self
  | .returnWith list _, h => by
    rw [Statement.exec]
    refine .bind
      (.read fun env => list.value_at env (h.child List.mem_cons_self))
      fun value => ?_
    exact .bind (.raise .return) fun _ => .pure value
  | .breakLoop _, _ => by
    rw [Statement.exec]
    exact .bind (.raise .break) fun _ => .pure []
  | .continueLoop _, _ => by
    rw [Statement.exec]
    exact .bind (.raise .continue) fun _ => .pure []
  | .block b, h => by
    rw [Statement.exec]
    exact .inSubscope fun _ => execBlock_placing hi b fun s hs =>
      h.child (List.mem_map_of_mem hs)
  | .choice condition yes none _, h => by
    rw [Statement.exec]
    refine .bind
      (.read fun env => condition.holds_at env fun x hx => h.child ?_)
      fun holds => ?_
    · exact List.mem_append_left _ hx
    · split
      · have hyes : (Piece.block yes).Everywhere P :=
          h.child (List.mem_append_right _ List.mem_cons_self)
        exact .inSubscope fun _ => execBlock_placing hi yes hyes.statements
      · exact .pure []
  | .choice condition yes (some no) _, h => by
    rw [Statement.exec]
    refine .bind
      (.read fun env => condition.holds_at env fun x hx => h.child ?_)
      fun holds => ?_
    · exact List.mem_append_left _ hx
    · split
      · have hyes : (Piece.block yes).Everywhere P :=
          h.child (List.mem_append_right _ List.mem_cons_self)
        exact .inSubscope fun _ => execBlock_placing hi yes hyes.statements
      · refine Statement.exec_placing hi no (h.child ?_)
        exact List.mem_append_right _
          (List.mem_cons_of_mem _ List.mem_cons_self)
  | .forLoop i values body _, h => by
    rw [Statement.exec]
    refine .bind
      (.read fun env => i.resolve_at env (h.child List.mem_cons_self))
      fun name => ?_
    refine .bind (.read fun env => values.value_at env (h.child ?_))
      fun values => ?_
    · exact List.mem_cons_of_mem _ List.mem_cons_self
    · have hbody : (Piece.block body).Everywhere P :=
        h.child
          (List.mem_cons_of_mem _ (List.mem_cons_of_mem _ List.mem_cons_self))
      refine .forEach (fun x => .inSubscope fun inner =>
        .bind (.bindName inner name [x]) ?_) values []
      exact fun _ => execBlock_placing hi body hbody.statements
  | .whileLoop condition body _, h => by
    have hbody : (Piece.block body).Everywhere P :=
      h.child (List.mem_append_right _ List.mem_cons_self)
    rw [Statement.exec]
    refine .repeatWhile
      (.read fun env => condition.holds_at env fun x hx => h.child ?_)
      (.inSubscope fun _ => ?_) _ []
    · exact List.mem_append_left _ hx
    · exact execBlock_placing hi body hbody.statements
  | .definition rule, h => by
    rw [Statement.exec]
    refine .bind
      (.read fun env => rule.name.resolve_at env (h.child List.mem_cons_self))
      fun name => ?_
    exact .bind (.changing fun _ hw => hw.define h) fun _ => .pure []

theorem execBlock_placing (hi : invoke.Placing P) {frame : FrameId} :
    ∀ b : Block, (∀ s ∈ b.statements, (Piece.statement s).Everywhere P) →
      Placing P (execBlock settings invoke frame b)
  | ⟨statements, _⟩, h => execAll_placing hi statements [] h

theorem execAll_placing (hi : invoke.Placing P) {frame : FrameId} :
    ∀ (ss : List Statement) (last : Value),
      (∀ s ∈ ss, (Piece.statement s).Everywhere P) →
      Placing P (execAll settings invoke frame ss last)
  | [], last, _ => .pure last
  | s :: ss, _, h => by
    obtain ⟨hs, hss⟩ := List.forall_mem_cons.mp h
    rw [execAll]
    refine .bind (Statement.exec_placing hi s hs) fun value =>
      .get_bind fun world _ => ?_
    split
    · exact execAll_placing hi ss value hss
    · exact .pure value

end

/-- An invocation too many fails at its own place, and all others go on in the
rule. -/
theorem invokeWithin_placing (settings : Settings) (further : Nat) :
    (invokeWithin settings further).Placing P := by
  induction further with
  | zero => exact fun _ _ _ _ _ _ hspan => .fail (.found hspan)
  | succ further ih =>
    intro frame name rule arguments span h _
    have hbody : (Piece.block rule.body).Everywhere P :=
      h.child (by simp [Piece.children, Statement.pieces])
    refine .inside span (.inSubscope fun inner => ?_)
    refine .bind
      (.bindArguments settings inner (fun i hi => h.child ?_) arguments)
      fun _ => ?_
    · simp [Piece.children, Statement.pieces, hi]
    · refine .bind (execBlock_placing ih rule.body hbody.statements)
        fun value => ?_
      exact .bind (.settle settings _ rule.body.span) fun _ => .pure value

end Statements

-- ============================================================ programs

open Eval (Placing)

theorem Program.runIn_placing (settings : Settings) {p : Program}
    (h : (Piece.program p).Everywhere P) : Placing P (p.runIn settings) := by
  have hi : (Site.top.invoke settings).Placing P :=
    invokeWithin_placing settings _
  have hstatements : ∀ s ∈ p.statements, (Piece.statement s).Everywhere P :=
    fun s hs => h.child (List.mem_map_of_mem hs)
  refine .bind (.bindName Scopes.root _ _) fun _ =>
    .bind (.raise .none) fun _ => ?_
  refine .bind
    (.bind (execAll_placing hi p.statements [] hstatements) fun value => ?_)
    fun value => ?_
  · exact .bind (.settle settings _ p.span) fun _ => .pure value
  · exact .get_bind fun world _ => .pure _

/-- The place of the error that a text ends with is between seams of the text,
if no other text was run before. -/
theorem runText_error_sealed {source text : String} (hw : world.rules = .empty)
    (h : (runText settings source text).runIn world =
      (.error (.error e), after)) : e.At (Span.Sealed source text.toList) := by
  have hplaced : world.Placed (Span.Sealed source text.toList) := by
    intro name rule hf
    rw [hw] at hf
    cases hf
  unfold runText at h
  split at h
  · next p hp =>
    exact (Program.runIn_placing settings (program_sealed hp)).error_of_run
      h hplaced
  · next e' he =>
    cases h
    exact Program.parse_error_sealed he

end Jam
