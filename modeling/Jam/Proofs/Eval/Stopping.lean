/-
How errors and exits end a run.

Two things end whatever is under way, however deep it is nested: an error,
and the built-in rule that exits. An outcome that has one of them is
`Stopped`. This module follows it from the stage where it comes about to
the stage the run began with, and back.

# What is proved

- Outwards (`Calls.stop`, `Reaches.stop`): if a stage stops, so does every
  stage it was reached from, with the same error or value. On the way
  frames are closed, invocations add their place to an error, and nothing
  else happens (`World.Unwinds`): no variable is bound, no rule defined,
  nothing reported.
- Inwards (`Stage.stops_cases`, `Stage.exists_source`): if a stage stops,
  this comes about at some stage reached from it, which stops by itself,
  while no stage it calls does. There something could not be read, or an
  invocation was refused, or the built-in rule was invoked
  (`Stage.StopsItself`).

The inward direction needs that calls end (`Stage.induct`), the outward one
is an induction on the way.
-/
import Jam.Proofs.Eval.Stages

namespace Jam

open Eval (inSubscope)

variable {settings : Settings} {site : Site} {world after : World}
  {c c' : Stage} {places : List Span} {α : Type}

-- ============================================================ stopping

/-- The outcome is that of something that was ended by an error or an exit. -/
def Stopped (outcome : Except Halt α × World) : Prop :=
  (∃ halt, outcome.1 = .error halt) ∨ outcome.2.signal = .exit

/-- What has a value was ended by an exit. -/
theorem Stopped.exit {a : α} (h : Stopped (.ok a, after)) :
    after.signal = .exit := by
  rcases h with ⟨halt, hh⟩ | he
  · cases hh
  · exact he

/-- From the first world to the second one frames are closed, and nothing else
is done. -/
inductive World.Unwinds : World → World → Prop
  | refl {world : World} : Unwinds world world
  | leave {world after : World} (frame : FrameId) :
      Unwinds world after → Unwinds world (after.leave frame)

namespace World.Unwinds

theorem trans {middle : World} (h : Unwinds world middle)
    (h' : Unwinds middle after) : Unwinds world after := by
  induction h' with
  | refl => exact h
  | leave frame _ ih => exact .leave frame ih

theorem signal (h : Unwinds world after) : after.signal = world.signal := by
  induction h with
  | refl => rfl
  | leave frame _ ih => exact ih

end World.Unwinds

/-- An error seen from these places around it. -/
def Error.enclosed (e : Error) (places : List Span) : Error :=
  { e with spans := e.spans ++ places }

/-- A breakdown seen from these places around it. -/
def Halt.enclosed (places : List Span) : Halt → Halt
  | .error e => .error (e.enclosed places)
  | .outOfPasses => .outOfPasses
  | .unbalanced => .unbalanced

@[simp] theorem Halt.enclosed_nil (halt : Halt) : halt.enclosed [] = halt := by
  cases halt <;> simp [Halt.enclosed, Error.enclosed]

theorem Halt.enclosed_enclosed (halt : Halt) (inner outer : List Span) :
    (halt.enclosed inner).enclosed outer = halt.enclosed (inner ++ outer) := by
  cases halt <;> simp [Halt.enclosed, Error.enclosed]

/-- The second outcome is what becomes of the first one on the way out, through
invocations at these places. -/
structure Unwound (places : List Span) (inner outer : Except Halt α × World) :
    Prop where
  result : outer.1 = inner.1.mapError (Halt.enclosed places)
  world : inner.2.Unwinds outer.2

namespace Unwound

theorem refl (outcome : Except Halt α × World) :
    Unwound [] outcome outcome where
  result := by
    cases outcome.1 with
    | ok a => rfl
    | error halt => exact congrArg Except.error halt.enclosed_nil.symm
  world := .refl

theorem trans {inner middle outer : Except Halt α × World}
    {places places' : List Span} (h : Unwound places inner middle)
    (h' : Unwound places' middle outer) :
    Unwound (places ++ places') inner outer where
  result := by
    rw [h'.result, h.result]
    cases inner.1 with
    | ok a => rfl
    | error halt =>
      exact congrArg Except.error (halt.enclosed_enclosed places places')
  world := h.world.trans h'.world

theorem stopped {inner outer : Except Halt α × World} {places : List Span}
    (h : Unwound places inner outer) (hs : Stopped inner) : Stopped outer := by
  rcases hs with ⟨halt, hh⟩ | he
  · left
    exact ⟨halt.enclosed places, by rw [h.result, hh]; rfl⟩
  · exact .inr (h.world.signal.trans he)

/-- Conversely, what is stopped outside was stopped inside. -/
theorem stopped_inner {inner outer : Except Halt α × World} {places : List Span}
    (h : Unwound places inner outer) (hs : Stopped outer) : Stopped inner := by
  rcases hs with ⟨halt, hh⟩ | he
  · left
    cases hr : inner.1 with
    | error halt' => exact ⟨halt', rfl⟩
    | ok a =>
      rw [h.result, hr] at hh
      cases hh
  · exact .inr (h.world.signal.symm.trans he)

end Unwound

-- ================================================ sequences and passes

namespace Eval

variable {x : Eval Value} {rest : Value → Eval Value}

/-- What stopped in a list of statements stops the list. -/
theorem runIn_seq_of_stopped (hs : Stopped (x.runIn world)) :
    (do let value ← x
        if (← get).signal = .none then rest value else return value :
      Eval Value).runIn world = x.runIn world := by
  rw [runIn_bind]
  cases hrun : x.runIn world with
  | mk result after =>
    cases result with
    | error halt => rfl
    | ok value =>
      rw [hrun] at hs
      have he : after.signal = .exit := hs.exit
      simp [runIn_bind, he]

/-- A list of statements stops with one of them, or with those that follow. -/
theorem runIn_seq_cases
    (hs : Stopped ((do
        let value ← x
        if (← get).signal = .none then rest value else return value :
      Eval Value).runIn world)) :
    Stopped (x.runIn world) ∨
    ∃ value after, x.runIn world = (.ok value, after) ∧ after.signal = .none ∧
      (do let value ← x
          if (← get).signal = .none then rest value else return value :
        Eval Value).runIn world = (rest value).runIn after := by
  rw [runIn_bind] at hs ⊢
  cases hrun : x.runIn world with
  | mk result after =>
    rw [hrun] at hs
    cases result with
    | error halt => exact .inl (.inl ⟨halt, rfl⟩)
    | ok value =>
      by_cases hn : after.signal = .none
      · exact .inr ⟨value, after, rfl, hn, by simp [runIn_bind, hn]⟩
      · left
        simpa [runIn_bind, hn] using hs

/-- A pass that stopped stops the loop. -/
theorem runIn_pass_of_stopped (hs : Stopped (x.runIn world)) :
    (do let value ← x
        if ← loopEnds then return value else rest value :
      Eval Value).runIn world = x.runIn world := by
  rw [runIn_bind]
  cases hrun : x.runIn world with
  | mk result after =>
    cases result with
    | error halt => rfl
    | ok value =>
      rw [hrun] at hs
      have he : after.signal = .exit := hs.exit
      simp [runIn_bind, runIn_loopEnds, he]

/-- A loop stops with one of its passes, or with those that follow. -/
theorem runIn_pass_cases
    (hs : Stopped ((do let value ← x
                       if ← loopEnds then return value else rest value :
      Eval Value).runIn world)) :
    Stopped (x.runIn world) ∨
    ∃ value middle after, x.runIn world = (.ok value, middle) ∧
      loopEnds.runIn middle = (.ok false, after) ∧
      (do let value ← x
          if ← loopEnds then return value else rest value :
        Eval Value).runIn world = (rest value).runIn after := by
  rw [runIn_bind] at hs ⊢
  cases hrun : x.runIn world with
  | mk result middle =>
    rw [hrun] at hs
    cases result with
    | error halt => exact .inl (.inl ⟨halt, rfl⟩)
    | ok value =>
      have hl := runIn_loopEnds middle
      cases hm : middle.signal with
      | none | «continue» =>
        rw [hm] at hl
        refine .inr ⟨value, middle, _, rfl, hl, ?_⟩
        show (loopEnds >>= _).runIn middle = _
        rw [runIn_bind_of_ok hl]
        rfl
      | «break» | «return» =>
        -- the loop ends here, and without an exit
        rw [hm] at hl
        dsimp only at hs
        rw [runIn_bind_of_ok hl] at hs
        exact absurd hs (by simp [Stopped, hm, World.raise])
      | exit => exact .inl (.inr hm)

end Eval

-- ============================================================ outwards

/-- A frame that was opened for something is closed when it ends. -/
theorem unwound_inSubscope {frame : FrameId} {body : FrameId → Eval α}
    (h : ∀ inner, Eval.Steps (fun _ => True) true inner (body inner)) :
    Unwound [] ((body (world.enter frame).1).runIn (world.enter frame).2)
      ((inSubscope frame body).runIn world) := by
  rw [Eval.runIn_inSubscope_of_steps h]
  exact ⟨(Unwound.refl _).result, .leave _ .refl⟩

/-- An error learns what it lies within. -/
theorem unwound_inside (span : Span) (x : Eval α) :
    Unwound [span] (x.runIn world) ((Eval.inside span x).runIn world) := by
  rw [Eval.runIn_inside]
  cases x.runIn world with
  | mk result after =>
    refine ⟨?_, ?_⟩
    · cases result with
      | ok a => rfl
      | error halt => cases halt <;> rfl
    · cases result with
      | ok a => exact .refl
      | error halt => cases halt <;> exact .refl

/-- A block is run in the world with its frame open, and then the frame is
closed. -/
theorem unwound_framed (loopVariable : Option (String × String))
    (statements : List Statement) (span : Span) :
    Unwound [] (Stage.run settings
      ⟨.statements statements [], ⟨(world.enter site.frame).1, site.depth⟩,
        world.openFor site.frame loopVariable⟩) (Stage.run settings
          ⟨.framed loopVariable ⟨statements, span⟩, site, world⟩) := by
  have hblock : ∀ inner, Eval.Steps (fun _ => True) true inner
      (execBlock settings (site.invoke settings) inner ⟨statements, span⟩) :=
    fun inner =>
      execBlock_steps (invokeWithin_steps settings _) _ fun _ _ => trivial
  cases loopVariable with
  | none => exact unwound_inSubscope hblock
  | some entry =>
    obtain ⟨name, x⟩ := entry
    exact unwound_inSubscope fun inner =>
      .bind (.changing fun _ => .bind name [x]) fun _ => hblock inner

/-- An invoked rule is run in the world with its frame open, the frame is
closed, and an error learns where the invocation is. -/
theorem unwound_invoke (name : String) (rule : RuleDefinition)
    (arguments : List Value) (span : Span) (world : World)
    (hd : site.depth < settings.maxDepth) :
    Unwound [span]
      (Stage.run settings ⟨.invoked name rule arguments,
        ⟨(world.enter site.frame).1, site.depth + 1⟩,
        (world.enter site.frame).2⟩)
      ((site.invoke settings site.frame name rule arguments span).runIn
        world) := by
  have hsteps : ∀ inner, Eval.Steps (fun _ => True) true inner
      ((Task.invoked name rule arguments).exec settings
        ⟨inner, site.depth + 1⟩) := by
    intro inner
    refine .bind (.bindArguments ..) fun _ => ?_
    refine .bind (execBlock_steps (invokeWithin_steps settings _) rule.body ?_)
      fun value => ?_
    · exact fun _ _ => trivial
    · exact .bind (.settle ..) fun _ => .pure value
  have hframe : Unwound [] _ ((inSubscope site.frame fun inner =>
      (Task.invoked name rule arguments).exec settings
        ⟨inner, site.depth + 1⟩).runIn world) :=
    unwound_inSubscope hsteps
  rw [Site.invoke_eq, if_neg (Nat.not_le.mpr hd)]
  exact hframe.trans (unwound_inside span _)

/-- What stops at a stage stops the stages it was called from. -/
theorem Calls.stop (h : Calls settings c places c')
    (hs : Stopped (c'.run settings)) :
    Unwound places (c'.run settings) (c.run settings) := by
  have same {c₁ c₂ : Stage} (hrun : c₂.run settings = c₁.run settings) :
      Unwound [] (c₁.run settings) (c₂.run settings) := hrun ▸ .refl _
  cases h with
  | framed => exact unwound_framed ..
  | block =>
    refine same ?_
    rw [Stage.run_statement, Statement.exec]
    rfl
  | @yes _ _ no _ _ _ _ hr =>
    refine same ?_
    cases no with
    | none =>
      rw [Stage.run_statement, Statement.exec, Eval.runIn_bind_of_ok hr]
      rfl
    | some no =>
      rw [Stage.run_statement, Statement.exec, Eval.runIn_bind_of_ok hr]
      rfl
  | no hr =>
    refine same ?_
    rw [Stage.run_statement, Statement.exec, Eval.runIn_bind_of_ok hr]
    rfl
  | forLoop hr hr' =>
    refine same ?_
    rw [Stage.run_statement, Statement.exec, Eval.runIn_bind_of_ok hr,
      Eval.runIn_bind_of_ok hr']
    rfl
  | whileLoop =>
    refine same ?_
    rw [Stage.run_statement, Statement.exec]
    rfl
  | @invocation i lists span site world middle after name arguments rule hr hr'
    hrule hlt =>
    rw [Stage.run_invocation span hr hr' hrule]
    exact unwound_invoke name rule arguments span after hlt
  | head => exact same (Eval.runIn_seq_of_stopped hs)
  | tail hr hn =>
    refine same ?_
    show (execAll settings _ _ _ _).runIn _ = _
    rw [Stage.run_statement] at hr
    rw [execAll, Eval.runIn_bind_of_ok hr, Eval.runIn_get_bind, if_pos hn]
    rfl
  | pass => exact same (Eval.runIn_pass_of_stopped hs)
  | nextPass hr hl =>
    refine same ?_
    show (forEach _ _ _).runIn _ = _
    rw [Stage.run_framed] at hr
    rw [forEach, Eval.runIn_bind_of_ok hr, Eval.runIn_bind_of_ok hl]
    rfl
  | passWhile hr =>
    refine same ?_
    show (repeatWhile _ _ _ _).runIn _ = _
    rw [repeatWhile, Eval.runIn_bind_of_ok hr]
    exact Eval.runIn_pass_of_stopped hs
  | nextPassWhile hr hr' hl =>
    refine same ?_
    show (repeatWhile _ _ _ _).runIn _ = _
    rw [Stage.run_framed] at hr'
    rw [repeatWhile, Eval.runIn_bind_of_ok hr, if_pos rfl,
      Eval.runIn_bind_of_ok hr', Eval.runIn_bind_of_ok hl]
    rfl
  | @body name i parameters statements place span arguments site world
    after hb =>
    refine same ?_
    rw [Stage.run_invoked, Eval.runIn_bind_of_ok hb, Eval.runIn_bind]
    cases hrun :
      Stage.run settings ⟨.statements statements [], site, after⟩ with
    | mk result last =>
      have hexec : (execBlock settings (site.invoke settings) site.frame
          ⟨statements, place⟩).runIn after = (result, last) := hrun
      rw [hexec]
      cases result with
      | error halt => rfl
      | ok value =>
        rw [hrun] at hs
        have he : last.signal = .exit := hs.exit
        dsimp only
        rw [Eval.runIn_bind, Eval.runIn_settle_exit _ _ _ he]
        rfl

/-- What stops at a stage stops all stages it was reached from. -/
theorem Reaches.stop (h : Reaches settings c places c')
    (hs : Stopped (c'.run settings)) :
    Unwound places (c'.run settings) (c.run settings) := by
  induction h with
  | here => exact .refl _
  | call h _ ih =>
    have hin := ih hs
    exact hin.trans (h.stop (hin.stopped hs))

-- ============================================================= inwards

/-- The built-in rule that exits is invoked: the name is one of its names, the
arguments have values, and no rule of that name is defined. -/
inductive ExitsAt (settings : Settings) : Stage → Prop
  | intro {i : Identifier} {lists : List WordList} {span : Span} {site : Site}
      {world middle after : World} {name : String} {arguments : List Value} :
      (Eval.read settings site.frame i.resolve).runIn world =
        (.ok name, middle) →
      (Eval.read settings site.frame (listValues · lists)).runIn middle =
        (.ok arguments, after) →
      after.rules.find? name = none → BuiltIn.ofName? name = some .exit →
      ExitsAt settings ⟨.statement (.invocation i lists span), site, world⟩

/-- The value of the built-in rule that exits is empty, and its signal stays. -/
theorem ExitsAt.run (h : ExitsAt settings c) :
    (c.run settings).1 = .ok [] ∧ (c.run settings).2.signal = .exit := by
  cases h with
  | @intro i lists span site world middle after name arguments hr hr'
    hrule hb =>
    rw [Stage.run_invocation_undefined span hr hr' hrule,
      Eval.runIn_invokeUndefined_exit settings arguments span hb]
    exact ⟨rfl, rfl⟩

/-- What can break down at a stage itself. -/
inductive FaultAt (settings : Settings) : Stage → Halt → Prop
  /-- Something could not be read. -/
  | reading {c : Stage} {e : Error} :
      e.OfReading → FaultAt settings c (.error e)
  /-- A rule is defined, but too many are active. -/
  | refused {i : Identifier} {lists : List WordList} {span : Span} {site : Site}
      {world middle after : World} {name : String} {arguments : List Value}
      {rule : RuleDefinition} :
      (Eval.read settings site.frame i.resolve).runIn world =
        (.ok name, middle) →
      (Eval.read settings site.frame (listValues · lists)).runIn middle =
        (.ok arguments, after) →
      after.rules.find? name = some rule → settings.maxDepth ≤ site.depth →
      FaultAt settings ⟨.statement (.invocation i lists span), site, world⟩
        (.error (.found (.recursionLimit name settings.maxDepth) span))
  /-- A while loop made all its passes. -/
  | outOfPasses {c : Stage} : FaultAt settings c .outOfPasses

/-- The stage stops, and not because of one that it calls. -/
inductive Stage.StopsItself (settings : Settings) (c : Stage) : Prop
  | fault {halt : Halt} :
      (c.run settings).1 = .error halt → (c.run settings).2.signal = .none →
      FaultAt settings c halt → c.StopsItself settings
  | exit : ExitsAt settings c → c.StopsItself settings

/-- The stage stops because one that it calls does, or by itself. -/
def Stage.StopsSomehow (settings : Settings) (c : Stage) : Prop :=
  (∃ places c', Calls settings c places c' ∧ Stopped (c'.run settings)) ∨
    c.StopsItself settings

section Inwards

open Eval (Plain)

variable {β : Type} {x : Eval β} {f : β → Eval Value}

theorem not_stopped {value : Value} (h : after.signal ≠ .exit) :
    ¬ Stopped ((.ok value, after) : Except Halt Value × World) :=
  fun hs => h hs.exit

/-- A stage that begins with a plain action stops there or later. -/
theorem Stage.stops_bind (hx : Plain x)
    (hrun : c.run settings = (x >>= f).runIn world) (hq : world.signal = .none)
    (done : ∀ a after, x.runIn world = (.ok a, after) → after.signal = .none →
      c.run settings = (f a).runIn after → c.StopsSomehow settings) :
    c.StopsSomehow settings := by
  refine hx.elim world
    (fun outcome => c.run settings = outcome → c.StopsSomehow settings)
    (fun e after _ he hs hc => .inr ?_) (fun a after ha hs hc => ?_) hrun
  · exact .fault (by rw [hc]) (by rw [hc]; exact hs.trans hq) (.reading he)
  · exact done a after ha (hs.trans hq) hc

/-- A stage that is a plain action stops only by itself. -/
theorem Stage.stops_plain {x : Eval Value} (hx : Plain x)
    (hrun : c.run settings = x.runIn world) (hq : world.signal = .none)
    (hs : Stopped (c.run settings)) : c.StopsSomehow settings := by
  have hn : (c.run settings).2.signal = .none := by
    rw [hrun]
    exact (hx.signal world).trans hq
  rcases hs with ⟨halt, hh⟩ | he
  · obtain ⟨e, rfl, he⟩ := hx.halts world halt (by rw [← hrun]; exact hh)
    exact .inr (.fault hh hn (.reading he))
  · rw [hn] at he
    cases he

/-- An invocation stops at a reading, because it is refused, as the built-in
rule that exits, or in the rule. -/
theorem Stage.stops_invocation {i : Identifier} {lists : List WordList}
    {span : Span} (hq : world.signal = .none)
    (hs : Stopped (Stage.run settings
      ⟨.statement (.invocation i lists span), site, world⟩)) :
    Stage.StopsSomehow settings
      ⟨.statement (.invocation i lists span), site, world⟩ := by
  have hrun :=
    Stage.run_statement settings (.invocation i lists span) site world
  rw [Statement.exec] at hrun
  refine Stage.stops_bind (.read settings _ i.resolve_sound) hrun hq
    fun name middle hr hn hrun => ?_
  refine Stage.stops_bind
    (.read settings _ fun env => listValues_sound env lists) hrun hn
    fun arguments after hr' hn' _ => ?_
  cases hrule : after.rules.find? name with
  | some rule =>
    have hrun := Stage.run_invocation span hr hr' hrule
    by_cases hd : settings.maxDepth ≤ site.depth
    · rw [Site.invoke_eq, if_pos hd] at hrun
      refine .inr (.fault ?_ ?_ (.refused hr hr' hrule hd))
      · rw [hrun]
        rfl
      · rw [hrun]
        exact hn'
    · have hlt : site.depth < settings.maxDepth := Nat.not_le.mp hd
      have hun := unwound_invoke name rule arguments span after hlt
      rw [← hrun] at hun
      exact .inl ⟨[span], _, .invocation hr hr' hrule hlt, hun.stopped_inner hs⟩
  | none =>
    have hrun := Stage.run_invocation_undefined span hr hr' hrule
    by_cases hb : BuiltIn.ofName? name = some .exit
    · exact .inr (.exit (.intro hr hr' hrule hb))
    · exact Stage.stops_plain (.invokeUndefined settings arguments span hb)
        hrun hn' hs

/-- A statement stops at a reading, or in one of its parts. -/
theorem Stage.stops_statement (s : Statement) (hq : world.signal = .none)
    (hs : Stopped (Stage.run settings ⟨.statement s, site, world⟩)) :
    Stage.StopsSomehow settings ⟨.statement s, site, world⟩ := by
  have hrun := Stage.run_statement settings s site world
  cases s with
  | invocation i lists span => exact Stage.stops_invocation hq hs
  | assignment i op value span =>
    exact Stage.stops_plain (.assignment i op value span) hrun hq hs
  | localBinding names value span =>
    exact Stage.stops_plain (.localBinding names value span) hrun hq hs
  | returnWith value span =>
    rw [Statement.exec] at hrun
    refine Stage.stops_bind (.read settings _ value.value_sound) hrun hq
      fun value after _ _ h => ?_
    rw [h] at hs
    exact absurd hs (not_stopped nofun)
  | breakLoop span =>
    rw [hrun] at hs
    exact absurd hs (not_stopped nofun)
  | continueLoop span =>
    rw [hrun] at hs
    exact absurd hs (not_stopped nofun)
  | block b =>
    rw [Statement.exec] at hrun
    rw [hrun] at hs
    exact .inl ⟨[], _, .block, hs⟩
  | choice condition yes no span =>
    have hc : ∀ env, (condition.holds env).Sound :=
      fun env => condition.holds_sound env
    cases no with
    | none =>
      rw [Statement.exec] at hrun
      refine Stage.stops_bind (.read settings _ hc) hrun hq
        fun holds after hr hn h => ?_
      rw [h] at hs
      cases holds with
      | true => exact .inl ⟨[], _, .yes hr, hs⟩
      | false => exact absurd hs (not_stopped (by rw [hn]; decide))
    | some no =>
      rw [Statement.exec] at hrun
      refine Stage.stops_bind (.read settings _ hc) hrun hq
        fun holds after hr hn h => ?_
      rw [h] at hs
      cases holds with
      | true => exact .inl ⟨[], _, .yes hr, hs⟩
      | false => exact .inl ⟨[], _, .no hr, hs⟩
  | forLoop i values body span =>
    rw [Statement.exec] at hrun
    refine Stage.stops_bind (.read settings _ i.resolve_sound) hrun hq
      fun name middle hr hn h => ?_
    refine Stage.stops_bind (.read settings _ values.value_sound) h hn
      fun vs after hr' _ h => ?_
    rw [h] at hs
    exact .inl ⟨[], _, .forLoop hr hr', hs⟩
  | whileLoop condition body span =>
    rw [Statement.exec] at hrun
    rw [hrun] at hs
    exact .inl ⟨[], _, .whileLoop, hs⟩
  | definition rule => exact Stage.stops_plain (.definition rule) hrun hq hs

/-- Whatever stops does so in a stage that it calls, or by itself. -/
theorem Stage.stops_cases (c : Stage) (hq : c.world.signal = .none)
    (hs : Stopped (c.run settings)) : c.StopsSomehow settings := by
  obtain ⟨task, site, world⟩ := c
  cases task with
  | statement s => exact Stage.stops_statement s hq hs
  | statements ss last =>
    cases ss with
    | nil => exact absurd hs (not_stopped (by rw [hq]; decide))
    | cons s ss =>
      rcases Eval.runIn_seq_cases hs with h | ⟨value, after, hr, hn, h⟩
      · exact .inl ⟨[], _, .head, h⟩
      · have hrun :
            Stage.run settings ⟨.statements (s :: ss) last, site, world⟩ =
            Stage.run settings ⟨.statements ss value, site, after⟩ := h
        rw [hrun] at hs
        exact .inl ⟨[], _, .tail hr hn, hs⟩
  | framed loopVariable b =>
    obtain ⟨statements, span⟩ := b
    exact .inl ⟨[], _, .framed, (unwound_framed ..).stopped_inner hs⟩
  | passes name values body last =>
    cases values with
    | nil => exact absurd hs (not_stopped (by rw [hq]; decide))
    | cons x xs =>
      rcases Eval.runIn_pass_cases hs with h | ⟨value, middle, after, hr, hl, h⟩
      · exact .inl ⟨[], _, .pass, h⟩
      · have hrun :
            Stage.run settings ⟨.passes name (x :: xs) body last, site, world⟩ =
            Stage.run settings ⟨.passes name xs body value, site, after⟩ := h
        rw [hrun] at hs
        exact .inl ⟨[], _, .nextPass hr hl, hs⟩
  | passesWhile condition body further last =>
    have hc : ∀ env, (condition.holds env).Sound :=
      fun env => condition.holds_sound env
    have hrun :=
      Stage.run_passesWhile settings condition body further last site world
    unfold repeatWhile at hrun
    refine Stage.stops_bind (.read settings _ hc) hrun hq
      fun holds after hr hn h => ?_
    cases holds with
    | false =>
      rw [h] at hs
      exact absurd hs (not_stopped (by rw [hn]; decide))
    | true =>
      cases further with
      | zero =>
        exact .inr (.fault (by rw [h]; rfl) (by rw [h]; exact hn) .outOfPasses)
      | succ further =>
        rw [h] at hs
        rcases Eval.runIn_pass_cases
            hs with hp | ⟨value, middle, last', hr', hl, hp⟩
        · exact .inl ⟨[], _, .passWhile hr, hp⟩
        · refine .inl ⟨[], _, .nextPassWhile hr hr' hl, ?_⟩
          rw [if_pos rfl] at hs
          rw [hp] at hs
          exact hs
  | invoked name rule arguments =>
    obtain ⟨i, parameters, ⟨statements, place⟩, span⟩ := rule
    have hrun :=
      Stage.run_invoked settings name ⟨i, parameters, ⟨statements, place⟩, span⟩
      arguments site world
    refine Stage.stops_bind (.bindArguments ..) hrun hq fun _ after hb _ h => ?_
    refine .inl ⟨[], _, .body hb, ?_⟩
    rw [h, Eval.runIn_bind] at hs
    cases hbody :
      Stage.run settings ⟨.statements statements [], site, after⟩ with
    | mk result last =>
      have hexec : (execBlock settings (site.invoke settings) site.frame
          ⟨statements, place⟩).runIn after = (result, last) := hbody
      rw [hexec] at hs
      cases result with
      | error halt => exact .inl ⟨halt, rfl⟩
      | ok value =>
        -- the end of a rule leaves an exit only if there was one
        dsimp only at hs
        rw [Eval.runIn_bind, (Eval.runIn_settle ..).1] at hs
        exact .inr ((Eval.settle_exit_iff ..).mp hs.exit)

/-- Whatever stops does so in a stage that is reached from it and stops by
itself, while none of those that this one calls stops. -/
theorem Stage.exists_source (settings : Settings) (c : Stage)
    (hq : c.world.signal = .none) (hs : Stopped (c.run settings)) :
    ∃ places c', Reaches settings c places c' ∧ c'.StopsItself settings ∧
      Stopped (c'.run settings) ∧ ∀ places' c'', Calls settings c' places' c'' →
      ¬ Stopped (c''.run settings) := by
  induction c using Stage.induct settings with
  | step c ih =>
    by_cases hcalled : ∃ places c',
      Calls settings c places c' ∧ Stopped (c'.run settings)
    · obtain ⟨places, c', hc, hs'⟩ := hcalled
      obtain ⟨places', c'', hr, h⟩ := ih places c' hc (hc.quiet hq) hs'
      exact ⟨places' ++ places, c'', .call hc hr, h⟩
    · have hself : c.StopsItself settings :=
        (c.stops_cases hq hs).resolve_left hcalled
      exact ⟨[], c, .here, hself, hs,
        fun places c' hc hs' => hcalled ⟨places, c', hc, hs'⟩⟩

end Inwards

end Jam
