/-
Exits stop everything.

After the built-in rule that exits has been invoked, a program is left from
the inside to the outside: every statement, pass and invocation that is
under way ends at once. What may still happen then is told in two ways.

- By the stages of the run. Of all stages that a run comes through, each
  lies around the one that exits, or had ended before it began
  (`EndsBefore`). So nothing is begun any more.
- By the worlds in which the stages around it end. They are the world in
  which the exit ended with frames closed (`World.OnlyCloses`). So what is
  left to be done in these stages reports nothing, binds no variable and
  defines no rule.

# The order of stages

A stage calls at most two others, and the second one (`Follows`) only when
the first has ended and left no signal that would stop it: the statements
behind a statement, and the passes behind a pass. Two calls of one stage
are therefore the same or follow one another (`Calls.ordered`), and by
induction on the way any two stages of a run lie inside one another or
come one before the other (`Reaches.ordered`). That the way to an exit has
nothing behind it is the outward direction, `Reaches.stop`.
-/
import Jam.Proofs.Eval.Signals
import Jam.Proofs.Syntax.Outcome

namespace Jam

variable {settings : Settings} {world after : World} {c d : Stage}
  {places places' : List Span}

-- ================================================= the order of stages

/-- The second stage is what is run next, in the same stage, when the first one
has ended. -/
inductive Follows (settings : Settings) : Stage → Stage → Prop
  | tail {s : Statement} {ss : List Statement} {value : Value} {site : Site}
      {world after : World} :
      Stage.run settings ⟨.statement s, site, world⟩ = (.ok value, after) →
      after.signal = .none → Follows settings ⟨.statement s, site, world⟩
        ⟨.statements ss value, site, after⟩
  | nextPass {name x : String} {xs : List String} {body : Block} {value : Value}
      {site : Site} {world middle after : World} :
      Stage.run settings ⟨.framed (some (name, x)) body, site, world⟩ =
        (.ok value, middle) →
      loopEnds.runIn middle = (.ok false, after) →
      Follows settings ⟨.framed (some (name, x)) body, site, world⟩
        ⟨.passes name xs body value, site, after⟩
  | nextPassWhile {condition : Condition} {body : Block} {further : Nat}
      {value : Value} {site : Site} {world middle after : World} :
      Stage.run settings ⟨.framed none body, site, world⟩ =
        (.ok value, middle) →
      loopEnds.runIn middle = (.ok false, after) →
      Follows settings ⟨.framed none body, site, world⟩
        ⟨.passesWhile condition body further value, site, after⟩

/-- One stage has ended when the other begins: they are reached from two stages
of which the second follows the first. -/
def EndsBefore (settings : Settings) (c d : Stage) : Prop :=
  ∃ a b places places', Follows settings a b ∧ Reaches settings a places c ∧
    Reaches settings b places' d

/-- Nothing follows what stopped. -/
theorem Follows.not_stopped (h : Follows settings c d) :
    ¬ Stopped (c.run settings) := by
  have goesOn {value : Value} {middle after : World}
      (hl : loopEnds.runIn middle = (.ok false, after)) :
      ¬ Stopped ((.ok value, middle) : Except Halt Value × World) := by
    intro hs
    rw [Eval.runIn_loopEnds, hs.exit] at hl
    cases hl
  cases h with
  | tail hr hn =>
    rw [hr]
    exact not_stopped (by rw [hn]; decide)
  | nextPass hr hl | nextPassWhile hr hl =>
    rw [hr]
    exact goesOn hl

/-- Of two stages called by the same stage one follows the other, unless they
are the same. -/
theorem Calls.ordered (h : Calls settings c places d) {e : Stage}
    (h' : Calls settings c places' e) :
    (places = places' ∧ d = e) ∨ Follows settings d e ∨
      Follows settings e d := by
  cases h with
  | block | whileLoop | framed =>
    cases h'
    exact .inl ⟨rfl, rfl⟩
  | yes hr =>
    cases h' with
    | yes hr' =>
      cases hr.symm.trans hr'
      exact .inl ⟨rfl, rfl⟩
    | no hr' => cases hr.symm.trans hr'
  | no hr =>
    cases h' with
    | yes hr' => cases hr.symm.trans hr'
    | no hr' =>
      cases hr.symm.trans hr'
      exact .inl ⟨rfl, rfl⟩
  | forLoop hi hv =>
    cases h' with
    | forLoop hi' hv' =>
      cases hi.symm.trans hi'
      cases hv.symm.trans hv'
      exact .inl ⟨rfl, rfl⟩
  | invocation hi hv hrule =>
    cases h' with
    | invocation hi' hv' hrule' =>
      cases hi.symm.trans hi'
      cases hv.symm.trans hv'
      cases hrule.symm.trans hrule'
      exact .inl ⟨rfl, rfl⟩
  | body hb =>
    cases h' with
    | body hb' =>
      cases hb.symm.trans hb'
      exact .inl ⟨rfl, rfl⟩
  -- what is called first, and what comes behind it
  | head =>
    cases h' with
    | head => exact .inl ⟨rfl, rfl⟩
    | tail hr hn => exact .inr (.inl (.tail hr hn))
  | tail hr hn =>
    cases h' with
    | head => exact .inr (.inr (.tail hr hn))
    | tail hr' =>
      cases hr.symm.trans hr'
      exact .inl ⟨rfl, rfl⟩
  | pass =>
    cases h' with
    | pass => exact .inl ⟨rfl, rfl⟩
    | nextPass hr hl => exact .inr (.inl (.nextPass hr hl))
  | nextPass hr hl =>
    cases h' with
    | pass => exact .inr (.inr (.nextPass hr hl))
    | nextPass hr' hl' =>
      cases hr.symm.trans hr'
      cases hl.symm.trans hl'
      exact .inl ⟨rfl, rfl⟩
  | passWhile hc =>
    cases h' with
    | passWhile hc' =>
      cases hc.symm.trans hc'
      exact .inl ⟨rfl, rfl⟩
    | nextPassWhile hc' hr hl =>
      cases hc.symm.trans hc'
      exact .inr (.inl (.nextPassWhile hr hl))
  | nextPassWhile hc hr hl =>
    cases h' with
    | passWhile hc' =>
      cases hc.symm.trans hc'
      exact .inr (.inr (.nextPassWhile hr hl))
    | nextPassWhile hc' hr' hl' =>
      cases hc.symm.trans hc'
      cases hr.symm.trans hr'
      cases hl.symm.trans hl'
      exact .inl ⟨rfl, rfl⟩

/-- Any two stages of a run lie inside one another, or one of them has ended
when the other begins. -/
theorem Reaches.ordered {start : Stage} (hc : Reaches settings start places c)
    (hd : Reaches settings start places' d) :
    (∃ inner, Reaches settings c inner d) ∨
      (∃ inner, Reaches settings d inner c) ∨
      EndsBefore settings c d ∨ EndsBefore settings d c := by
  induction hc generalizing places' d with
  | here => exact .inl ⟨places', hd⟩
  | call h hr ih =>
    cases hd with
    | here => exact .inr (.inl ⟨_, .call h hr⟩)
    | call h' hr' =>
      rcases h.ordered h' with ⟨-, rfl⟩ | hf | hf
      · exact ih hr'
      · exact .inr (.inr (.inl ⟨_, _, _, _, hf, hr, hr'⟩))
      · exact .inr (.inr (.inr ⟨_, _, _, _, hf, hr', hr⟩))

/-- Of the stages of a run each lies around one that stops and calls nothing, or
has ended before it. -/
theorem Reaches.around_or_before {start : Stage}
    (hc : Reaches settings start places c) (hs : Stopped (c.run settings))
    (hn : ∀ places e, ¬ Calls settings c places e)
    (hd : Reaches settings start places' d) :
    (∃ inner, Reaches settings d inner c) ∨ EndsBefore settings d c := by
  rcases hc.ordered hd with ⟨_, hin⟩ | hout | ⟨a, b, _, _, hf, hin, -⟩ | hbefore
  · cases hin with
    | here => exact .inl ⟨[], .here⟩
    | call h => exact absurd h (hn _ _)
  · exact .inl hout
  · exact absurd ((hin.stop hs).stopped hs) hf.not_stopped
  · exact .inr hbefore

-- ====================================================== closing frames

/-- All that was done from the first world to the second one is that frames were
closed: the record and the rules are the same, and the frames still open have
the variables they had. -/
structure World.OnlyCloses (before after : World) : Prop where
  events : after.events = before.events
  rules : after.rules = before.rules
  frames : after.scopes.frames.toList <+: before.scopes.frames.toList

theorem Scopes.release_isPrefix (s : Scopes) (id : FrameId) :
    (s.release id).frames.toList <+: s.frames.toList := by
  unfold release
  split
  · exact List.prefix_rfl
  · rw [Array.toList_shrink]
    exact List.take_prefix id _

theorem World.Unwinds.onlyCloses (h : world.Unwinds after) :
    world.OnlyCloses after := by
  induction h with
  | refl => exact ⟨rfl, rfl, List.prefix_rfl⟩
  | @leave after frame _ ih =>
    exact ⟨ih.events, ih.rules,
      (after.scopes.release_isPrefix frame).trans ih.frames⟩

-- =============================================================== exits

/-- An exit runs no further stage. -/
theorem ExitsAt.calls_nothing (h : ExitsAt settings c) :
    ¬ Calls settings c places d := by
  intro hc
  cases h with
  | intro hi hv hrule _ =>
    cases hc with
    | invocation hi' hv' hrule' =>
      cases hi.symm.trans hi'
      cases hv.symm.trans hv'
      cases hrule.symm.trans hrule'

/-- It echoes its first argument, after its arguments have been read. -/
theorem ExitsAt.exists_echo (h : ExitsAt settings c) :
    ∃ name arguments read, Invokes settings c name arguments read ∧
      read.rules.find? name = none ∧ BuiltIn.ofName? name = some .exit ∧
      (c.run settings).2.events =
        read.events.push
          (.echoed (Value.display (arguments.head?.getD []))) := by
  cases h with
  | @intro i lists span site world middle read name arguments hi hv hrule hb =>
    refine ⟨name, arguments, read, .intro hi hv, hrule, hb, ?_⟩
    rw [Stage.run_invocation_undefined span hi hv hrule,
      Eval.runIn_invokeUndefined_exit settings arguments span hb]
    rfl

/-- The stages around an exit end with it, and with its value. -/
theorem Reaches.exits (h : Reaches settings d places c)
    (he : ExitsAt settings c) :
    (d.run settings).1 = .ok [] ∧ (d.run settings).2.signal = .exit ∧
      (c.run settings).2.OnlyCloses (d.run settings).2 := by
  have hun := h.stop (.inr he.run.2)
  refine ⟨?_, hun.world.signal.trans he.run.2, hun.world.onlyCloses⟩
  rw [hun.result, he.run.1]
  rfl

/-- A program ends with the exit that it comes to. -/
theorem Program.runIn_of_exits {p : Program}
    (h : Reaches settings (p.start settings world) places c)
    (he : ExitsAt settings c) :
    (p.runIn settings).runIn world =
      (.ok ⟨[], .exit⟩, ((p.start settings world).run settings).2) := by
  obtain ⟨hvalue, hsignal, -⟩ := h.exits he
  rw [Program.runIn_eq]
  cases hrun : (p.start settings world).run settings with
  | mk result done =>
    rw [hrun] at hvalue hsignal
    cases hvalue
    dsimp only at hsignal ⊢
    rw [Eval.runIn_settle_exit _ _ _ hsignal, hsignal]

/-- Exits stop everything. Once a program has come to one, no stage is begun any
more, and the stages around it, the whole program among them, end with an empty
value and an exit, and do nothing but close frames. So the last thing that a
program with an exit reports is what the exit echoes. -/
theorem exit_stops_everything (settings : Settings) (p : Program)
    (world : World) :
    (∀ places c, Reaches settings (p.start settings world) places c →
      ExitsAt settings c →
      (∀ places' d, Reaches settings (p.start settings world) places' d →
        (∃ inner, Reaches settings d inner c) ∨ EndsBefore settings d c) ∧
      (∀ inner d, Reaches settings d inner c →
        (d.run settings).1 = .ok [] ∧ (d.run settings).2.signal = .exit ∧
          (c.run settings).2.OnlyCloses (d.run settings).2) ∧
      ∃ after, (p.runIn settings).runIn world = (.ok ⟨[], .exit⟩, after) ∧
        (c.run settings).2.OnlyCloses after) ∧
    ∀ ending after, (p.runIn settings).runIn world = (.ok ending, after) →
      ending.signal = .exit →
      ending.value = [] ∧ ∃ places c name arguments read,
        Reaches settings (p.start settings world) places c ∧
        ExitsAt settings c ∧ Invokes settings c name arguments read ∧
        after.events = read.events.push
          (.echoed (Value.display (arguments.head?.getD []))) := by
  refine ⟨fun places c hr he =>
    ⟨fun places' d hd => ?_, fun inner d hd => hd.exits he, ?_⟩,
    fun ending after hrun hsignal => ?_⟩
  · exact hr.around_or_before (.inr he.run.2) (fun _ _ => he.calls_nothing) hd
  · exact ⟨_, p.runIn_of_exits hr he, (hr.exits he).2.2⟩
  · obtain ⟨places, c, hr, he⟩ := (Program.signal_of_ending hrun).2.mp hsignal
    obtain ⟨name, arguments, read, hinvokes, -, -, hechoes⟩ := he.exists_echo
    have hcloses := (hr.exits he).2.2
    rw [Program.runIn_of_exits hr he] at hrun
    cases hrun
    exact ⟨rfl, places, c, name, arguments, read, hr, he, hinvokes,
      hcloses.events.trans hechoes⟩

/-- A text that exits in a loop, in a rule that is invoked in a loop. -/
def quittingText : String :=
  "rule q { while a { Exit $(1) ; } } for x in y z { q $(x) ; }"

/-- It ends with what the exit echoes, and everything that ran is around the
exit or before it. -/
theorem quittingText_exits :
    ∃ p ending after, Program.parse "t" quittingText = .ok p ∧
      (p.runIn {}).runIn {} = (.ok ending, after) ∧
      ending.signal = .exit ∧ ending.value = [] ∧
      after.events = #[.echoed "y"] ∧
      ∃ places c, Reaches {} (p.start {} {}) places c ∧ ExitsAt {} c ∧
        ∀ places' d, Reaches {} (p.start {} {}) places' d →
          (∃ inner, Reaches {} d inner c) ∨ EndsBefore {} d c := by
  have hexits : ((Program.parse "t" quittingText).toOption.elim false fun p =>
      let outcome := (p.runIn {}).runIn {}
      outcome.1.toOption.elim false fun ending =>
        decide (ending.signal = .exit ∧ outcome.2.events = #[.echoed "y"])) =
        true := by decide +kernel
  obtain ⟨p, hp, hexits⟩ := Except.exists_ok_of_elim hexits
  cases hrun : (p.runIn {}).runIn {} with
  | mk result after =>
    rw [hrun] at hexits
    obtain ⟨ending, rfl, hending⟩ := Except.exists_ok_of_elim hexits
    obtain ⟨hsignal, hevents⟩ := of_decide_eq_true hending
    obtain ⟨hinside, hends⟩ := exit_stops_everything {} p {}
    obtain ⟨hvalue, places, c, _, _, _, hr, he, _⟩ :=
      hends ending after hrun hsignal
    exact ⟨p, ending, after, hp, hrun, hsignal, hvalue, hevents, places, c, hr,
      he, (hinside places c hr he).1⟩

end Jam
