/-
Statements that fail before they act.

Words are read before a statement acts. Reading changes nothing but the
record, and adds no echo to it (`World.OnlyWarned`). So a statement all
whose failures are failures of its words changes nothing when it fails:
assignments, local declarations, returns and definitions of rules, and
invocations unless a rule is entered.

A text that cannot be parsed is not run at all. The host gets the error,
and finds its session as it was.
-/
import Jam.Eval.Session
import Jam.Proofs.Eval.Stages
import Jam.Proofs.Syntax.Outcome

namespace Jam

variable {settings : Settings} {site : Site} {world before after : World}
  {α β : Type}

-- ================================================ nothing but warnings

/-- From the first world to the second one nothing was done but to report
warnings. How deep invocations are nested is told by the site, which no action
can change. -/
structure World.OnlyWarned (before after : World) : Prop where
  scopes : after.scopes = before.scopes
  rules : after.rules = before.rules
  signal : after.signal = before.signal
  echoes : echoesOf after.events.toList = echoesOf before.events.toList

namespace World.OnlyWarned

theorem refl (world : World) : world.OnlyWarned world := ⟨rfl, rfl, rfl, rfl⟩

theorem trans {middle : World} (h : before.OnlyWarned middle)
    (h' : middle.OnlyWarned after) : before.OnlyWarned after :=
  ⟨h'.scopes.trans h.scopes, h'.rules.trans h.rules, h'.signal.trans h.signal,
    h'.echoes.trans h.echoes⟩

/-- Warnings are no echoes. -/
theorem warnAll (settings : Settings) (ws : List Warning) (world : World) :
    world.OnlyWarned (world.warnAll settings ws) where
  scopes := world.warnAll_scopes settings ws
  rules := world.warnAll_rules settings ws
  signal := world.warnAll_signal settings ws
  echoes := by
    rw [World.warnAll_eq_map, World.record, Array.toList_append,
      echoesOf_append, List.toList_toArray, echoesOf_warned, List.append_nil]

end World.OnlyWarned

namespace Eval

/-- Reading does nothing but warn, whether or not it fails. -/
theorem read_onlyWarned (settings : Settings) (frame : FrameId)
    (reading : Environment → Reading α) (world : World) :
    world.OnlyWarned ((read settings frame reading).runIn world).2 := by
  rw [runIn_read]
  exact .warnAll settings _ world

-- ==================================================== what never fails

/-- The action has a value in every world. -/
def Total (x : Eval α) : Prop := ∀ world, ∃ a, (x.runIn world).1 = .ok a

namespace Total

theorem pure (a : α) : Total (Pure.pure a : Eval α) := fun _ => ⟨a, rfl⟩

theorem changing (f : World → World) : Total (modify f : Eval Unit) :=
  fun _ => ⟨(), rfl⟩

theorem bind {x : Eval α} {f : α → Eval β} (hx : Total x)
    (hf : ∀ a, Total (f a)) : Total (x >>= f) := by
  intro world
  obtain ⟨a, ha⟩ := hx world
  cases hrun : x.runIn world with
  | mk result middle =>
    rw [hrun] at ha
    cases ha
    rw [runIn_bind_of_ok hrun]
    exact hf a middle

theorem get_bind {f : World → Eval α} (hf : ∀ world, Total (f world)) :
    Total (get >>= f) :=
  fun world => hf world world

theorem closed : Closed Total where
  pure := .pure
  bind := .bind
  get_bind := .get_bind

theorem bindAll (frame : FrameId) (value : Value) (names : List String) :
    Total (bindAll frame value names) :=
  closed.forM names fun _ _ => .changing _

theorem assignVariable (frame : FrameId) (op : AssignOp) (name : String)
    (value : Value) : Total (assignVariable frame op name value) :=
  closed.assignVariable (fun _ => .changing _) op value

theorem invokeUndefined (settings : Settings) (name : String)
    (arguments : List Value) (span : Span) :
    Total (invokeUndefined settings name arguments span) :=
  closed.invokeUndefined (.changing _) (.changing _) (fun _ => .changing _) name

end Total

-- =============================================== failing while reading

/-- The action does nothing but warn, if it fails. -/
def FailsReading (x : Eval α) : Prop :=
  ∀ world halt after, x.runIn world = (.error halt, after) →
    world.OnlyWarned after

namespace FailsReading

theorem of_total {x : Eval α} (h : Total x) : FailsReading x := by
  intro world halt after hrun
  obtain ⟨a, ha⟩ := h world
  rw [hrun] at ha
  cases ha

/-- What reads first, and then fails at most while it goes on reading. -/
theorem read_bind {frame : FrameId} {reading : Environment → Reading α}
    {f : α → Eval β} (hf : ∀ a, FailsReading (f a)) :
    FailsReading (read settings frame reading >>= f) := by
  intro world halt after hrun
  have hread := read_onlyWarned settings frame reading world
  rw [runIn_bind] at hrun
  split at hrun
  · next a middle hm =>
    rw [hm] at hread
    exact hread.trans (hf a middle halt after hrun)
  · next halt' middle hm =>
    rw [hm] at hread
    cases hrun
    exact hread

end FailsReading

end Eval

-- ========================================================== statements

open Eval (Total FailsReading)

/-- A statement without statements in it reads its words before it does
anything. -/
theorem Statement.exec_failsReading {invoke : Invoke} {frame : FrameId}
    {s : Statement} (hs : s.isCompound = false) :
    FailsReading (s.exec settings invoke frame) := by
  cases s with
  | assignment i op value span =>
    rw [Statement.exec]
    refine .read_bind fun name => .read_bind fun value => ?_
    exact .of_total (.assignVariable frame op name value)
  | localBinding names value span =>
    rw [Statement.exec]
    refine .read_bind fun names => ?_
    have binds (value : Value) :
        Total (do bindAll frame value names; return value) :=
      .bind (.bindAll frame value names) fun _ => .pure value
    cases value with
    | none => exact .of_total (.bind (.pure []) binds)
    | some value => exact .read_bind fun value => .of_total (binds value)
  | returnWith value span =>
    rw [Statement.exec]
    exact .read_bind fun value =>
      .of_total (.bind (.changing _) fun _ => .pure value)
  | breakLoop span | continueLoop span =>
    rw [Statement.exec]
    exact .of_total (.bind (.changing _) fun _ => .pure [])
  | definition rule =>
    rw [Statement.exec]
    exact .read_bind fun name =>
      .of_total (.bind (.changing _) fun _ => .pure [])
  | _ => cases hs

/-- So does an invocation, unless a rule of its name is defined. -/
theorem Stage.onlyWarned_of_invocation {i : Identifier} {lists : List WordList}
    {span : Span}
    (hn : ∀ name arguments read,
      Invokes settings ⟨.statement (.invocation i lists span), site, world⟩
        name arguments read → read.rules.find? name = none) {halt : Halt}
    (h : Stage.run settings
      ⟨.statement (.invocation i lists span), site, world⟩ =
        (.error halt, after)) : world.OnlyWarned after := by
  rw [Stage.run_statement, Statement.exec, Eval.runIn_bind] at h
  have hname := Eval.read_onlyWarned settings site.frame i.resolve world
  split at h
  · next name middle hi =>
    rw [hi] at hname
    rw [Eval.runIn_bind] at h
    have harguments :=
      Eval.read_onlyWarned settings site.frame (listValues · lists) middle
    split at h
    · next arguments read hv =>
      rw [Eval.runIn_get_bind, hn name arguments read (.intro hi hv)] at h
      rw [hv] at harguments
      have hrest :=
        FailsReading.of_total (.invokeUndefined settings name arguments span)
      exact (hname.trans harguments).trans (hrest read halt after h)
    · next hv =>
      rw [hv] at harguments
      cases h
      exact hname.trans harguments
  · next hi =>
    rw [hi] at hname
    cases h
    exact hname

-- ============================================================= phrases

/-- A phrase that is no statement is read. -/
theorem Phrase.eval_onlyWarned {p : Phrase} (hp : ∀ s, p ≠ .statement s) :
    world.OnlyWarned ((p.eval settings site).runIn world).2 := by
  cases p with
  | literal l => exact .refl world
  | identifier i =>
    have hi := Eval.read_onlyWarned settings site.frame i.resolve world
    rw [Phrase.eval, Eval.runIn_bind]
    split
    · next hrun =>
      rw [hrun] at hi
      exact hi
    · next hrun =>
      rw [hrun] at hi
      exact hi
  | «variable» v => exact Eval.read_onlyWarned settings site.frame v.value world
  | list l => exact Eval.read_onlyWarned settings site.frame l.value world
  | statement s => exact absurd rfl (hp s)

-- ============================================================ failures

/-- Failing is atomic. Words, lists and conditions change nothing but the record
of warnings, whether or not they have a value; so does a statement that fails,
if it is a simple one or an invocation that enters no rule; and a text that does
not parse leaves the whole session as it was. -/
theorem failures_change_nothing (settings : Settings) :
    (∀ (site : Site) (world : World),
      (∀ p : Phrase, (∀ s, p ≠ .statement s) →
        world.OnlyWarned ((p.eval settings site).runIn world).2) ∧
      (∀ c : Condition,
        world.OnlyWarned
          ((Eval.read settings site.frame c.holds).runIn world).2) ∧
      (∀ (s : Statement) (halt : Halt) (after : World), s.isCompound = false →
        ((Phrase.statement s).eval settings site).runIn world =
          (.error halt, after) →
        world.OnlyWarned after) ∧
      ∀ (i : Identifier) (lists : List WordList) (span : Span) (halt : Halt)
          (after : World),
        (∀ name arguments read,
          Invokes settings ⟨.statement (.invocation i lists span), site, world⟩
            name arguments read → read.rules.find? name = none) →
        ((Phrase.statement (.invocation i lists span)).eval settings
          site).runIn world = (.error halt, after) →
        world.OnlyWarned after) ∧
    ∀ {ρ : Type} [Reporter ρ] (s : Session ρ) (source : SourceText) (e : Error),
      Program.parse source.name source.text = .error e →
      s.run source = (.error (.error e), s) := by
  refine ⟨fun site world => ⟨fun p hp => p.eval_onlyWarned hp, fun c => ?_,
    fun s halt after hs h => ?_, fun i lists span halt after hn h => ?_⟩,
    fun s source e he => ?_⟩
  · exact Eval.read_onlyWarned settings site.frame c.holds world
  · exact Statement.exec_failsReading hs world halt after h
  · exact Stage.onlyWarned_of_invocation hn h
  · unfold Session.run runText
    rw [he]
    rfl

/-- A text that assigns to a name made with a variable that has no value. -/
def namelessText : String := "a$(x) = b ;"

/-- The assignment fails with a warning and nothing else, and without its end
the text is refused. -/
theorem namelessText_changes_nothing :
    (∃ p s halt after,
      Program.parse "t" namelessText = .ok p ∧ p.statements = [s] ∧
      s.isCompound = false ∧
      ((Phrase.statement s).eval {} .top).runIn {} = (.error halt, after) ∧
      after.events.size = 1 ∧ World.OnlyWarned {} after) ∧
    ∃ e, Program.parse "t" "a$(x) =" = .error e ∧
      Session.run (⟨{}, .initial, .empty, {}⟩ : Session Collector)
        ⟨"t", "a$(x) ="⟩ = (.error (.error e), ⟨{}, .initial, .empty, {}⟩) := by
  have hfails : ((Program.parse "t" namelessText).toOption.elim false fun p =>
      decide (p.statements.length = 1) && p.statements.all fun s =>
        let outcome := ((Phrase.statement s).eval {} .top).runIn {}
        !s.isCompound && !outcome.1.toBool &&
          decide (outcome.2.events.size = 1)) = true := by
    decide +kernel
  have hrefused : (Program.parse "t" "a$(x) =").toBool = false := by
    decide +kernel
  obtain ⟨hstatements, hsessions⟩ := failures_change_nothing {}
  refine ⟨?_, ?_⟩
  · obtain ⟨p, hp, hp'⟩ := Except.exists_ok_of_elim hfails
    obtain ⟨hone, hall⟩ := Bool.and_eq_true_iff.mp hp'
    obtain ⟨s, hs⟩ := List.length_eq_one_iff.mp (of_decide_eq_true hone)
    rw [hs, List.all_cons, List.all_nil, Bool.and_true] at hall
    cases hrun : ((Phrase.statement s).eval {} .top).runIn {} with
    | mk result after =>
      rw [hrun] at hall
      obtain ⟨hfailed, hsize⟩ := Bool.and_eq_true_iff.mp hall
      obtain ⟨hsimple, herror⟩ := Bool.and_eq_true_iff.mp hfailed
      have hcompound : s.isCompound = false := by simpa using hsimple
      cases result with
      | ok value => cases herror
      | error halt =>
        obtain ⟨-, -, hsimples, -⟩ := hstatements .top {}
        exact ⟨p, s, halt, after, hp, hs, hcompound, hrun,
          of_decide_eq_true hsize, hsimples s halt after hcompound hrun⟩
  · cases hp : Program.parse "t" "a$(x) =" with
    | ok p =>
      rw [hp] at hrefused
      cases hrefused
    | error e => exact ⟨e, rfl, hsessions _ _ e hp⟩

end Jam
