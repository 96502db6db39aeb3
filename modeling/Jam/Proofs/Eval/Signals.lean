/-
The discipline of signals.

A signal is how a statement breaks off what it stands in, and every kind of
thing it can stand in takes some signals in and lets the others pass: a loop
takes in break and continue, the body of a rule and a program take in all
but an exit. So what is left of a signal tells where it can have come from.

# What is proved

- `signal_discipline`, part one: begun without a signal, what breaks down
  leaves none, a loop with a value leaves no break or continue, and an
  invocation with a value leaves nothing or an exit.
- Part two: a text that ends leaves nothing or an exit, the latter exactly if
  the built-in rule that exits was invoked in the course of the run
  (`Program.Exits`).

The parts about loops and invocations are local: each of them looks at the
signal itself, after whatever ran inside. The part about breakdowns and that
about exits follow the outcome to the stage where it comes about, see
`Stage.exists_source` and `Reaches.stop`.
-/
import Jam.Proofs.Eval.Stopping

namespace Jam

variable {settings : Settings} {site : Site} {world after : World}

-- ========================================================== breakdowns

/-- What breaks down leaves no signal. -/
theorem Stage.signal_of_error (c : Stage) (hq : c.world.signal = .none)
    {halt : Halt} (h : (c.run settings).1 = .error halt) :
    (c.run settings).2.signal = .none := by
  obtain ⟨places, c', hr, hself, hs, -⟩ :=
    c.exists_source settings hq (.inl ⟨halt, h⟩)
  have hun := hr.stop hs
  have hsignal : (c.run settings).2.signal = (c'.run settings).2.signal :=
    hun.world.signal
  cases hself with
  | fault _ hn _ => exact hsignal.trans hn
  | exit he =>
    -- an exit has a value, and keeps it on the way out
    have hresult := hun.result
    rw [he.run.1, h] at hresult
    cases hresult

/-- So does a phrase: words and lists do not touch the signal at all. -/
theorem Phrase.signal_of_error (settings : Settings) (site : Site) (p : Phrase)
    (hq : world.signal = .none) {halt : Halt}
    (h : ((p.eval settings site).runIn world).1 = .error halt) :
    ((p.eval settings site).runIn world).2.signal = .none := by
  have plain {x : Eval Value} (hx : x.Plain) : (x.runIn world).2.signal =
      .none :=
    (hx.signal world).trans hq
  cases p with
  | literal l => exact plain (.pure _)
  | identifier i =>
    exact plain (.bind (.read settings _ i.resolve_sound) fun _ => .pure _)
  | «variable» v => exact plain (.read settings _ v.value_sound)
  | list l => exact plain (.read settings _ l.value_sound)
  | statement s => exact Stage.signal_of_error ⟨.statement s, site, world⟩ hq h

-- =============================================================== loops

/-- The signals that a loop can leave. -/
def Signal.LeavesLoop (signal : Signal) : Prop :=
  signal = .none ∨ signal = .return ∨ signal = .exit

section Loops

variable {x : Eval Value} {rest : Value → Eval Value} {value : Value}

/-- A loop ends after a pass with a signal that loops can leave, or goes on
without a signal. -/
theorem runIn_pass_ok
    (h : (do let value ← x
             if ← loopEnds then return value else rest value :
      Eval Value).runIn world = (.ok value, after)) :
    after.signal.LeavesLoop ∨
    ∃ value' next, next.signal = .none ∧
      (rest value').runIn next = (.ok value, after) := by
  obtain ⟨value', middle, -, h⟩ := Eval.runIn_bind_ok h
  obtain ⟨ends, next, hl, h⟩ := Eval.runIn_bind_ok h
  rw [Eval.runIn_loopEnds] at hl
  cases hm : middle.signal <;> rw [hm] at hl <;> cases hl
  case none => exact .inr ⟨value', middle, hm, h⟩
  case «continue» => exact .inr ⟨value', middle.raise .none, rfl, h⟩
  case «break» =>
    cases h
    exact .inl (.inl rfl)
  case «return» =>
    cases h
    exact .inl (.inr (.inl hm))
  case exit =>
    cases h
    exact .inl (.inr (.inr hm))

theorem forEach_signal {body : String → Eval Value} {values : List String}
    {last : Value} (hq : world.signal = .none)
    (h : (forEach body values last).runIn world = (.ok value, after)) :
    after.signal.LeavesLoop := by
  induction values generalizing last world with
  | nil =>
    cases h
    exact .inl hq
  | cons x xs ih =>
    rw [forEach] at h
    rcases runIn_pass_ok h with hl | ⟨value', next, hn, h⟩
    · exact hl
    · exact ih hn h

theorem repeatWhile_signal {test : Eval Bool} {body : Eval Value}
    {further : Nat} {last : Value} (ht : test.Plain) (hq : world.signal = .none)
    (h : (repeatWhile test body further last).runIn world =
      (.ok value, after)) : after.signal.LeavesLoop := by
  induction further generalizing last world with
  | zero =>
    unfold repeatWhile at h
    obtain ⟨holds, middle, hm, h⟩ := ht.runIn_bind_ok h
    cases holds <;> cases h
    exact .inl (hm.trans hq)
  | succ further ih =>
    unfold repeatWhile at h
    obtain ⟨holds, middle, hm, h⟩ := ht.runIn_bind_ok h
    cases holds with
    | false =>
      cases h
      exact .inl (hm.trans hq)
    | true =>
      rcases runIn_pass_ok h with hl | ⟨value', next, hn, h⟩
      · exact hl
      · exact ih hn h

/-- A loop that ends leaves no break and no continue. -/
theorem Statement.signal_of_isLoop {s : Statement} (hs : s.isLoop = true)
    (hq : world.signal = .none)
    (h : (s.exec settings (site.invoke settings) site.frame).runIn world =
      (.ok value, after)) : after.signal.LeavesLoop := by
  cases s with
  | forLoop i values body span =>
    rw [Statement.exec] at h
    have hi := Eval.Plain.read settings site.frame i.resolve_sound
    have hv := Eval.Plain.read settings site.frame values.value_sound
    obtain ⟨name, named, hnamed, h⟩ := hi.runIn_bind_ok h
    obtain ⟨vs, read, hread, h⟩ := hv.runIn_bind_ok h
    exact forEach_signal (hread.trans (hnamed.trans hq)) h
  | whileLoop condition body span =>
    rw [Statement.exec] at h
    exact repeatWhile_signal
      (.read settings _ fun env => condition.holds_sound env) hq h
  | _ => cases hs

end Loops

-- ========================================================= invocations

section Invocations

variable {value : Value}

/-- The end of a rule leaves nothing or an exit. -/
theorem runIn_settle_signal (settings : Settings) (place : String) (span : Span)
    (world : World) :
    ((settle settings place span).runIn world).2.signal = .none ∨
      ((settle settings place span).runIn world).2.signal = .exit := by
  have hs := (Eval.runIn_settle settings place span world).2
  by_cases he : world.signal = .exit
  · rw [if_pos he] at hs
    exact .inr hs
  · rw [if_neg he] at hs
    exact .inl hs

/-- So does the invocation of a rule. -/
theorem invoke_signal {name : String} {rule : RuleDefinition}
    {arguments : List Value} {span : Span}
    (h : (site.invoke settings site.frame name rule arguments span).runIn
      world = (.ok value, after)) :
    after.signal = .none ∨ after.signal = .exit := by
  by_cases hd : settings.maxDepth ≤ site.depth
  · rw [Site.invoke_eq, if_pos hd] at h
    cases h
  · have hun := unwound_invoke name rule arguments span world (Nat.not_le.mp hd)
    rw [h] at hun
    have hsignal := hun.world.signal
    cases hrun : Stage.run settings
        ⟨.invoked name rule arguments,
          ⟨(world.enter site.frame).1, site.depth + 1⟩,
          (world.enter site.frame).2⟩ with
    | mk result inner =>
      rw [hrun] at hun hsignal
      cases result with
      | error halt => exact nomatch hun.result
      | ok value' =>
        rw [Stage.run_invoked] at hrun
        obtain ⟨_, bound, _, hrun⟩ := Eval.runIn_bind_ok hrun
        obtain ⟨_, done, _, hrun⟩ := Eval.runIn_bind_ok hrun
        have hsettle :=
          runIn_settle_signal settings s!"rule '{name}'" rule.body.span done
        rw [Eval.runIn_bind, (Eval.runIn_settle ..).1] at hrun
        cases hrun
        rw [hsignal]
        exact hsettle

/-- And so does every invocation that ends. -/
theorem Statement.signal_of_invocation {i : Identifier} {lists : List WordList}
    {span : Span} (hq : world.signal = .none)
    (h : (Statement.exec settings (site.invoke settings) site.frame
      (.invocation i lists span)).runIn world = (.ok value, after)) :
    after.signal = .none ∨ after.signal = .exit := by
  rw [Statement.exec] at h
  have hi := Eval.Plain.read settings site.frame i.resolve_sound
  have hv :=
    Eval.Plain.read settings site.frame fun env => listValues_sound env lists
  obtain ⟨name, named, hnamed, h⟩ := hi.runIn_bind_ok h
  obtain ⟨arguments, read, hread, h⟩ := hv.runIn_bind_ok h
  have hq' : read.signal = .none := hread.trans (hnamed.trans hq)
  rw [Eval.runIn_get_bind] at h
  split at h
  · exact invoke_signal h
  · by_cases hb : BuiltIn.ofName? name = some .exit
    · rw [Eval.runIn_invokeUndefined_exit settings arguments span hb] at h
      cases h
      exact .inr rfl
    · have hs :=
        (Eval.Plain.invokeUndefined settings arguments span hb).signal read
      rw [h] at hs
      exact .inl (hs.trans hq')

end Invocations

-- ============================================================ programs

/-- The built-in rule that exits is invoked in the course of a run. -/
def Program.Exits (settings : Settings) (p : Program) (world : World) : Prop :=
  ∃ places c, Reaches settings (p.start settings world) places c ∧
    ExitsAt settings c

/-- A program that ends leaves nothing, or an exit if it came to one. -/
theorem Program.signal_of_ending {p : Program} {ending : Ending}
    (h : (p.runIn settings).runIn world = (.ok ending, after)) :
    (ending.signal = .none ∨ ending.signal = .exit) ∧
      (ending.signal = .exit ↔ p.Exits settings world) := by
  have hq : (p.start settings world).world.signal = .none := rfl
  rw [Program.runIn_eq] at h
  cases hrun : (p.start settings world).run settings with
  | mk result done =>
    rw [hrun] at h
    cases result with
    | error halt => cases h
    | ok value =>
      have hleft := runIn_settle_signal settings "the program" p.span done
      have hiff := Eval.settle_exit_iff settings "the program" p.span done
      cases h
      refine ⟨hleft, fun he => ?_, fun ⟨places, c, hr, hexit⟩ => ?_⟩
      · -- the exit comes about at a stage that stops by itself
        have hd : done.signal = .exit := hiff.mp he
        obtain ⟨places, c, hr, hself, hs, -⟩ :=
          (p.start settings world).exists_source settings hq
            (.inr (by rw [hrun]; exact hd))
        cases hself with
        | exit hexit => exact ⟨places, c, hr, hexit⟩
        | fault hh hn _ =>
          have hsignal := (hr.stop hs).world.signal
          rw [hrun, hn] at hsignal
          exact absurd (hsignal.symm.trans hd) (by decide)
      · have hsignal := (hr.stop (.inr hexit.run.2)).world.signal
        rw [hrun, hexit.run.2] at hsignal
        exact hiff.mpr hsignal

/-- The discipline of signals. -/
theorem signal_discipline (settings : Settings) (site : Site) (world : World) :
    (world.signal = .none →
      (∀ (p : Phrase) (halt : Halt) (after : World),
        (p.eval settings site).runIn world = (.error halt, after) →
        after.signal = .none) ∧
      (∀ (s : Statement) (value : Value) (after : World), s.isLoop = true →
        ((Phrase.statement s).eval settings site).runIn world =
          (.ok value, after) →
        after.signal = .none ∨ after.signal = .return ∨ after.signal = .exit) ∧
      ∀ (i : Identifier) (arguments : List WordList) (span : Span)
          (value : Value) (after : World),
        ((Phrase.statement (.invocation i arguments span)).eval settings
          site).runIn world = (.ok value, after) →
        after.signal = .none ∨ after.signal = .exit) ∧
    ∀ (source text : String) (ending : Ending) (after : World),
      (runText settings source text).runIn world = (.ok ending, after) →
      (ending.signal = .none ∨ ending.signal = .exit) ∧
      (ending.signal = .exit ↔
        ∃ p, Program.parse source text = .ok p ∧ p.Exits settings world) := by
  refine ⟨fun hq => ⟨fun p halt after h => ?_, fun s value after hs h => ?_,
    fun i arguments span value after h => ?_⟩,
    fun source text ending after h => ?_⟩
  · have hn := p.signal_of_error settings site hq (by rw [h])
    rw [h] at hn
    exact hn
  · exact Statement.signal_of_isLoop hs hq h
  · exact Statement.signal_of_invocation hq h
  · unfold runText at h
    cases hp : Program.parse source text with
    | error e =>
      rw [hp] at h
      cases h
    | ok p =>
      rw [hp] at h
      obtain ⟨hleft, hexit⟩ := Program.signal_of_ending h
      refine ⟨hleft, hexit.trans ⟨fun he => ⟨p, rfl, he⟩, ?_⟩⟩
      rintro ⟨_, ⟨⟩, he⟩
      exact he

/-- A text that exits in a loop, in a rule. -/
def exitingText : String :=
  "rule r { for x in a b { Exit $(x) ; } } r ; Echo no ;"

/-- The discipline at work: a name that cannot be read, a loop that is broken
off, the invocation of a rule that does not exist, and the text that exits. -/
theorem exitingText_exits :
    let place := Span.ofPoint "t" .origin
    let name : Identifier :=
      ⟨[.variable ⟨⟨[.text "x"], place⟩, none, place⟩], place⟩
    let loop : Statement := .forLoop ⟨[.text "x"], place⟩
      ⟨[.literal ⟨"a", place⟩, .literal ⟨"b", place⟩], place⟩
      ⟨[.breakLoop place], place⟩ place
    let invocation : Statement := .invocation ⟨[.text "r"], place⟩ [] place
    (∃ halt after, ((Phrase.identifier name).eval {} .top).runIn {} =
      (.error halt, after) ∧ after.signal = .none) ∧
    (loop.isLoop = true ∧ ∃ value after,
      ((Phrase.statement loop).eval {} .top).runIn {} = (.ok value, after) ∧
      (after.signal = .none ∨ after.signal = .return ∨
        after.signal = .exit)) ∧
    (∃ value after, ((Phrase.statement invocation).eval {} .top).runIn {} =
      (.ok value, after) ∧ (after.signal = .none ∨ after.signal = .exit)) ∧
    ∃ ending after,
      (runText {} "t" exitingText).runIn {} = (.ok ending, after) ∧
      ending.signal = .exit ∧
      ∃ p, Program.parse "t" exitingText = .ok p ∧ p.Exits {} {} := by
  intro place name loop invocation
  obtain ⟨hinside, hwhole⟩ := signal_discipline {} .top {}
  obtain ⟨herror, hloop, hinvocation⟩ := hinside rfl
  refine ⟨⟨_, _, rfl, herror (.identifier name) _ _ rfl⟩,
    ⟨rfl, _, _, rfl, hloop loop _ _ rfl rfl⟩,
    ⟨_, _, rfl, hinvocation ⟨[.text "r"], place⟩ [] place [] _ rfl⟩, ?_⟩
  have hexit : (((runText {} "t" exitingText).runIn {}).1.toOption.elim false
      fun ending => decide (ending.signal = .exit)) = true := by decide +kernel
  cases hrun : (runText {} "t" exitingText).runIn {} with
  | mk result after =>
    rw [hrun] at hexit
    cases result with
    | error halt => cases hexit
    | ok ending =>
      have he : ending.signal = .exit := of_decide_eq_true hexit
      exact ⟨ending, after, rfl, he,
        (hwhole "t" exitingText ending after hrun).2.mp he⟩

end Jam
