/-
What a host hears of a session.

A reporter takes what it is told and answers nothing. It is told what the
settings let through, in the order in which it came. A `Journal` is told
everything and keeps it as it is. Any other reporter, under any settings,
is where it would be if the journal were read to it, without the events
that are kept back (`Session.retold`); and the session around it is the
same (`Session.runAll_retold`).

# What is proved

Two sessions that differ in the warnings they keep back, and in who is
told, run all texts with the same results, and leave the same variables
and rules after each of them. What a `Collector` and a `StreamReporter`
have after each text is told from the warnings and echoes that there are
when nothing is kept back (`diagnostics_carry_no_control_flow`).
-/
import Jam.Eval.Session
import Jam.Proofs.Eval.Muting

namespace Jam

variable {ρ ρ' : Type}

-- ============================================================= records

/-- Whether a warning is told under settings. -/
def Settings.tells (settings : Settings) (w : Warning) : Bool :=
  !settings.silences w.kind

/-- Of the warnings those are left that are told. -/
theorem warningsOf_filter (settings : Settings) (events : List Event) :
    warningsOf (events.filter settings.records) =
      (warningsOf events).filter settings.tells := by
  unfold warningsOf
  rw [List.filterMap_filter, List.filter_filterMap]
  congr
  funext event
  cases event with
  | warned w => rfl
  | echoed text => rfl

/-- Echoed text is never kept back. -/
theorem echoesOf_filter (settings : Settings) (events : List Event) :
    echoesOf (events.filter settings.records) = echoesOf events := by
  unfold echoesOf
  rw [List.filterMap_filter]
  congr
  funext event
  cases event with
  | warned w => exact ite_self none
  | echoed text => rfl

theorem linesOf_cons (text : String) (texts : List String) :
    linesOf (text :: texts) = text ++ "\n" ++ linesOf texts := by
  simp only [linesOf, List.map_cons, String.join_cons]

-- =========================================================== reporters

namespace Reporter

variable [Reporter ρ]

theorem receiveAll_append (reporter : ρ) (events more : List Event) :
    receiveAll reporter (events ++ more) =
      receiveAll (receiveAll reporter events) more :=
  List.foldl_append

theorem receiveAll_cons (reporter : ρ) (event : Event) (events : List Event) :
    receiveAll reporter (event :: events) =
      receiveAll (receive reporter event) events := rfl

/-- A collector has the warnings and the echoes of what it was told. -/
theorem receiveAll_collector (c : Collector) (events : List Event) :
    receiveAll c events =
      ⟨c.warnings ++ warningsOf events, c.echoed ++ echoesOf events⟩ := by
  induction events generalizing c with
  | nil => simp [receiveAll, warningsOf, echoesOf]
  | cons event events ih =>
    rw [receiveAll_cons, ih]
    cases event <;> simp [receive, warning, echo, warningsOf, echoesOf]

/-- The two streams have the lines of the echoes and those of the warnings. -/
theorem receiveAll_streams (s : StreamReporter) (events : List Event) :
    receiveAll s events =
      ⟨s.out ++ outputOf events, s.err ++ errorOutputOf events⟩ := by
  induction events generalizing s with
  | nil =>
    simp [receiveAll, outputOf, errorOutputOf, warningsOf, echoesOf, linesOf]
  | cons event events ih =>
    rw [receiveAll_cons, ih]
    cases event <;> simp [receive, warning, echo, outputOf, errorOutputOf,
      warningsOf, echoesOf, linesOf_cons, String.append_assoc]

end Reporter

/-- Keeps what it is told as it comes. -/
structure Journal where
  events : List Event := []

instance : Reporter Journal where
  warning j w := ⟨j.events ++ [.warned w]⟩
  echo j text := ⟨j.events ++ [.echoed text]⟩

theorem Reporter.receiveAll_journal (j : Journal) (events : List Event) :
    receiveAll j events = ⟨j.events ++ events⟩ := by
  induction events generalizing j with
  | nil => simp [receiveAll]
  | cons event events ih =>
    rw [receiveAll_cons, ih]
    cases event <;> simp [receive, warning, echo]

-- ============================================================ sessions

namespace Session

/-- The session in which these kinds of warnings are kept back, and no
others, and someone else is told. -/
def reporting (s : Session ρ) (unset undefinedRules : Bool) (reporter : ρ') :
    Session ρ' where
  settings := s.settings.silencing unset undefinedRules
  scopes := s.scopes
  rules := s.rules
  reporter

/-- The session with nothing kept back and everything written down. -/
def journaled (s : Session ρ) : Session Journal := s.reporting false false {}

/-- What a text does to those that come after it: how it ended, and the
variables and the rules there are then. -/
def effect : Except Halt Ending × Session ρ →
    Except Halt Ending × Scopes × Table RuleDefinition
  | (result, after) => (result, after.scopes, after.rules)

variable [Reporter ρ] (unset undefinedRules : Bool) (reporter : ρ)

/-- The session in which the journal is read to someone else, without the
warnings that are kept back. -/
def retold (s : Session Journal) : Session ρ :=
  s.reporting unset undefinedRules <| Reporter.receiveAll reporter <|
    s.reporter.events.filter (s.settings.silencing unset undefinedRules).records

variable {s : Session Journal}
  (hs : s.settings.silencing false false = s.settings)
include hs

/-- The journal is read out after a text as well as before it. -/
theorem run_retold (source : SourceText) :
    (s.retold unset undefinedRules reporter).run source = ((s.run source).1,
      (s.run source).2.retold unset undefinedRules reporter) := by
  let keep := (s.settings.silencing unset undefinedRules).records
  let start : World := { scopes := s.scopes, rules := s.rules }
  let after := ((runText s.settings source.name source.text).runIn start).2
  have hmutes :
      s.settings.Mutes (s.settings.silencing unset undefinedRules) := by
    have h := s.settings.silencing_mutes unset undefinedRules
    rwa [hs] at h
  have hrun := runText_muted hmutes source.name source.text start
  have hstart : start.keeping keep = start := rfl
  -- What is told of this text comes behind what was told before.
  have htold :
      Reporter.receiveAll (s.retold unset undefinedRules reporter).reporter
      (after.keeping keep).events.toList =
      Reporter.receiveAll reporter
      ((Reporter.receiveAll s.reporter after.events.toList).events.filter
        keep) := by
    rw [Reporter.receiveAll_journal, List.filter_append,
      Reporter.receiveAll_append]
    exact congrArg _ Array.toList_filter
  rw [hstart] at hrun
  unfold run
  dsimp only [retold, reporting] at hrun htold ⊢
  rw [hrun]
  dsimp only
  rw [htold]
  rfl

/-- So it is with one text after the other. -/
theorem runAll_retold (sources : List SourceText) :
    (s.retold unset undefinedRules reporter).runAll sources =
      (s.runAll sources).map fun (result, after) =>
        (result, after.retold unset undefinedRules reporter) := by
  induction sources generalizing s with
  | nil => rfl
  | cons source sources ih =>
    have hafter : (s.run source).2.settings = s.settings := rfl
    simp only [runAll]
    rw [run_retold unset undefinedRules reporter hs source, List.map_cons]
    exact congrArg (_ :: ·) (ih (by rw [hafter, hs]))

end Session

-- ======================================================= what is heard

namespace Session

variable [Reporter ρ'] (s : Session ρ) (sources : List SourceText)
  (unset undefinedRules : Bool) (reporter : ρ')

/-- A session is what its journal makes of it, whatever is kept back and
whoever is told. -/
theorem runAll_reporting :
    (s.reporting unset undefinedRules reporter).runAll sources =
      (s.journaled.runAll sources).map fun (result, after) =>
        (result, after.retold unset undefinedRules reporter) := by
  have hs : s.journaled.settings.silencing false false = s.journaled.settings :=
    rfl
  exact runAll_retold unset undefinedRules reporter hs sources

theorem effects_reporting :
    ((s.reporting unset undefinedRules reporter).runAll sources).map effect =
      (s.journaled.runAll sources).map effect := by
  rw [runAll_reporting, List.map_map]
  rfl

theorem reporters_reporting :
    ((s.reporting unset undefinedRules reporter).runAll sources).map
      (·.2.reporter) =
      (s.journaled.runAll sources).map fun o => Reporter.receiveAll reporter <|
      o.2.reporter.events.filter
      (s.settings.silencing unset undefinedRules).records := by
  rw [runAll_reporting, List.map_map]
  rfl

end Session

/-- Diagnostics carry no control flow. Keep other kinds of warnings back in
a session and tell someone else: every text has the same effect. And there
are lists of the warnings and the echoes so far, such that after each text

- a collector has got these warnings and echoes if nothing is kept back;
- it has got those of the warnings that are told, in the same order, and
  the same echoes, if something is kept back;
- and two streams have got these same echoes and warnings, as lines. -/
theorem diagnostics_carry_no_control_flow [Reporter ρ] (s : Session ρ)
    (sources : List SourceText) :
    (∀ (ρ' : Type) [Reporter ρ'] (unset undefinedRules : Bool) (reporter : ρ'),
      ((s.reporting unset undefinedRules reporter).runAll sources).map
          Session.effect =
        (s.runAll sources).map Session.effect) ∧
    ∃ reports : List (List Warning × List String),
      (∀ c : Collector,
        ((s.reporting false false c).runAll sources).map (·.2.reporter) =
        reports.map fun (warnings, echoes) =>
          ⟨c.warnings ++ warnings, c.echoed ++ echoes⟩) ∧
      ∀ unset undefinedRules : Bool,
        (∀ c : Collector,
          ((s.reporting unset undefinedRules c).runAll sources).map
            (·.2.reporter) =
          reports.map fun (warnings, echoes) =>
            ⟨c.warnings ++
              warnings.filter (s.settings.silencing unset undefinedRules).tells,
              c.echoed ++ echoes⟩) ∧
        ∀ streams : StreamReporter,
          ((s.reporting unset undefinedRules streams).runAll sources).map
            (·.2.reporter) =
          reports.map fun (warnings, echoes) =>
            ⟨streams.out ++ linesOf echoes,
              streams.err ++ linesOf ((warnings.filter
                (s.settings.silencing unset undefinedRules).tells).map
                Warning.display)⟩ := by
  refine ⟨fun ρ' _ unset undefinedRules reporter => ?_,
    (s.journaled.runAll sources).map fun o =>
      (warningsOf o.2.reporter.events, echoesOf o.2.reporter.events),
    fun c => ?_, fun unset undefinedRules => ⟨fun c => ?_, fun streams => ?_⟩⟩
  · -- The reporter of the session is one of those that could be told.
    have hown : s.runAll sources = (s.reporting s.settings.silentUnset
      s.settings.silentUndefinedRules s.reporter).runAll sources := rfl
    rw [hown, Session.effects_reporting, Session.effects_reporting]
  · rw [Session.reporters_reporting, List.map_map]
    refine List.map_congr_left fun o _ => ?_
    have hall := (s.settings.silencing_mutes false false).records
    rw [List.filter_eq_self.mpr fun event _ => hall event,
      Reporter.receiveAll_collector]
    rfl
  · rw [Session.reporters_reporting, List.map_map]
    refine List.map_congr_left fun o _ => ?_
    rw [Reporter.receiveAll_collector, warningsOf_filter, echoesOf_filter]
    rfl
  · rw [Session.reporters_reporting, List.map_map]
    refine List.map_congr_left fun o _ => ?_
    rw [Reporter.receiveAll_streams, outputOf, errorOutputOf, warningsOf_filter,
      echoesOf_filter]
    rfl

end Jam
