/-
The places an error names.

An error begins with one place, and each invocation that it leaves adds its
own. What makes the list a trace is that nothing else adds to it, and that
nothing is left without adding: blocks, loops, conditions and arguments are
no invocations, and the parameters of a rule are resolved inside its
invocation already.

The stage at which an error is raised is the one where it comes about: the
stage breaks down, while no stage that it calls does (`Stage.Raises`). How
that stage was reached tells which invocations were active there
(`Reaches`).

# What is proved

- `error_trace`: an error that a run ends with names first the place it
  was raised for, and then the places of the invocations that were active
  there, innermost first. There are never more of them than the limit
  allows, and exactly as many if the error is that the limit was reached;
  its first place is then that of the invocation that was refused.
- The stage is found by `Stage.exists_source`. That the places are those of
  every stage that raises the error is the outward direction,
  `Reaches.stop`.
-/
import Mathlib.Control.Monad.Basic
import Jam.Proofs.Eval.Stopping

namespace Jam

variable {settings : Settings} {world after : World} {c : Stage}
  {places : List Span} {e : Error}

/-- The error is raised at the stage: it comes about there, and at no stage that
is called. -/
structure Stage.Raises (settings : Settings) (c : Stage) (e : Error) :
    Prop where
  fails : (c.run settings).1 = .error (.error e)
  itself : ∀ places c', Calls settings c places c' → ∀ halt,
    (c'.run settings).1 ≠ .error halt

-- ============================================= where errors are raised

/-- What breaks down by itself names one place. -/
theorem FaultAt.found (h : FaultAt settings c (.error e)) :
    ∃ primary, e = .found e.cause primary := by
  cases h with
  | reading he =>
    obtain ⟨cause, span, rfl, -⟩ := he
    exact ⟨span, rfl⟩
  | @refused _ _ span => exact ⟨span, rfl⟩

/-- An error that comes out of a stage was raised at one that is reached from
it, and learned the places of the invocations on the way. -/
theorem Stage.exists_raises (c : Stage) (hq : c.world.signal = .none)
    (h : (c.run settings).1 = .error (.error e)) :
    ∃ places c' primary, Reaches settings c places c' ∧
      c'.Raises settings (.found e.cause primary) ∧
      FaultAt settings c' (.error (.found e.cause primary)) ∧
      e.spans = primary :: places := by
  obtain ⟨places, c', hr, hself, hs, hcalled⟩ :=
    c.exists_source settings hq (.inl ⟨_, h⟩)
  have hresult := (hr.stop hs).result
  rw [h] at hresult
  cases hself with
  | exit he =>
    rw [he.run.1] at hresult
    cases hresult
  | @fault halt hh _ hfault =>
    rw [hh] at hresult
    cases halt with
    | outOfPasses => cases hresult
    | unbalanced => cases hresult
    | error inner =>
      have he : e = inner.enclosed places := by
        cases hresult
        rfl
      obtain ⟨primary, hinner⟩ := hfault.found
      have hcause : e.cause = inner.cause := by rw [he]; rfl
      have hspans : e.spans = primary :: places := by rw [he, hinner]; rfl
      rw [← hcause] at hinner
      refine ⟨places, c', primary, hr, ⟨?_, fun places' c'' hc halt hc' => ?_⟩,
        ?_, hspans⟩
      · rw [hh, hinner]
      · exact hcalled places' c'' hc (.inl ⟨halt, hc'⟩)
      · rw [← hinner]
        exact hfault

/-- Conversely, an error that is raised comes out with the places of the
invocations on the way. -/
theorem Reaches.raises {c' : Stage} (hr : Reaches settings c places c')
    (h : c'.Raises settings e) :
    (c.run settings).1 = .error (.error (e.enclosed places)) := by
  have hresult := (hr.stop (.inl ⟨_, h.fails⟩)).result
  rw [h.fails] at hresult
  exact hresult

-- ============================================================== traces

/-- The depth of a stage is the number of invocations that are active there, and
the limit is kept. -/
theorem Program.depth_of_reaches {p : Program}
    (hr : Reaches settings (p.start settings world) places c) :
    c.site.depth = places.length ∧ c.site.depth ≤ settings.maxDepth := by
  have hd := hr.depth
  have hle := hr.depth_le (Nat.zero_le settings.maxDepth)
  exact ⟨by rw [hd]; exact Nat.zero_add _, hle⟩

/-- Only an invocation is refused, when as many are active as may be. -/
theorem FaultAt.refused_inv {name : String} {limit : Nat} {primary : Span}
    (h : FaultAt settings c
      (.error (.found (.recursionLimit name limit) primary))) :
    (∃ i lists, c.task = .statement (.invocation i lists primary)) ∧
      settings.maxDepth ≤ c.site.depth := by
  cases h with
  | reading he =>
    obtain ⟨cause, span, heq, hc⟩ := he
    cases heq
    exact hc.elim
  | refused _ _ _ hd => exact ⟨⟨_, _, rfl⟩, hd⟩

/-- The trace of an error. -/
theorem error_trace {settings : Settings} {source text : String} {p : Program}
    (hp : Program.parse source text = .ok p) (world : World) :
    (∀ places c, Reaches settings (p.start settings world) places c →
      c.site.depth = places.length ∧ c.site.depth ≤ settings.maxDepth) ∧
    ∀ e after,
      (runText settings source text).runIn world = (.error (.error e), after) →
      (∃ places c primary, Reaches settings (p.start settings world) places c ∧
        c.Raises settings (.found e.cause primary) ∧
        e.spans = primary :: places ∧ e.spans.length = 1 + c.site.depth) ∧
      (∀ places c e', Reaches settings (p.start settings world) places c →
        c.Raises settings e' → e.spans = e'.spans ++ places) ∧
      e.spans.length ≤ 1 + settings.maxDepth ∧
      ∀ name limit, e.cause = .recursionLimit name limit →
        e.spans.length = settings.maxDepth + 1 ∧
        ∃ places c i lists span,
          Reaches settings (p.start settings world) places c ∧
          c.Raises settings (.found e.cause span) ∧
          c.task = .statement (.invocation i lists span) ∧
          e.spans.head? = some span := by
  have hq : (p.start settings world).world.signal = .none := rfl
  refine ⟨fun places c hr => Program.depth_of_reaches hr, fun e after h => ?_⟩
  -- the error is that of the statements of the program
  have hstart : ((p.start settings world).run settings).1 =
      .error (.error e) := by
    have hrun : (p.runIn settings).runIn world =
        (.error (.error e), after) := by
      unfold runText at h
      rw [hp] at h
      exact h
    rw [Program.runIn_eq] at hrun
    split at hrun
    · cases hrun
    · next halt last hbody =>
      cases hrun
      rw [hbody]
  obtain ⟨places, c, primary, hr, hraises, hfault, hspans⟩ :=
    Stage.exists_raises _ hq hstart
  obtain ⟨hdepth, hle⟩ := Program.depth_of_reaches hr
  have hlength : e.spans.length = 1 + c.site.depth := by
    rw [hspans, List.length_cons, hdepth, Nat.add_comm]
  have hbound : e.spans.length ≤ 1 + settings.maxDepth := by
    rw [hlength]
    exact Nat.add_le_add_left hle 1
  refine ⟨⟨places, c, primary, hr, hraises, hspans, hlength⟩,
    fun places' c' e' hr' hraises' => ?_, hbound, fun name limit hcause => ?_⟩
  · have hsame := hr'.raises hraises'
    rw [hstart] at hsame
    cases hsame
    rfl
  · rw [hcause] at hfault
    obtain ⟨⟨i, lists, htask⟩, hmax⟩ := hfault.refused_inv
    have hfull : c.site.depth = settings.maxDepth := Nat.le_antisymm hle hmax
    refine ⟨by rw [hlength, hfull, Nat.add_comm],
      places, c, i, lists, primary, hr, hraises, htask, ?_⟩
    rw [hspans]
    rfl

/-- A text with a rule that invokes itself from a block in a choice. -/
def recursiveText : String := "rule r { if a { { r ; } } } r ;"

/-- The invocation in the rule is refused, and lies within the one below. -/
def recursiveTextError : Error :=
  ⟨.recursionLimit "r" 1,
    [⟨"t", ⟨18, 1, 19⟩, ⟨19, 1, 20⟩⟩, ⟨"t", ⟨28, 1, 29⟩, ⟨29, 1, 30⟩⟩]⟩

/-- With one invocation allowed, the second one is refused, inside the first. -/
theorem recursiveText_refused :
    ∃ p after, Program.parse "t" recursiveText = .ok p ∧
      (runText { maxDepth := 1 } "t" recursiveText).runIn {} =
        (.error (.error recursiveTextError), after) ∧
      recursiveTextError.spans.length = 2 ∧
      ∃ places c i lists span,
        Reaches { maxDepth := 1 } (p.start { maxDepth := 1 } {}) places c ∧
        c.Raises { maxDepth := 1 } (.found recursiveTextError.cause span) ∧
        c.task = .statement (.invocation i lists span) ∧
        recursiveTextError.spans.head? = some span := by
  have hrefused : ((runText { maxDepth := 1 } "t" recursiveText).runIn {}).1 =
      .error (.error recursiveTextError) := by decide +kernel
  have hparse : (Program.parse "t" recursiveText).toOption.isSome = true := by
    decide +kernel
  cases hp : Program.parse "t" recursiveText with
  | error e =>
    rw [hp] at hparse
    cases hparse
  | ok p =>
    cases hrun : (runText { maxDepth := 1 } "t" recursiveText).runIn {} with
    | mk result after =>
      rw [hrun] at hrefused
      cases hrefused
      have htrace := (error_trace hp {}).2 recursiveTextError after hrun
      exact ⟨p, after, rfl, rfl, htrace.2.2.2 "r" 1 rfl⟩

end Jam
