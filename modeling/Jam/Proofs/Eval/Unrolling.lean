/-
A for loop is its unrolling.

Without loops, the passes over a list of values could be written out: for
each value there would be a block that declares the variable and goes on
with the statements of the body (`unrolledPass`). The blocks would be run
as statements are, up to the first that raises a signal, and not as passes
are. The two ways end differently only at a break or continue, so the body
must have none that the loop would take in (`Block.breaksOut`). Then a pass
leaves no signal, and both go on, or a return or an exit, and both end
there (`Signal.LeavesLoop`).

# What is proved

- `Statement.signal_of_breaksOut`: what nothing breaks out of leaves no break
  and no continue, whatever it invokes.
- `unrolled_loops_agree`: a loop with a literal variable does what its
  unrolling does, whatever the body does to the variable, to the frames and
  to the rules.
-/
import Jam.Proofs.Eval.Shadowing
import Jam.Proofs.Eval.Signals

namespace Jam

variable {settings : Settings} {site : Site} {world after : World}
  {value : Value}

-- ======================================================== breaking out

mutual

/-- Whether a statement has a break or continue that no loop inside of it takes
in. One in the definition of a rule belongs to the invocations of that rule. -/
def Statement.breaksOut : Statement → Bool
  | .breakLoop _ | .continueLoop _ => true
  | .block b => b.breaksOut
  | .choice _ yes none _ => yes.breaksOut
  | .choice _ yes (some no) _ => yes.breaksOut || no.breaksOut
  | .forLoop .. | .whileLoop .. | .definition _ => false
  | .invocation .. | .assignment .. | .localBinding .. | .returnWith .. => false
termination_by structural s => s

def Block.breaksOut : Block → Bool
  | ⟨statements, _⟩ => anyBreaksOut statements
termination_by structural b => b

def anyBreaksOut : List Statement → Bool
  | [] => false
  | s :: ss => s.breaksOut || anyBreaksOut ss
termination_by structural ss => ss

end

/-- What is run in a frame of its own leaves the signal that it has raised
there. -/
theorem Eval.runIn_inSubscope_ok {body : FrameId → Eval Value} {frame : FrameId}
    (h : (inSubscope frame body).runIn world = (.ok value, after)) :
    ∃ inner, (body (world.enter frame).1).runIn (world.enter frame).2 =
      (.ok value, inner) ∧ after.signal = inner.signal := by
  rw [runIn_inSubscope] at h
  cases hrun : (body (world.enter frame).1).runIn (world.enter frame).2 with
  | mk result inner =>
    rw [hrun] at h
    dsimp only at h
    split at h
    · cases h
      exact ⟨inner, rfl, rfl⟩
    · cases h

mutual

/-- A statement that nothing breaks out of leaves no break and no continue. -/
theorem Statement.signal_of_breaksOut :
    ∀ (s : Statement) (site : Site) {world after : World} {value : Value},
      s.breaksOut = false → world.signal = .none →
      (s.exec settings (site.invoke settings) site.frame).runIn world =
        (.ok value, after) →
      after.signal.LeavesLoop
  | .invocation i lists span, site, _, _, _, _, hq, h => by
    rcases Statement.signal_of_invocation hq h with hs | hs
    · exact .inl hs
    · exact .inr (.inr hs)
  | .assignment i op list span, _, _, _, _, _, hq, h =>
    .inl (((Eval.Plain.assignment i op list span).signal_of_run h).trans hq)
  | .localBinding names value span, _, _, _, _, _, hq, h =>
    .inl (((Eval.Plain.localBinding names value span).signal_of_run h).trans hq)
  | .definition rule, _, _, _, _, _, hq, h =>
    .inl (((Eval.Plain.definition rule).signal_of_run h).trans hq)
  | .returnWith list span, _, _, _, _, _, _, h => by
    rw [Statement.exec] at h
    obtain ⟨read, middle, -, h⟩ := Eval.runIn_bind_ok h
    cases h
    exact .inr (.inl rfl)
  | .breakLoop _, _, _, _, _, hb, _, _ => nomatch hb
  | .continueLoop _, _, _, _, _, hb, _, _ => nomatch hb
  | .block b, site, _, _, _, hb, _, h => by
    rw [Statement.exec] at h
    exact b.signal_of_breaksOut none site hb h
  | .choice condition yes none _, site, _, _, _, hb, hq, h => by
    rw [Statement.exec] at h
    have hc :=
      Eval.Plain.read settings site.frame fun env => condition.holds_sound env
    obtain ⟨holds, middle, hm, h⟩ := hc.runIn_bind_ok h
    cases holds with
    | true =>
      rw [if_pos rfl] at h
      exact yes.signal_of_breaksOut none site hb h
    | false =>
      cases h
      exact .inl (hm.trans hq)
  | .choice condition yes (some no) _, site, _, _, _, hb, hq, h => by
    obtain ⟨hyes, hno⟩ := Bool.or_eq_false_iff.mp hb
    rw [Statement.exec] at h
    have hc :=
      Eval.Plain.read settings site.frame fun env => condition.holds_sound env
    obtain ⟨holds, middle, hm, h⟩ := hc.runIn_bind_ok h
    cases holds with
    | true =>
      rw [if_pos rfl] at h
      exact yes.signal_of_breaksOut none site hyes h
    | false => exact no.signal_of_breaksOut site hno (hm.trans hq) h
  | .forLoop .., _, _, _, _, _, hq, h => Statement.signal_of_isLoop rfl hq h
  | .whileLoop .., _, _, _, _, _, hq, h => Statement.signal_of_isLoop rfl hq h

theorem Block.signal_of_breaksOut :
    ∀ (b : Block) (loopVariable : Option (String × String)) (site : Site)
        {world after : World} {value : Value}, b.breaksOut = false →
      (execFramed settings site loopVariable b).runIn world =
        (.ok value, after) →
      after.signal.LeavesLoop
  | ⟨statements, _⟩, loopVariable, site, world, _, _, hb, h => by
    obtain ⟨inner, h, hs⟩ := Eval.runIn_inSubscope_ok h
    rw [hs]
    cases loopVariable with
    | none =>
      exact signal_of_anyBreaksOut statements []
        ⟨(world.enter site.frame).1, site.depth⟩ hb rfl h
    | some entry =>
      obtain ⟨_, _, hbound, h⟩ := Eval.runIn_bind_ok h
      cases hbound
      exact signal_of_anyBreaksOut statements []
        ⟨(world.enter site.frame).1, site.depth⟩ hb rfl h

theorem signal_of_anyBreaksOut :
    ∀ (ss : List Statement) (last : Value) (site : Site)
        {world after : World} {value : Value},
      anyBreaksOut ss = false → world.signal = .none →
      (execAll settings (site.invoke settings) site.frame ss last).runIn world =
        (.ok value, after) → after.signal.LeavesLoop
  | [], _, _, _, _, _, _, hq, h => by
    cases h
    exact .inl hq
  | s :: ss, _, site, _, _, _, hb, hq, h => by
    obtain ⟨hs, hss⟩ := Bool.or_eq_false_iff.mp hb
    rw [execAll] at h
    obtain ⟨first, middle, hrun, h⟩ := Eval.runIn_bind_ok h
    have hfirst := s.signal_of_breaksOut site hs hq hrun
    rw [Eval.runIn_get_bind] at h
    split at h
    · next hn => exact signal_of_anyBreaksOut ss first site hss hn h
    · cases h
      exact hfirst

end

-- ================================================== passes written out

/-- A pass as a block: a variable is declared with a value, and the statements
of the body follow. -/
def unrolledPass (place : Span) (i : Identifier) (body : Block) (x : String) :
    Statement :=
  .block ⟨.localBinding ⟨[.identifier i], place⟩
    (some ⟨[.literal ⟨x, place⟩], place⟩) place :: body.statements, place⟩

/-- The value so far counts only if nothing is left to run. -/
theorem execAll_of_ne_nil {invoke : Invoke} {frame : FrameId}
    {ss : List Statement} (h : ss ≠ []) (last last' : Value) :
    execAll settings invoke frame ss last =
      execAll settings invoke frame ss last' := by
  cases ss with
  | nil => exact absurd rfl h
  | cons s ss => rfl

variable {i : Identifier} {name : String} {body : Block}

/-- The declaration of a literal variable with a literal value binds that
name. -/
theorem runIn_localBinding {invoke : Invoke} {frame : FrameId}
    (hi : i.literal? = some name) (x : String) (place : Span) (world : World) :
    ((Statement.localBinding ⟨[.identifier i], place⟩ (some
      ⟨[.literal ⟨x, place⟩], place⟩) place).exec settings invoke frame).runIn
      world = (.ok [x], world.bind frame name [x]) := by
  have hnames (env : Environment) :
      WordList.value env ⟨[.identifier i], place⟩ = pure [name] := by
    show (do return (← Word.value env (.identifier i)) ++ [] :
      Reading Value) = _
    rw [Word.value, i.resolve_of_literal env hi]
    rfl
  rw [Statement.exec, read_of_pure settings frame hnames]
  rfl

/-- A pass and its block do the same. -/
theorem runIn_unrolledPass (hi : i.literal? = some name)
    (hb : body.statements ≠ []) (place : Span) (x : String) (world : World) :
    ((unrolledPass place i body x).exec settings
      (site.invoke settings) site.frame).runIn world =
      (execFramed settings site (some (name, x)) body).runIn world := by
  have hinner (frame : FrameId) (inner : World) (hq : inner.signal = .none) :
      (execBlock settings (site.invoke settings) frame ⟨.localBinding
        ⟨[.identifier i], place⟩ (some ⟨[.literal ⟨x, place⟩], place⟩) place ::
        body.statements, place⟩).runIn inner =
      (do modify (·.bind frame name [x])
          execBlock settings (site.invoke settings) frame body :
            Eval Value).runIn inner := by
    obtain ⟨statements, span⟩ := body
    rw [execBlock, execAll, Eval.runIn_bind_of_ok
      (runIn_localBinding hi x place inner), Eval.runIn_get_bind]
    have hbound : (inner.bind frame name [x]).signal = .none := hq
    rw [if_pos hbound, execAll_of_ne_nil hb [x] []]
    rfl
  unfold unrolledPass execFramed
  rw [Statement.exec, Eval.runIn_inSubscope, Eval.runIn_inSubscope,
    hinner _ _ rfl]

/-- Passes end as their blocks end, and leave the same. -/
theorem runIn_unrolledPasses (hi : i.literal? = some name)
    (hb : body.statements ≠ []) (hout : body.breaksOut = false) (place : Span)
    (values : List String) (last : Value) (world : World) :
    (forEach (fun x => execFramed settings site (some (name, x)) body) values
      last).runIn world =
    (execAll settings (site.invoke settings) site.frame
      (values.map (unrolledPass place i body)) last).runIn world := by
  induction values generalizing last world with
  | nil => rfl
  | cons x xs ih =>
    rw [List.map_cons, forEach, execAll, Eval.runIn_bind, Eval.runIn_bind,
      runIn_unrolledPass hi hb place x world]
    cases hrun :
      (execFramed settings site (some (name, x)) body).runIn world with
    | mk result after =>
      cases result with
      | error halt => rfl
      | ok value =>
        dsimp only
        rw [Eval.runIn_get_bind, Eval.runIn_bind, Eval.runIn_loopEnds]
        -- The pass leaves no break and no continue: here the two ways go on
        -- alike.
        rcases body.signal_of_breaksOut _ _ hout hrun with hs | hs | hs
        · rw [hs, if_pos rfl]
          exact ih value after
        · rw [hs]
          rfl
        · rw [hs]
          rfl

/-- A loop whose variable is literal, with a body that has statements and that
nothing breaks out of, has the outcome of its unrolling: the list is read once,
and for each value there is a block that declares the variable. -/
theorem unrolled_loops_agree (settings : Settings) (site : Site) (world : World)
    (i : Identifier) (values : WordList) (body : Block) (span place : Span)
    (hi : i.literal?.isSome = true) (hb : body.statements ≠ [])
    (hout : body.breaksOut = false) :
    ((Phrase.statement (.forLoop i values body span)).eval settings
        site).runIn world =
      (do let xs ← Eval.read settings site.frame values.value
          runStatements settings site (xs.map (unrolledPass place i body)) :
        Eval Value).runIn world := by
  obtain ⟨name, hname⟩ := Option.isSome_iff_exists.mp hi
  rw [Phrase.eval, Statement.exec, read_literal settings site.frame hname,
    pure_bind, Eval.runIn_bind, Eval.runIn_bind]
  split
  · next xs read _ => exact runIn_unrolledPasses hname hb hout place xs [] read
  · rfl

/-- Statements that append to the list a loop goes over, change its variable,
and return from the second pass. -/
def growingBody : Block :=
  let place := Span.ofPoint "t" .origin
  let name (text : String) : Identifier := ⟨[.text text], place⟩
  let value (text : String) : Word := .variable ⟨name text, none, place⟩
  let letter : WordList := ⟨[.literal ⟨"b", place⟩], place⟩
  ⟨[.assignment (name "L") .append ⟨[value "x"], place⟩ place,
    .choice (.member (value "x") letter)
      ⟨[.returnWith ⟨[value "L"], place⟩ place], place⟩ none place,
    .assignment (name "x") .set letter place], place⟩

/-- The loop and its unrolling go over the list as it was, and return in the
same pass. -/
theorem growingBody_unrolls :
    let place := Span.ofPoint "t" .origin
    let i : Identifier := ⟨[.text "x"], place⟩
    let list : WordList :=
      ⟨[.variable ⟨⟨[.text "L"], place⟩, none, place⟩], place⟩
    let world : World := ({} : World).bind Scopes.root "L" ["a", "b", "c"]
    let unrolled : Eval Value := do
      let xs ← Eval.read {} Site.top.frame list.value
      runStatements {} .top (xs.map (unrolledPass place i growingBody))
    i.literal?.isSome = true ∧ growingBody.statements ≠ [] ∧
      growingBody.breaksOut = false ∧
      (unrolled.runIn world).1.toOption = some ["a", "b", "c", "a", "b"] ∧
      (unrolled.runIn world).2.signal = .return := by
  intro place i list world unrolled
  have hb : growingBody.statements ≠ [] := List.cons_ne_nil _ _
  have hagree : _ = unrolled.runIn world :=
    unrolled_loops_agree {} .top world i list growingBody place place rfl hb rfl
  refine ⟨rfl, hb, rfl, ?_⟩
  rw [← hagree]
  decide +kernel

end Jam
