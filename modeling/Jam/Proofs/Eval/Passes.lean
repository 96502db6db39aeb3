/-
The limit on the passes of while loops, and evaluation without them.

Evaluation is a function, so in place of a while loop that goes on forever
it has one that stops after some number of passes: `Settings.maxPasses`,
and the breakdown `Halt.outOfPasses`. The language knows no such limit.
What a program does is what it does under every limit that is large
enough.

# What is proved

- Under a larger limit a run does the same, or the smaller limit was
  reached (`Eval.CutShort`, `execAll_cutShort`). So if a run ends under
  one limit with a value or an error of the program, it ends so under all
  larger ones: that is how the program ends.
- A program without while loops, in a world whose rules have none, ends so
  under every limit, with one and the same value or error and in the same
  world (`ends_without_while`). Rules may be recursive, be defined while
  others run, and be named by variables.

# Why recursion ends

`invokeWithin` takes the number of invocations left, and each invocation
leaves one less to those inside it (`Site.invoke_eq`). Between two
invocations statements are run that are parts of the one that was run
before. The order that goes down is thus lexicographic, in the number of
invocations left and in the statement, and Lean accepts evaluation
because of it. What is left to show is that no while loop is ever
entered, and this depends on the world: rules are taken from there, and
those defined on the way come from the program.
-/
import Jam.Proofs.Eval.Steps

namespace Jam

variable {α β : Type}

-- ============================================================== limits

/-- The same settings with another limit on passes. -/
def Settings.withPasses (settings : Settings) (passes : Nat) : Settings :=
  { settings with maxPasses := passes }

namespace Eval

/-- The first action does what the second does, or runs out of passes. -/
def CutShort (x y : Eval α) : Prop :=
  ∀ world, (x.runIn world).1 = .error .outOfPasses ∨
    x.runIn world = y.runIn world

namespace CutShort

theorem refl (x : Eval α) : CutShort x x := fun _ => .inr rfl

theorem outOfPasses (y : Eval α) : CutShort (throw .outOfPasses) y :=
  fun _ => .inl rfl

theorem bind {x y : Eval α} {f g : α → Eval β} (hx : CutShort x y)
    (hf : ∀ a, CutShort (f a) (g a)) : CutShort (x >>= f) (y >>= g) := by
  intro world
  rw [runIn_bind, runIn_bind]
  rcases hx world with h | h
  · left
    split
    · next hrun =>
      rw [hrun] at h
      cases h
    · next hrun =>
      rw [hrun] at h
      cases h
      rfl
  · rw [h]
    split
    · next a middle _ => exact hf a middle
    · exact .inr rfl

/-- The frame is closed in its turn, so that running out of passes inside is
running out of passes. -/
theorem inSubscope {frame : FrameId} {body body' : FrameId → Eval α}
    (hs : ∀ inner, Steps (fun _ => True) true inner (body inner))
    (h : ∀ inner, CutShort (body inner) (body' inner)) :
    CutShort (inSubscope frame body) (inSubscope frame body') := by
  intro world
  have hl := (hs (world.enter frame).1).leads (world.enter frame).2
    fun _ _ _ _ _ => trivial
  have hd := hl.depth.trans (Leads.depth_enter world frame)
  rw [runIn_inSubscope, runIn_inSubscope]
  dsimp only
  rcases h (world.enter frame).1 (world.enter frame).2 with hi | hi
  · left
    rw [if_pos hd]
    exact hi
  · rw [hi]
    exact .inr rfl

theorem inside {x y : Eval α} (span : Span) (h : CutShort x y) :
    CutShort (inside span x) (inside span y) := by
  intro world
  rw [runIn_inside, runIn_inside]
  rcases h world with h | h
  · left
    split
    · next hrun =>
      rw [hrun] at h
      cases h
    · exact h
  · rw [h]
    exact .inr rfl

theorem congruent : Congruent fun (_ _ : Unit) _ x y => CutShort x y where
  pure _ _ a := .refl (Pure.pure a)
  bind := .bind

theorem forEach {body body' : String → Eval Value}
    (h : ∀ x, CutShort (body x) (body' x)) (values : List String)
    (last : Value) :
    CutShort (forEach body values last) (forEach body' values last) :=
  congruent.forEach (i := ()) (j := ()) (.refl loopEnds) h values last

theorem repeatWhile {test : Eval Bool} {body body' : Eval Value}
    (h : CutShort body body') {passes passes' : Nat} (hle : passes ≤ passes')
    (last : Value) :
    CutShort (repeatWhile test body passes last)
      (repeatWhile test body' passes' last) :=
  congruent.repeatWhile (i := ()) (j := ()) (.refl loopEnds) (.refl test) h hle
    (fun y _ => .outOfPasses y) last

end CutShort

end Eval

-- ========================================= evaluation under two limits

section Evaluation

open Eval (CutShort Steps)

variable {settings : Settings} {passes passes' : Nat}

/-- Reading does not look at the limit. -/
theorem read_cutShort (frame : FrameId) (reading : Environment → Reading α) :
    CutShort (Eval.read (settings.withPasses passes) frame reading)
      (Eval.read (settings.withPasses passes') frame reading) :=
  .refl (Eval.read settings frame reading)

/-- Two ways to invoke rules, the first under a limit not above that of the
second. -/
def Invoke.CutShort (invoke invoke' : Invoke) : Prop :=
  ∀ frame name rule arguments span,
    Eval.CutShort (invoke frame name rule arguments span)
      (invoke' frame name rule arguments span)

variable {invoke invoke' : Invoke}

mutual

theorem Statement.exec_cutShort (hle : passes ≤ passes')
    (hs : invoke.Steps fun _ => True) (hi : invoke.CutShort invoke')
    {frame : FrameId} :
    ∀ s : Statement, CutShort (s.exec (settings.withPasses passes) invoke frame)
      (s.exec (settings.withPasses passes') invoke' frame)
  | .invocation name arguments span => by
    rw [Statement.exec, Statement.exec]
    refine .bind (read_cutShort _ _) fun name =>
      .bind (read_cutShort _ _) fun arguments => ?_
    refine .bind (.refl get) fun world => ?_
    split
    · exact hi frame name _ arguments span
    · exact .refl (invokeUndefined settings name arguments span)
  | .assignment name op value _ => by
    rw [Statement.exec, Statement.exec]
    exact .bind (read_cutShort _ _) fun name =>
      .bind (read_cutShort _ _) fun value => .refl _
  | .localBinding names none _ => by
    rw [Statement.exec, Statement.exec]
    exact .bind (read_cutShort _ _) fun names => .refl _
  | .localBinding names (some value) _ => by
    rw [Statement.exec, Statement.exec]
    exact .bind (read_cutShort _ _) fun names =>
      .bind (read_cutShort _ _) fun value => .refl _
  | .returnWith value _ => by
    rw [Statement.exec, Statement.exec]
    exact .bind (read_cutShort _ _) fun value => .refl _
  | .breakLoop _ => .refl _
  | .continueLoop _ => .refl _
  | .block b => by
    rw [Statement.exec, Statement.exec]
    exact .inSubscope (fun _ => execBlock_steps hs b fun _ _ => trivial)
      fun _ => execBlock_cutShort hle hs hi b
  | .choice condition yes none _ => by
    rw [Statement.exec, Statement.exec]
    refine .bind (read_cutShort _ _) fun holds => ?_
    split
    · exact .inSubscope (fun _ => execBlock_steps hs yes fun _ _ => trivial)
        fun _ => execBlock_cutShort hle hs hi yes
    · exact .refl _
  | .choice condition yes (some no) _ => by
    rw [Statement.exec, Statement.exec]
    refine .bind (read_cutShort _ _) fun holds => ?_
    split
    · exact .inSubscope (fun _ => execBlock_steps hs yes fun _ _ => trivial)
        fun _ => execBlock_cutShort hle hs hi yes
    · exact Statement.exec_cutShort hle hs hi no
  | .forLoop name values body _ => by
    rw [Statement.exec, Statement.exec]
    refine .bind (read_cutShort _ _) fun name =>
      .bind (read_cutShort _ _) fun values => ?_
    refine .forEach (fun x => .inSubscope (fun inner => ?_) fun inner => ?_)
      values []
    · refine .bind (.changing fun _ => .bind name [x]) fun _ => ?_
      exact execBlock_steps hs body fun _ _ => trivial
    · exact .bind (.refl _) fun _ => execBlock_cutShort hle hs hi body
  | .whileLoop condition body _ => by
    rw [Statement.exec, Statement.exec]
    refine .repeatWhile ?_ hle []
    exact .inSubscope (fun _ => execBlock_steps hs body fun _ _ => trivial)
      fun _ => execBlock_cutShort hle hs hi body
  | .definition rule => by
    rw [Statement.exec, Statement.exec]
    exact .bind (read_cutShort _ _) fun name => .refl _

theorem execBlock_cutShort (hle : passes ≤ passes')
    (hs : invoke.Steps fun _ => True) (hi : invoke.CutShort invoke')
    {frame : FrameId} :
    ∀ b : Block,
      CutShort (execBlock (settings.withPasses passes) invoke frame b)
        (execBlock (settings.withPasses passes') invoke' frame b)
  | ⟨statements, _⟩ => execAll_cutShort hle hs hi statements []

theorem execAll_cutShort (hle : passes ≤ passes')
    (hs : invoke.Steps fun _ => True) (hi : invoke.CutShort invoke')
    {frame : FrameId} :
    ∀ (ss : List Statement) (last : Value),
      CutShort (execAll (settings.withPasses passes) invoke frame ss last)
        (execAll (settings.withPasses passes') invoke' frame ss last)
  | [], last => .refl _
  | s :: ss, _ => by
    rw [execAll, execAll]
    refine .bind (Statement.exec_cutShort hle hs hi s) fun value => ?_
    refine .bind (.refl get) fun world => ?_
    split
    · exact execAll_cutShort hle hs hi ss value
    · exact .refl _

end

theorem invokeWithin_cutShort (hle : passes ≤ passes') (further : Nat) :
    (invokeWithin (settings.withPasses passes) further).CutShort
      (invokeWithin (settings.withPasses passes') further) := by
  induction further with
  | zero => exact fun _ _ _ _ _ => .refl _
  | succ further ih =>
    intro frame name rule arguments span
    have hs : (invokeWithin (settings.withPasses passes) further).Steps
        fun _ => True :=
      invokeWithin_steps _ further
    refine .inside span (.inSubscope (fun inner => ?_) fun inner => ?_)
    · refine .bind (.bindArguments _ rule.parameters arguments) fun _ => ?_
      refine .bind (execBlock_steps hs rule.body fun _ _ => trivial)
        fun value => ?_
      exact .bind (.settle _ _ rule.body.span) fun _ => .pure value
    · refine .bind
        (.refl (bindArguments settings inner rule.parameters arguments))
        fun _ => ?_
      refine .bind (execBlock_cutShort hle hs ih rule.body) fun value => ?_
      exact .bind (.refl (settle settings _ rule.body.span)) fun _ => .refl _

variable (settings) (site : Site)

theorem Phrase.eval_cutShort (hle : passes ≤ passes') (p : Phrase) :
    CutShort (p.eval (settings.withPasses passes) site)
      (p.eval (settings.withPasses passes') site) :=
  match p with
  | .literal _ => .refl _
  | .identifier _ => .bind (read_cutShort _ _) fun _ => .refl _
  | .variable _ => read_cutShort _ _
  | .list _ => read_cutShort _ _
  | .statement s =>
    s.exec_cutShort hle (invokeWithin_steps _ _) (invokeWithin_cutShort hle _)

theorem Program.eval_cutShort (hle : passes ≤ passes') (p : Program) :
    CutShort (p.eval (settings.withPasses passes) site)
      (p.eval (settings.withPasses passes') site) := by
  have hs : (site.invoke (settings.withPasses passes)).Steps fun _ => True :=
    invokeWithin_steps _ _
  have hi : (site.invoke (settings.withPasses passes)).CutShort
      (site.invoke (settings.withPasses passes')) := invokeWithin_cutShort hle _
  refine .bind (execAll_cutShort hle hs hi p.statements []) fun value => ?_
  exact .bind (.refl (settle settings _ p.span)) fun _ => .refl _

end Evaluation

-- ================================================================ ends

section Ends

variable {settings : Settings} {site : Site} {world : World}

/-- The action, a function of the limit on passes, ends in this world: under
every limit with one value or error of the program, in one world. -/
def Ends (run : Nat → Eval α) (world : World) : Prop :=
  ∃ (result : Except Error α) (after : World),
    ∀ passes, (run passes).runIn world = (result.mapError Halt.error, after)

/-- No while loop is allowed. -/
def WithoutWhile (s : Statement) : Prop := s.isWhile = false

/-- Where no while loop is allowed, only the program can be at fault. -/
theorem Halt.Possible.eq_error {halt : Halt} (h : halt.Possible WithoutWhile) :
    ∃ e, halt = .error e := by
  cases halt with
  | error e => exact ⟨e, rfl⟩
  | outOfPasses =>
    obtain ⟨s, hs, hw⟩ := h
    rw [hs] at hw
    cases hw
  | unbalanced => exact h.elim

/-- A run without while loops cannot reach its limit, so the least limit
already shows how it ends. -/
theorem Ends.of_steps {run : Nat → Eval α} {own : Bool} {frame : FrameId}
    (hw : world.RulesObey WithoutWhile)
    (hs : (run 0).Steps WithoutWhile own frame)
    (hc : ∀ passes, (run 0).CutShort (run passes)) : Ends run world := by
  have same : ∀ passes, (run 0).runIn world = (run passes).runIn world := by
    intro passes
    rcases hc passes world with h | h
    · -- To run out of passes takes a while loop.
      obtain ⟨e, he⟩ := (hs.halts world hw .outOfPasses h).eq_error
      cases he
    · exact h
  cases hrun : (run 0).runIn world with
  | mk outcome after =>
    cases outcome with
    | ok a => exact ⟨.ok a, after, fun passes => (same passes).symm.trans hrun⟩
    | error halt =>
      obtain ⟨e, rfl⟩ := (hs.halts world hw halt (by rw [hrun])).eq_error
      exact ⟨.error e, after, fun passes => (same passes).symm.trans hrun⟩

/-- Without while loops evaluation ends: in a world none of whose rules has
one, every program and every phrase without one ends, at every site. -/
theorem ends_without_while (settings : Settings) (site : Site) (world : World)
    (hw : world.RulesObey WithoutWhile) :
    (∀ p : Program, (∀ s ∈ p.nodes, WithoutWhile s) →
      Ends (fun passes => p.eval (settings.withPasses passes) site) world) ∧
    ∀ p : Phrase, (∀ s ∈ p.nodes, WithoutWhile s) →
      Ends (fun passes => p.eval (settings.withPasses passes) site) world := by
  refine ⟨fun p hp => ?_, fun p hp => ?_⟩
  · exact .of_steps hw (.program _ site p hp) fun passes =>
      p.eval_cutShort settings site passes.zero_le
  · exact .of_steps hw (.phrase _ site p hp fun _ _ _ => rfl) fun passes =>
      p.eval_cutShort settings site passes.zero_le

/-- A rule `r` with the body `{ r ; }`. -/
def endlessRule : RuleDefinition :=
  let place := Span.ofPoint "rules" .origin
  let name : Identifier := ⟨[.text "r"], place⟩
  ⟨name, [], ⟨[.invocation name [] place], place⟩, place⟩

/-- Invoking a rule that invokes itself over and over ends. -/
theorem endlessRule_ends :
    (({} : World).define "r" endlessRule).RulesObey WithoutWhile ∧
    (∀ s ∈ (⟨endlessRule.body.statements, endlessRule.span⟩ : Program).nodes,
      WithoutWhile s) ∧
    Ends (fun passes =>
        (⟨endlessRule.body.statements, endlessRule.span⟩ : Program).eval
          (Settings.withPasses {} passes) .top)
      (({} : World).define "r" endlessRule) := by
  have hbody : ∀ s ∈ endlessRule.body.nodes, WithoutWhile s := by
    intro s hs
    obtain rfl := List.mem_singleton.mp hs
    rfl
  have hw : (({} : World).define "r" endlessRule).RulesObey WithoutWhile := by
    intro name rule hf
    simp only [World.define, Table.find?_insert] at hf
    split at hf
    · cases hf
      exact hbody
    · cases hf
  exact ⟨hw, hbody, (ends_without_while {} .top _ hw).1 _ hbody⟩

end Ends

end Jam
