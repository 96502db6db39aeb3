/-
Frames around a run: how many there are, and what they bind.

Two statements about variables, for everything that can be run and in
every world.

# Frames are balanced

Whatever is run, and however it ends, the same frames are open afterwards
as before, each with the parent it had (`frames_kept`). Frames are numbered
in the order in which they are opened, so a frame closed out of turn would
take others with it, and its number would come to stand for a frame that
somebody else opens. `Eval.inSubscope`, which alone closes frames, looks
whether the frame is the one opened last and breaks down as `unbalanced`
if not. That no run ends so means that no frame was ever closed out of
turn, on any path.

# Names stay apart

A block, a choice, a loop or an invocation gives new names to no frame that
was open before, except to the root (`names_kept`). What is declared inside
goes to frames of its own, and an assignment goes to a frame that has the
variable, or to the root. No frame ever loses a name.
-/
import Jam.Proofs.Eval.Steps
import Jam.Proofs.Syntax.Branches

namespace Jam

-- ============================================================= balance

/-- The run from `before` to this outcome left the open frames as they were
and closed the ones it opened in their turn. -/
structure FramesKept {α : Type} (before : World)
    (outcome : Except Halt α × World) : Prop where
  depth : outcome.2.scopes.depth = before.scopes.depth
  parent : ∀ id, outcome.2.scopes.parent? id = before.scopes.parent? id
  in_turn : outcome.1 ≠ .error .unbalanced

/-- Where every statement is allowed, the rules of every world obey. -/
theorem World.rulesObey_of_all {allowed : Statement → Prop} (h : ∀ s, allowed s)
    (world : World) : world.RulesObey allowed :=
  fun _ _ _ s _ => h s

/-- An action that goes by steps keeps the frames of every world. -/
theorem Eval.Steps.framesKept {α : Type} {own : Bool} {frame : FrameId}
    {x : Eval α} (h : Steps (fun _ => True) own frame x) (world : World) :
    FramesKept world (x.runIn world) := by
  have hr : world.RulesObey fun _ => True :=
    world.rulesObey_of_all fun _ => trivial
  have hl := h.leads world hr
  exact ⟨hl.depth, hl.parent?, fun hu => h.halts world hr .unbalanced hu⟩

/-- Frames are balanced: evaluating any phrase or program anywhere, or
running any text, keeps the frames of the world. -/
theorem frames_kept (settings : Settings) (world : World) :
    (∀ (site : Site) (p : Phrase),
      FramesKept world ((p.eval settings site).runIn world)) ∧
    (∀ (site : Site) (p : Program),
      FramesKept world ((p.eval settings site).runIn world)) ∧
    ∀ source text,
      FramesKept world ((runText settings source text).runIn world) := by
  refine ⟨fun site p => ?_, fun site p => ?_, fun source text => ?_⟩
  · have hs :
        Eval.Steps (fun _ => True) true site.frame (p.eval settings site) :=
      .phrase settings site p (fun _ _ => trivial) fun _ _ _ => rfl
    exact hs.framesKept world
  · exact (Eval.Steps.program settings site p fun _ _ => trivial).framesKept
      world
  · exact (Eval.Steps.text settings source text fun _ _ _ _ =>
      trivial).framesKept world

-- =============================================================== names

/-- Names stay apart: of the frames that were open before a statement with
statements inside was run, none loses a name, and only the root gets any. -/
theorem names_kept {source text : String} {p : Program}
    (hp : Program.parse source text = .ok p) {s : Statement} (hs : s ∈ p.nodes)
    (hc : s.isCompound = true) (settings : Settings) (site : Site)
    (world : World) :
    ∀ id < world.scopes.depth,
      (∀ name, world.scopes.Binds id name →
        (((Phrase.statement s).eval settings site).runIn world).2.scopes.Binds
          id name) ∧
      (id ≠ Scopes.root → ∀ name,
        (((Phrase.statement s).eval settings site).runIn world).2.scopes.Binds
          id name ↔ world.scopes.Binds id name) := by
  have hb : ∀ x ∈ s.nodes, x.branches = true :=
    fun x hx =>
      parse_branches source text p hp x (Program.mem_nodes_of_mem hs hx)
  have hd : s.declares = false := declares_of_isCompound s hb hc
  have hsteps : Eval.Steps (fun _ => True) false site.frame
      ((Phrase.statement s).eval settings site) :=
    .phrase settings site _ (fun _ _ => trivial) fun _ h hdecl => by
      cases h
      rw [hd] at hdecl
      cases hdecl
  have hl := hsteps.leads world (world.rulesObey_of_all fun _ => trivial)
  intro id hid
  refine ⟨fun name h => hl.binds_mono h,
    fun hroot name => ⟨?_, fun h => hl.binds_mono h⟩⟩
  exact hl.binds_only hid hroot (fun h => nomatch h)

/-- In a frame below the root, a choice of a program that declares a local
variable in one branch and assigns a variable in the other. -/
theorem names_kept_choice :
    ∃ p s, Program.parse "t" "if a { local x = 1 ; } else { y = 2 ; }" = .ok p ∧
      s ∈ p.nodes ∧ s.isCompound = true ∧
      ∀ id < (({} : World).enter Scopes.root).2.scopes.depth,
        id ≠ Scopes.root → ∀ name,
          (((Phrase.statement s).eval {} ⟨1, 0⟩).runIn
            (({} : World).enter Scopes.root).2).2.scopes.Binds id name ↔
          (({} : World).enter Scopes.root).2.scopes.Binds id name := by
  have hparse : ((Program.parse "t"
      "if a { local x = 1 ; } else { y = 2 ; }").toOption.elim
      false fun p => p.nodes.any Statement.isCompound) = true := by
    decide +kernel
  cases hp : Program.parse "t" "if a { local x = 1 ; } else { y = 2 ; }" with
  | error e =>
    rw [hp] at hparse
    cases hparse
  | ok p =>
    rw [hp] at hparse
    obtain ⟨s, hs, hc⟩ := List.any_eq_true.mp hparse
    exact ⟨p, s, rfl, hs, hc, fun id hid =>
      (names_kept hp hs hc {} ⟨1, 0⟩ _ id hid).2⟩

end Jam
