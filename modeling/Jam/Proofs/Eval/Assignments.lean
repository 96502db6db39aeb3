/-
What is assigned is read.

An assignment looks for its variable along the chain of frames and gives it
a value along that chain again. The two ways end at the same frame as long
as the frame of the assignment is open and every open frame leads to the
root (`Site.Grounded`). Programs cannot get out of this: a run begins at the
root, the frames that it opens are opened below open ones, and it closes
them in the opposite order. So every stage of every run is grounded.

The name and the value of an assignment are read first. This changes no
variable, and warns of what it finds unset. The assignment itself does not
warn, although two of its operators look at the old value
(`AssignOp.result`).

# What is proved

- `Reaches.grounded`, `runText_rooted`: what is grounded stays so, in the
  course of a run and from one text to the next.
- `assigned_values_are_read`: wherever an assignment with a value stands in
  a run, this is the value that its variable is found to have afterwards. It
  was given in the first frame of the chain that had the variable, or else
  in the root, and nothing else was changed.
-/
import Jam.Proofs.Eval.Atomicity
import Jam.Proofs.Scopes.Arena

namespace Jam

variable {settings : Settings} {site : Site} {world before after : World}
  {own : Bool} {frame : FrameId} {scopes : Scopes} {allowed : Statement → Prop}
  {α : Type}

-- ====================================================== grounded sites

/-- The frame of a site is open, and all open frames lead to the root. -/
structure Site.Grounded (site : Site) (scopes : Scopes) : Prop where
  rooted : scopes.Rooted
  opened : site.frame < scopes.depth

theorem Leads.rooted (h : Leads allowed own frame before after)
    (hr : before.scopes.Rooted) : after.scopes.Rooted :=
  hr.congr h.depth h.parent?

theorem Leads.grounded (h : Leads allowed own frame before after)
    (hg : site.Grounded before.scopes) : site.Grounded after.scopes :=
  ⟨h.rooted hg.rooted, h.depth ▸ hg.opened⟩

/-- The root is always open. -/
theorem Site.grounded_top (h : scopes.Rooted) : Site.top.Grounded scopes :=
  ⟨h, scopes.depth_pos⟩

/-- A frame that is opened below an open one is grounded. -/
theorem Site.Grounded.enter (h : site.Grounded world.scopes) (depth : Nat) :
    Site.Grounded ⟨(world.enter site.frame).1, depth⟩
      (world.enter site.frame).2.scopes where
  rooted := h.rooted.createSubscope h.opened
  opened := by
    rw [Leads.depth_enter]
    exact Nat.lt_succ_self _

-- ================================================= stages are grounded

/-- Actions that go by steps keep sites grounded. -/
theorem Eval.Steps.grounded {x : Eval α}
    (hx : x.Steps (fun _ => True) own frame) {result : Except Halt α}
    (h : x.runIn world = (result, after)) (hg : site.Grounded world.scopes) :
    site.Grounded after.scopes := by
  have hl := hx.leads world fun _ _ _ _ _ => trivial
  rw [h] at hl
  exact hl.grounded hg

theorem Eval.read_grounded {reading : Environment → Reading α}
    {result : Except Halt α}
    (h : (read settings frame reading).runIn world = (result, after))
    (hg : site.Grounded world.scopes) : site.Grounded after.scopes :=
  (Steps.read settings frame reading : Steps _ false frame _).grounded h hg

theorem loopEnds_grounded {result : Except Halt Bool}
    (h : loopEnds.runIn world = (result, after))
    (hg : site.Grounded world.scopes) : site.Grounded after.scopes :=
  (Eval.Steps.loopEnds : Eval.Steps _ false Scopes.root _).grounded h hg

/-- The frame of a block is grounded, with or without a loop variable. -/
theorem Site.Grounded.openFor (h : site.Grounded world.scopes)
    (loopVariable : Option (String × String)) (depth : Nat) :
    Site.Grounded ⟨(world.enter site.frame).1, depth⟩
      (world.openFor site.frame loopVariable).scopes := by
  unfold World.openFor
  split
  · exact h.enter depth
  · have hopen := h.enter depth
    refine ⟨hopen.rooted.set .., ?_⟩
    show _ < (Scopes.set ..).depth
    rw [Scopes.depth_set]
    exact hopen.opened

/-- What a grounded stage calls is grounded. -/
theorem Calls.grounded {c c' : Stage} {places : List Span}
    (h : Calls settings c places c') (hg : c.site.Grounded c.world.scopes) :
    c'.site.Grounded c'.world.scopes := by
  cases h with
  | block | whileLoop | head | pass => exact hg
  | yes hr | no hr | passWhile hr => exact Eval.read_grounded hr hg
  | forLoop hr hr' => exact Eval.read_grounded hr' (Eval.read_grounded hr hg)
  | invocation hr hr' =>
    exact (Eval.read_grounded hr' (Eval.read_grounded hr hg)).enter _
  | tail hrun => exact (Task.exec_steps ..).grounded hrun hg
  | framed => exact hg.openFor _ _
  | nextPass hrun hl =>
    exact loopEnds_grounded hl ((Task.exec_steps ..).grounded hrun hg)
  | nextPassWhile hr hrun hl =>
    have hread := Eval.read_grounded hr hg
    exact loopEnds_grounded hl ((Task.exec_steps ..).grounded hrun hread)
  | body hb => exact (Eval.Steps.bindArguments ..).grounded hb hg

/-- So is all that is reached from it. -/
theorem Reaches.grounded {c c' : Stage} {places : List Span}
    (h : Reaches settings c places c') (hg : c.site.Grounded c.world.scopes) :
    c'.site.Grounded c'.world.scopes := by
  induction h with
  | here => exact hg
  | call h _ ih => exact ih (h.grounded hg)

theorem Program.start_grounded (p : Program) (h : world.scopes.Rooted) :
    (p.start settings world).site.Grounded
      (p.start settings world).world.scopes :=
  Site.grounded_top (h.set ..)

/-- A text that is run leaves frames that lead to the root. -/
theorem runText_rooted (settings : Settings) (source text : String)
    (h : world.scopes.Rooted) :
    ((runText settings source text).runIn world).2.scopes.Rooted :=
  ((Eval.Steps.text settings source text fun _ _ _ _ => trivial).leads world
    fun _ _ _ _ _ => trivial).rooted h

-- =========================================================== assigning

/-- The value of an assignment, from the one its variable has and the one on its
right side. -/
def AssignOp.result : AssignOp → Option Value → Value → Value
  | .set, _, value => value
  | .append, current, value => current.getD [] ++ value
  | .keep, current, value => current.getD value

namespace Scopes

/-- Between these scopes nothing was done but to assign to a variable, seen from
a frame. -/
structure Assigned (s : Scopes) (frame : FrameId) (op : AssignOp)
    (name : String) (value r : Value) (s' : Scopes) : Prop where
  result : r = op.result (s.find? frame name) value
  /-- The variable has the value of the assignment. -/
  read : s'.find? frame name = some r
  /-- It has it in the first frame that had the variable, or in the root. -/
  changed : ∃ path,
    s.Path frame path ∧ s.ChangesOnly s' (s.ownerOn path name) name r
  kept : op = .keep → (s.find? frame name).isSome = true → s' = s

variable {s : Scopes} (op : AssignOp) (name : String) (value : Value)

theorem Assigned.of_assign (h : site.Grounded s) {r : Value}
    (hr : r = op.result (s.find? site.frame name) value)
    (hk : op = .keep → s.find? site.frame name = none) :
    s.Assigned site.frame op name value r (s.assign site.frame name r) := by
  obtain ⟨path, hpath⟩ := h.rooted.exists_path h.opened
  refine ⟨hr, hpath.find?_assign h.rooted h.opened name r, ⟨path, hpath, ?_⟩,
    fun hop hsome => ?_⟩
  · rw [hpath.assign_eq h.rooted h.opened]
    exact changesOnly_set (hpath.ownerOn_lt h.rooted h.opened name) name r
  · rw [hk hop] at hsome
    cases hsome

theorem Assigned.of_kept (h : site.Grounded s) {r : Value}
    (hr : s.find? site.frame name = some r) :
    s.Assigned site.frame .keep name value r s := by
  obtain ⟨path, hpath⟩ := h.rooted.exists_path h.opened
  refine ⟨?_, hr, ⟨path, hpath, hpath.changesOnly_self h.rooted h.opened hr⟩,
    fun _ _ => rfl⟩
  rw [hr]
  rfl

end Scopes

/-- Assigning has a value, and changes the scopes alone. -/
theorem assignVariable_assigned (hg : site.Grounded world.scopes)
    (op : AssignOp) (name : String) (value : Value) :
    ∃ r scopes, (assignVariable site.frame op name value).runIn world =
      (.ok r, { world with scopes }) ∧
      world.scopes.Assigned site.frame op name value r scopes := by
  have assigned {r : Value}
      (hr : r = op.result (world.scopes.find? site.frame name) value)
      (hk : op = .keep → world.scopes.find? site.frame name = none) :=
    Scopes.Assigned.of_assign op name value hg hr hk
  unfold assignVariable
  rw [Eval.runIn_get_bind]
  cases hcurrent : world.lookup site.frame name with
  | none =>
    have hnone : world.scopes.find? site.frame name = none := hcurrent
    have hr : value = op.result (world.scopes.find? site.frame name) value := by
      rw [hnone]
      cases op <;> rfl
    refine ⟨value, _, ?_, assigned hr fun _ => hnone⟩
    cases op <;> rfl
  | some current =>
    have hsome : world.scopes.find? site.frame name = some current := hcurrent
    cases op with
    | set => exact ⟨value, _, rfl, assigned rfl nofun⟩
    | append =>
      refine ⟨current ++ value, _, rfl, assigned ?_ nofun⟩
      rw [hsome]
      rfl
    | keep => exact ⟨current, world.scopes, rfl, .of_kept name value hg hsome⟩

-- ================================================= assignments in runs

/-- Where an assignment stands in a run, and has a value, this is what its
variable is found to be afterwards. -/
theorem assigned_values_are_read (settings : Settings) :
    -- Everywhere in the runs of programs, sites are grounded.
    (∀ world : World, world.scopes.Rooted →
      (∀ source text,
        ((runText settings source text).runIn world).2.scopes.Rooted) ∧
      ∀ p : Program, (p.start settings world).site.Grounded
        (p.start settings world).world.scopes) ∧
    ∀ (c c' : Stage) (places : List Span), c.site.Grounded c.world.scopes →
      Reaches settings c places c' →
      c'.site.Grounded c'.world.scopes ∧
      ∀ (i : Identifier) (op : AssignOp) (list : WordList) (span : Span)
          (r : Value) (after : World),
        c'.task = .statement (.assignment i op list span) →
        c'.run settings = (.ok r, after) →
        -- The name and the value are read, and put what they warn of on record.
        ∃ name value warnings more scopes,
          (i.resolve (c'.world.lookup c'.site.frame)).results =
            (.ok name, warnings) ∧
          (list.value (c'.world.lookup c'.site.frame)).results =
            (.ok value, more) ∧
          after = { (c'.world.warnAll settings (warnings.toList ++ more.toList))
            with scopes } ∧
          c'.world.scopes.Assigned c'.site.frame op name value r scopes := by
  refine ⟨fun world h =>
    ⟨fun source text => runText_rooted settings source text h,
    fun p => p.start_grounded h⟩, fun c c' places hg hreach => ?_⟩
  have hg' := hreach.grounded hg
  refine ⟨hg', fun i op list span r after htask hrun => ?_⟩
  obtain ⟨task, site, world⟩ := c'
  obtain rfl := htask
  rw [Stage.run_statement, Statement.exec] at hrun
  obtain ⟨name, named, hname, hrun⟩ := Eval.runIn_bind_ok hrun
  obtain ⟨value, valued, hvalue, hrun⟩ := Eval.runIn_bind_ok hrun
  obtain ⟨warnings, hwarnings, rfl⟩ := Eval.runIn_read_ok hname
  obtain ⟨more, hmore, rfl⟩ := Eval.runIn_read_ok hvalue
  -- Reading has not changed a variable.
  have hlookup : (world.warnAll settings warnings.toList).lookup site.frame =
      world.lookup site.frame := by
    unfold World.lookup
    rw [World.warnAll_scopes]
  have hall :
    (world.warnAll settings warnings.toList).warnAll settings more.toList =
      world.warnAll settings (warnings.toList ++ more.toList) :=
    List.foldl_append.symm
  rw [hlookup] at hmore
  rw [hall] at hrun
  have hread : site.Grounded
    (world.warnAll settings (warnings.toList ++ more.toList)).scopes := by
    rw [World.warnAll_scopes]
    exact hg'
  obtain ⟨r', scopes, hassign, hassigned⟩ :=
    assignVariable_assigned hread op name value
  rw [hassign] at hrun
  cases hrun
  rw [World.warnAll_scopes] at hassigned
  exact ⟨name, value, warnings, more, scopes, hwarnings, hmore, rfl, hassigned⟩

/-- A block with a variable of its own, which is appended to. -/
def appendingBlock : Block :=
  let place := Span.ofPoint "t" .origin
  let x : Identifier := ⟨[.text "X"], place⟩
  let word (text : String) : WordList := ⟨[.literal ⟨text, place⟩], place⟩
  ⟨[.localBinding ⟨[.identifier x], place⟩ (some (word "b")) place,
    .assignment x .append (word "c") place], place⟩

/-- Where the block is run, the variable has a value outside of it as well. The
block's own one is appended to. -/
theorem appendingBlock_assigns :
    let world : World := ({} : World).bind Scopes.root "X" ["a"]
    ∃ places c after scopes,
      Reaches {} ⟨.statement (.block appendingBlock), .top, world⟩ places c ∧
      c.run {} = (.ok ["b", "c"], after) ∧
      c.world.scopes.valueIn "X" Scopes.root = some ["a"] ∧
      c.world.scopes.Assigned c.site.frame .append "X" ["c"]
        ["b", "c"] scopes := by
  intro world
  have hroot : world.scopes.Rooted := Scopes.rooted_initial.set ..
  have hreach :
      Reaches {} ⟨.statement (.block appendingBlock), .top, world⟩ _ _ :=
    .call .block <| .call .framed <| .call (.tail rfl rfl) <| .call .head .here
  obtain ⟨-, hassigned⟩ :=
    (assigned_values_are_read {}).2 _ _ _ (Site.grounded_top hroot) hreach
  obtain ⟨name, value, _, _, scopes, hname, hvalue, -, h⟩ :=
    hassigned _ _ _ _ _ _ rfl rfl
  cases hname
  cases hvalue
  exact ⟨_, _, _, scopes, hreach, rfl, rfl, h⟩

end Jam
