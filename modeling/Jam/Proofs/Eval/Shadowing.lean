/-
Names bound for a while, and the variables they hide.

Scoping is dynamic: the body of a rule runs in a frame below that of its
invocation, and so do the rules it invokes in turn. Each of them may assign
to a variable of the invoking statement. But not to one whose name is bound
in between: for an invocation these are the numbers of its arguments and
the parameters of the rule, for a loop its variable.

The argument has two phases. First the names are bound, in a new frame and
nowhere else (`Eval.Declares`). From then on the new frame hides them
(`Scopes.Hides`), for itself and for every frame opened below it, until it
is closed. What goes on in the second phase does not matter: by
`Leads.valueIn_hidden` no steps of any run change a hidden variable, whether
the run declares, assigns, appends, invokes further rules or breaks down.

# What is proved

- `bound_names_shadow`: an invocation of a rule with literal parameters
  leaves the variables named by its arguments and parameters as they were
  for the invoking statement, and a loop with a literal variable leaves the
  variable of that name as it was, on every path.
-/
import Jam.Proofs.Eval.Actions
import Jam.Proofs.Scopes.Shadowing

namespace Jam

variable {allowed : Statement → Prop} {own : Bool} {frame : FrameId}
  {name : String} {before middle after world : World} {α β : Type}

-- ==================================================== hidden variables

/-- A run in a frame from which a name is hidden leaves the variables of that
name in the frames behind alone. -/
theorem Leads.valueIn_hidden (h : Leads allowed own frame before after)
    {base id : FrameId} (hh : before.scopes.Hides base name frame)
    (hid : id < base) :
    after.scopes.valueIn name id = before.scopes.valueIn name id := by
  induction h with
  | refl | report | raise | define => rfl
  | @trans own frame before middle after h₁ h₂ ih₁ ih₂ =>
    have hm : middle.scopes.Hides base name frame :=
      hh.mono (fun id _ => h₁.parent? id) fun id hb => h₁.binds_mono hb
    exact (ih₂ hm).trans (ih₁ hh)
  | @bind frame world other value =>
    have hne : id ≠ frame := Nat.ne_of_lt (Nat.lt_of_lt_of_le hid hh.base_le)
    show (world.scopes.set frame other value).valueIn name id = _
    rw [Scopes.valueIn_set, if_neg fun hc => hne hc.1.symm]
  | @assign own frame world other value =>
    show (world.scopes.set (world.scopes.target frame other) other
      value).valueIn name id = _
    rw [Scopes.valueIn_set, if_neg]
    rintro ⟨htarget, rfl, -⟩
    -- the target of an assignment to the hidden name is not behind
    have hle : base ≤ id := htarget ▸ hh.le_target
    exact absurd hid (Nat.not_lt.mpr hle)
  | @inside own frame world after h ih =>
    have hlt : frame < world.scopes.depth := hh.lt_depth
    have hlow : id < world.scopes.depth :=
      Nat.lt_trans (Nat.lt_of_lt_of_le hid hh.base_le) hlt
    have hopen : (world.enter frame).2.scopes.Hides base name frame :=
      hh.mono (fun _ hi => Scopes.parent?_createSubscope _ _ hi)
        fun _ hb => (Scopes.binds_createSubscope ..).mpr hb
    have hin :
        (world.enter frame).2.scopes.Hides base name (world.enter frame).1 :=
      .above (Scopes.parent?_createSubscope_self ..) hlt hopen
    calc (after.leave (world.enter frame).1).scopes.valueIn name id
        = after.scopes.valueIn name id := Scopes.valueIn_release _ _ _ hlow
      _ = (world.enter frame).2.scopes.valueIn name id := ih hin
      _ = world.scopes.valueIn name id := Scopes.valueIn_createSubscope ..

-- ================================================ variables left alone

/-- The open frames are the same, and the variables of one name in them. -/
structure World.SameFor (name : String) (before after : World) : Prop where
  depth : after.scopes.depth = before.scopes.depth
  parent : ∀ id, after.scopes.parent? id = before.scopes.parent? id
  value : ∀ id < before.scopes.depth,
    after.scopes.valueIn name id = before.scopes.valueIn name id

namespace World.SameFor

theorem refl : SameFor name world world := ⟨rfl, fun _ => rfl, fun _ _ => rfl⟩

theorem trans (h : SameFor name before middle)
    (h' : SameFor name middle after) : SameFor name before after where
  depth := h'.depth.trans h.depth
  parent id := (h'.parent id).trans (h.parent id)
  value id hid := (h'.value id (h.depth ▸ hid)).trans (h.value id hid)

/-- From every frame the variable is seen as before. -/
theorem lookup (h : SameFor name before after) (frame : FrameId) :
    after.lookup frame name = before.lookup frame name :=
  Scopes.find?_congr h.depth h.parent h.value frame

end World.SameFor

-- ======================================================= binding names

namespace Eval

/-- The action does nothing but give variables of `frame` values, and does so
to all that are named. -/
structure Declares (frame : FrameId) (names : List String) (x : Eval Unit) :
    Prop where
  steps : Steps (fun _ => True) true frame x
  ok : ∀ world, (x.runIn world).1 = .ok ()
  elsewhere : ∀ world id, id ≠ frame → ∀ name,
    (x.runIn world).2.scopes.valueIn name id = world.scopes.valueIn name id
  binds : ∀ world, frame < world.scopes.depth → ∀ name ∈ names,
    (x.runIn world).2.scopes.Binds frame name

namespace Declares

theorem runIn_eq {names : List String} {x : Eval Unit}
    (h : Declares frame names x) (world : World) :
    x.runIn world = (.ok (), (x.runIn world).2) :=
  Prod.ext (h.ok world) rfl

theorem bind (name : String) (value : Value) :
    Declares frame [name] (modify (·.bind frame name value)) where
  steps := .changing fun _ => .bind name value
  ok _ := rfl
  elsewhere world id hid other := by
    show (world.scopes.set frame name value).valueIn other id = _
    rw [Scopes.valueIn_set, if_neg fun hc => hid hc.1.symm]
  binds world hopen other hm := by
    obtain rfl := List.mem_singleton.mp hm
    show ((world.scopes.set frame other value).valueIn other
      frame).isSome = true
    rw [Scopes.valueIn_set, if_pos ⟨rfl, rfl, hopen⟩]
    rfl

theorem seq {names names' : List String} {x y : Eval Unit}
    (hx : Declares frame names x) (hy : Declares frame names' y) :
    Declares frame (names ++ names') (x >>= fun _ => y) := by
  have run : ∀ world,
      (x >>= fun _ => y).runIn world = y.runIn (x.runIn world).2 := by
    intro world
    rw [runIn_bind, hx.runIn_eq world]
  refine ⟨.bind hx.steps fun _ => hy.steps, fun world => ?_,
    fun world id hid name => ?_, fun world hopen name hm => ?_⟩
  · rw [run]
    exact hy.ok _
  · rw [run]
    exact (hy.elsewhere _ id hid name).trans (hx.elsewhere world id hid name)
  · have hr : ∀ w : World, w.RulesObey fun _ => True :=
      fun _ _ _ _ _ _ => trivial
    have hl := hx.steps.leads world (hr world)
    rw [run]
    rcases List.mem_append.mp hm with hm | hm
    · -- bound by the first action, and not unbound by the second
      exact (hy.steps.leads _ (hr _)).binds_mono (hx.binds world hopen name hm)
    · exact hy.binds _ (hl.depth ▸ hopen) name hm

/-- Binding names one after the other. -/
theorem forM {γ : Type} {f : γ → Eval Unit} {nameOf : γ → List String}
    (as : List γ) (h : ∀ a ∈ as, Declares frame (nameOf a) (f a)) :
    Declares frame (as.flatMap nameOf) (as.forM f) := by
  induction as with
  | nil =>
    exact ⟨.pure (), fun _ => rfl, fun _ _ _ _ => rfl,
      fun _ _ _ hm => nomatch hm⟩
  | cons a as ih =>
    have ha : Declares frame (nameOf a) (f a) := h a List.mem_cons_self
    have has : Declares frame (as.flatMap nameOf) (as.forM f) :=
      ih fun b hb => h b (List.mem_cons_of_mem a hb)
    rw [List.flatMap_cons]
    exact ha.seq has

end Declares

-- ======================================= actions that spare a variable

/-- The action leaves the variables of one name as they are. -/
structure Spares (name : String) (x : Eval α) : Prop where
  same : ∀ world : World, world.SameFor name (x.runIn world).2

namespace Spares

theorem pure (a : α) : Spares name (Pure.pure a : Eval α) where
  same _ := .refl

theorem throw (halt : Halt) : Spares name (throw halt : Eval α) where
  same _ := .refl

/-- Reading changes no variable at all. -/
theorem read (settings : Settings) (place : FrameId)
    (reading : Environment → Reading α) :
    Spares name (Eval.read settings place reading) where
  same world := by
    have hs : ((Eval.read settings place reading).runIn world).2.scopes =
        world.scopes := by
      rw [runIn_read]
      exact World.warnAll_scopes ..
    exact ⟨by rw [hs], fun _ => by rw [hs], fun _ _ => by rw [hs]⟩

theorem bind {x : Eval α} {f : α → Eval β} (hx : Spares name x)
    (hf : ∀ a, Spares name (f a)) : Spares name (x >>= f) where
  same := rel_bind (fun h h' => h.trans h') hx.same fun a => (hf a).same

theorem inside {x : Eval α} (span : Span) (hx : Spares name x) :
    Spares name (inside span x) where
  same world := by
    rw [runIn_inside_world]
    exact hx.same world

theorem closed : Closed (Spares name) where
  pure := .pure
  bind := .bind
  get_bind hf := ⟨fun world => (hf world).same world⟩

theorem loopEnds : Spares name loopEnds :=
  closed.loopEnds ⟨fun _ => ⟨rfl, fun _ => rfl, fun _ _ => rfl⟩⟩

theorem forEach {body : String → Eval Value} (h : ∀ x, Spares name (body x))
    (values : List String) (last : Value) :
    Spares name (forEach body values last) :=
  closed.forEach .loopEnds h values last

/-- What is run in a frame of its own spares the names that are bound there
before anything else is done. -/
theorem inSubscope {names : List String} {first : FrameId → Eval Unit}
    {rest : FrameId → Eval α}
    (hfirst : ∀ inner, Declares inner names (first inner))
    (hrest : ∀ inner, Steps (fun _ => True) true inner (rest inner))
    (hn : name ∈ names) :
    Spares name
      (inSubscope frame fun inner => first inner >>= fun _ => rest inner) where
  same world := by
    have hr : ∀ w : World, w.RulesObey fun _ => True :=
      fun _ _ _ _ _ _ => trivial
    have hsteps : Steps (fun _ => True) false frame (Eval.inSubscope frame
        fun inner => first inner >>= fun _ => rest inner) :=
      .inSubscope fun inner => .bind (hfirst inner).steps fun _ => hrest inner
    have hl := hsteps.leads world (hr world)
    refine ⟨hl.depth, hl.parent?, fun id hid => ?_⟩
    -- the three worlds: the frame is open, the names are bound, all is done
    let opened := (world.enter frame).2
    let inner := (world.enter frame).1
    let bound := ((first inner).runIn opened).2
    let done := ((rest inner).runIn bound).2
    have hopen : inner < opened.scopes.depth := by
      show inner < (world.enter frame).2.scopes.depth
      rw [Leads.depth_enter]
      exact Nat.lt_succ_self inner
    have hbinds : bound.scopes.Binds inner name :=
      (hfirst inner).binds opened hopen name hn
    have hhide : bound.scopes.Hides inner name inner :=
      .here (Nat.le_refl inner) hbinds
    have hdone : done.scopes.valueIn name id = bound.scopes.valueIn name id :=
      ((hrest inner).leads bound (hr bound)).valueIn_hidden hhide hid
    have hrun : (first inner >>= fun _ => rest inner).runIn opened =
        (rest inner).runIn bound := by
      rw [runIn_bind, (hfirst inner).runIn_eq opened]
    have hafter : ((Eval.inSubscope frame fun inner =>
        first inner >>= fun _ => rest inner).runIn world).2 =
          done.leave inner := by
      rw [runIn_inSubscope_of_steps fun inner =>
        .bind (hfirst inner).steps fun _ => hrest inner]
      exact congrArg (fun outcome => outcome.2.leave inner) hrun
    calc _ = (done.leave inner).scopes.valueIn name id := by rw [hafter]
      _ = done.scopes.valueIn name id := Scopes.valueIn_release _ _ _ hid
      _ = bound.scopes.valueIn name id := hdone
      _ = opened.scopes.valueIn name id :=
        (hfirst inner).elsewhere opened id (Nat.ne_of_lt hid) name
      _ = world.scopes.valueIn name id := Scopes.valueIn_createSubscope ..

end Spares

end Eval

-- =============================================== invocations and loops

section Invocations

open Eval (Declares Spares Steps)

/-- The names that an invocation with so many arguments binds: the numbers of
the arguments, and the parameters that are literal. -/
def RuleDefinition.boundNames (rule : RuleDefinition) (arguments : Nat) :
    List String :=
  (List.range' 1 arguments).map toString ++
    rule.parameters.flatMap (·.literal?.toList)

/-- Reading what does not depend on variables is no action at all. -/
theorem read_of_pure (settings : Settings) (frame : FrameId)
    {reading : Environment → Reading α} {a : α}
    (h : ∀ env, reading env = pure a) :
    Eval.read settings frame reading = pure a := by
  funext world
  show (Eval.read settings frame reading).runIn world = _
  rw [Eval.runIn_read, h]
  rfl

/-- Such is a literal name. -/
theorem read_literal (settings : Settings) (frame : FrameId) {i : Identifier}
    {text : String} (h : i.literal? = some text) :
    Eval.read settings frame i.resolve = pure text :=
  read_of_pure settings frame fun env => i.resolve_of_literal env h

/-- With literal parameters, nothing but binding names happens before the body
of a rule is run. -/
theorem bindArguments_declares (settings : Settings) (inner : FrameId)
    (rule : RuleDefinition) (arguments : List Value)
    (hp : ∀ p ∈ rule.parameters, p.literal?.isSome = true) :
    Declares inner (rule.boundNames arguments.length)
      (bindArguments settings inner rule.parameters arguments) := by
  have hnumbers : Declares inner
      ((arguments.zipIdx 1).flatMap fun entry => [toString entry.2])
      ((arguments.zipIdx 1).forM fun entry =>
        modify (·.bind inner (toString entry.2) entry.1)) :=
    .forM _ fun entry _ => .bind (toString entry.2) entry.1
  have hparameters : Declares inner
      (rule.parameters.zipIdx.flatMap fun entry => entry.1.literal?.toList)
      (rule.parameters.zipIdx.forM fun entry => do
        let name ← Eval.read settings inner entry.1.resolve
        modify (·.bind inner name (arguments[entry.2]?.getD []))) := by
    refine .forM _ fun entry hentry => ?_
    have hmem : entry.1 ∈ rule.parameters := List.fst_mem_of_mem_zipIdx hentry
    obtain ⟨text, htext⟩ := Option.isSome_iff_exists.mp (hp entry.1 hmem)
    rw [read_literal settings inner htext, htext]
    exact .bind text _
  have hnum : (List.range' 1 arguments.length).map toString =
      (arguments.zipIdx 1).flatMap fun entry => [toString entry.2] := by
    rw [← List.zipIdx_map_snd 1 arguments, List.map_map, List.map_eq_flatMap]
    rfl
  have hpar : rule.parameters.flatMap (·.literal?.toList) =
      rule.parameters.zipIdx.flatMap fun entry => entry.1.literal?.toList := by
    calc
      _ = (rule.parameters.zipIdx.map Prod.fst).flatMap
            (·.literal?.toList) := by
          rw [List.zipIdx_map_fst]
      _ = _ := List.flatMap_map ..
  unfold RuleDefinition.boundNames
  rw [hnum, hpar]
  exact hnumbers.seq hparameters

/-- An invocation of a rule with literal parameters spares the names it
binds. -/
theorem invoke_spares (settings : Settings) (site : Site) (ruleName : String)
    (rule : RuleDefinition) (arguments : List Value) (span : Span)
    (hp : ∀ p ∈ rule.parameters, p.literal?.isSome = true)
    (hn : name ∈ rule.boundNames arguments.length) :
    Spares name
      (site.invoke settings site.frame ruleName rule arguments span) := by
  rw [Site.invoke_eq]
  split
  · exact .throw _
  · refine .inside span (.inSubscope (fun inner => ?_) (fun inner => ?_) hn)
    · exact bindArguments_declares settings inner rule arguments hp
    · refine .bind
        (execBlock_steps (invokeWithin_steps settings _) rule.body ?_)
        fun value => ?_
      · exact fun _ _ => trivial
      · exact .bind (.settle ..) fun _ => .pure value

/-- The rest of an invocation, once its name is read, spares the names it binds:
the arguments are read, and the rule, if it exists, is invoked. -/
theorem afterName_sameFor (settings : Settings) (site : Site)
    {ruleName : String} {rule : RuleDefinition} (arguments : List WordList)
    (span : Span) (hrule : world.rules.find? ruleName = some rule)
    (hp : ∀ p ∈ rule.parameters, p.literal?.isSome = true)
    (hn : name ∈ rule.boundNames arguments.length) :
    world.SameFor name ((do
      let arguments ← Eval.read settings site.frame (listValues · arguments)
      match (← get).rules.find? ruleName with
      | some rule =>
        site.invoke settings site.frame ruleName rule arguments span
      | none => invokeUndefined settings ruleName arguments span :
        Eval Value).runIn world).2 := by
  have hread : world.SameFor name
      ((Eval.read settings site.frame (listValues · arguments)).runIn
        world).2 :=
    (Spares.read ..).same world
  rw [Eval.runIn_bind]
  rw [Eval.runIn_read] at hread ⊢
  cases hvalues :
    (listValues (world.lookup site.frame) arguments).results.1 with
  | error e =>
    rw [hvalues] at hread
    exact hread
  | ok values =>
    rw [hvalues] at hread
    refine hread.trans ?_
    have hlen : values.length = arguments.length := length_of_listValues hvalues
    -- reading has not touched the rules
    show World.SameFor name _
      ((match (World.warnAll settings _ world).rules.find? ruleName with
        | some rule => site.invoke settings site.frame ruleName rule values span
        | none => invokeUndefined settings ruleName values span :
          Eval Value).runIn _).2
    rw [World.warnAll_rules, hrule]
    exact (invoke_spares settings site ruleName rule values span hp
      (hlen ▸ hn)).same _

/-- Bound names shadow for as long as they are bound. -/
theorem bound_names_shadow (settings : Settings) (site : Site) (world : World) :
    (∀ (i : Identifier) (arguments : List WordList) (span : Span)
        (ruleName : String) (rule : RuleDefinition),
      (i.resolve (world.lookup site.frame)).results.1 = .ok ruleName →
      world.rules.find? ruleName = some rule →
      (∀ p ∈ rule.parameters, p.literal?.isSome = true) →
      ∀ name ∈ rule.boundNames arguments.length,
        (((Phrase.statement (.invocation i arguments span)).eval settings
            site).runIn world).2.lookup site.frame name =
          world.lookup site.frame name) ∧
    ∀ (i : Identifier) (values : WordList) (body : Block) (span : Span)
        (name : String),
      i.literal? = some name →
        (((Phrase.statement (.forLoop i values body span)).eval settings
            site).runIn world).2.lookup site.frame name =
          world.lookup site.frame name := by
  refine ⟨fun i arguments span ruleName rule hname hrule hp name hn => ?_,
    fun i values body span name hi => ?_⟩
  · have hs : world.SameFor name
        (((Phrase.statement (.invocation i arguments span)).eval settings
          site).runIn world).2 := by
      show world.SameFor name
        ((Statement.exec settings (site.invoke settings) site.frame _).runIn
          world).2
      have h₁ : world.SameFor name
          ((Eval.read settings site.frame i.resolve).runIn world).2 :=
        (Spares.read ..).same world
      rw [Statement.exec, Eval.runIn_bind]
      rw [Eval.runIn_read, hname] at h₁ ⊢
      refine h₁.trans ?_
      exact afterName_sameFor settings site arguments span
        (by rw [World.warnAll_rules]; exact hrule) hp hn
    exact hs.lookup site.frame
  · have hs : Spares name ((Phrase.statement (.forLoop i values body span)).eval
        settings site) := by
      show Spares name
        (Statement.exec settings (site.invoke settings) site.frame _)
      rw [Statement.exec, read_literal settings site.frame hi]
      show Spares name (Eval.read settings site.frame values.value >>= _)
      refine .bind (.read ..) fun values => .forEach (fun x => ?_) values []
      refine .inSubscope (fun inner => .bind name [x]) (fun inner => ?_)
        (List.mem_singleton.mpr rfl)
      exact execBlock_steps (invokeWithin_steps settings _) body
        fun _ _ => trivial
    exact (hs.same world).lookup site.frame

/-- A rule with the parameter `x` that assigns to it, and appends to its first
argument. -/
def overwritingRule : RuleDefinition :=
  let place := Span.ofPoint "rules" .origin
  let name (text : String) : Identifier := ⟨[.text text], place⟩
  let word : WordList := ⟨[.literal ⟨"new", place⟩], place⟩
  ⟨name "r", [name "x"],
    ⟨[.assignment (name "x") .set word place,
      .assignment (name "1") .append word place], place⟩,
    place⟩

/-- A world with that rule, and with variables of the names it binds. -/
def overwritingWorld : World :=
  ((({} : World).bind Scopes.root "x" ["old"]).bind Scopes.root "1"
    ["one"]).define "r" overwritingRule

/-- Invoking the rule with an argument leaves both variables as they were, and
so does a loop over `x` whose body is that of the rule. -/
theorem overwriting_shadows :
    let place := Span.ofPoint "rules" .origin
    let word : WordList := ⟨[.literal ⟨"a", place⟩], place⟩
    let invocation : Statement := .invocation overwritingRule.name [word] place
    let loop : Statement :=
      .forLoop ⟨[.text "x"], place⟩ word overwritingRule.body place
    (overwritingRule.name.resolve
      (overwritingWorld.lookup Scopes.root)).results.1 = .ok "r" ∧
    (∃ rule, overwritingWorld.rules.find? "r" = some rule ∧
      (∀ p ∈ rule.parameters, p.literal?.isSome = true) ∧
      "x" ∈ rule.boundNames 1 ∧ "1" ∈ rule.boundNames 1) ∧
    (((Phrase.statement invocation).eval {} .top).runIn
      overwritingWorld).2.lookup Scopes.root "x" = some ["old"] ∧
    (((Phrase.statement invocation).eval {} .top).runIn
      overwritingWorld).2.lookup Scopes.root "1" = some ["one"] ∧
    (((Phrase.statement loop).eval {} .top).runIn
      overwritingWorld).2.lookup Scopes.root "x" = some ["old"] := by
  intro place word invocation loop
  have hname : (overwritingRule.name.resolve
      (overwritingWorld.lookup Scopes.root)).results.1 = .ok "r" := rfl
  have hrule : overwritingWorld.rules.find? "r" = some overwritingRule := rfl
  have hp : ∀ p ∈ overwritingRule.parameters, p.literal?.isSome = true := by
    intro p hp
    obtain rfl := List.mem_singleton.mp hp
    rfl
  have hx : "x" ∈ overwritingRule.boundNames 1 := by decide
  have h1 : "1" ∈ overwritingRule.boundNames 1 := by decide
  have hshadow := bound_names_shadow {} .top overwritingWorld
  refine ⟨hname, ⟨overwritingRule, hrule, hp, hx, h1⟩, ?_, ?_, ?_⟩
  · exact (hshadow.1 _ [word] place "r" overwritingRule hname hrule hp "x"
      hx).trans rfl
  · exact (hshadow.1 _ [word] place "r" overwritingRule hname hrule hp "1"
      h1).trans rfl
  · exact (hshadow.2 _ word overwritingRule.body place "x" rfl).trans rfl

end Invocations

end Jam
