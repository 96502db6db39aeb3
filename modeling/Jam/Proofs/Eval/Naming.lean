/-
The names that programs create.

Names are put together while a program runs, from values that may be any
text. Two things keep the characters of a name to those of identifiers: the
parts that are variables are looked at where the name is read
(`Variable.asPart`), and the parts that are text were read by the grammar
(`Identifier.Proper`). So every name that is read is one (`IsName`), and
all names that are bound by assignments, loops, definitions and invocations
are read so, or are numbers. A local declaration is the exception: it binds
the elements of a list, whatever they are.

# What is proved

- `Calls.named`, `Reaches.named`: where no statement declares, the
  variables and rules of the world have such names at every stage of a run.
- `created_names_are_identifiers`: so they have in all worlds that a session
  comes through, if it begins without variables and rules.

The invariant is `World.Named`. It has a part about the bodies of the rules,
since they are run in other worlds than that of their definition.
-/
import Jam.Eval.Session
import Jam.Proofs.Eval.Stages
import Jam.Proofs.Syntax.WellFormed

namespace Jam

variable {settings : Settings} {site : Site} {world after : World} {α β : Type}

-- =============================================================== names

/-- A text of the characters of names. -/
def IsName (name : String) : Prop := ∀ c ∈ name.toList, isNameChar c = true

instance (name : String) : Decidable (IsName name) :=
  decidable_of_iff (name.toList.all isNameChar = true) List.all_eq_true

theorem IsName.append {a b : String} (ha : IsName a) (hb : IsName b) :
    IsName (a ++ b) := by
  intro c hc
  rw [String.toList_append] at hc
  exact (List.mem_append.mp hc).elim (ha c) (hb c)

theorem isNameChar_of_isAlnum {c : Char} (h : isAlnum c = true) :
    isNameChar c = true := by
  simp [isNameChar, h]

/-- The arguments of an invocation are named by numbers. -/
theorem isName_toString (n : Nat) : IsName (toString n) := by
  intro c hc
  have hmem : c ∈ Nat.toDigits 10 n := Nat.toList_repr ▸ hc
  have hdigit : c.isDigit = true :=
    Nat.isDigit_of_mem_toDigits (by decide) (Nat.le_refl 10) hmem
  refine isNameChar_of_isAlnum ?_
  have hd : isDigit c = true := hdigit
  rw [isAlnum, hd, Bool.or_true]

-- ============================================== what is read as a name

namespace Reading

/-- Whatever the reading gives satisfies `Q`. -/
def Gives (Q : α → Prop) (r : Reading α) : Prop :=
  ∀ warnings a, (r.run.run warnings).1 = .ok a → Q a

namespace Gives

variable {Q : α → Prop} {R : β → Prop}

theorem pure {a : α} (h : Q a) : Gives Q (Pure.pure a : Reading α) := by
  rintro _ _ ⟨⟩
  exact h

theorem fail (cause : Cause) (span : Span) :
    Gives Q (Reading.fail cause span : Reading α) := by
  rintro _ _ ⟨⟩

/-- What follows may go by what was given first. -/
theorem bind {x : Reading α} {f : α → Reading β} (hx : Gives Q x)
    (hf : ∀ a, Q a → Gives R (f a)) : Gives R (x >>= f) := by
  intro warnings b h
  rw [run_bind] at h
  split at h
  · next a middle hrun => exact hf a (hx warnings a (by rw [hrun])) middle b h
  · cases h

theorem trivial (r : Reading α) : Gives (fun _ => True) r :=
  fun _ _ _ => True.intro

/-- So is what is read in a run. -/
theorem of_run {frame : FrameId} {reading : Environment → Reading α} {a : α}
    (h : ∀ env, Gives Q (reading env))
    (hr : (Eval.read settings frame reading).runIn world = (.ok a, after)) :
    Q a := by
  obtain ⟨warnings, hresults, -⟩ := Eval.runIn_read_ok hr
  exact h (world.lookup frame) #[] a (congrArg Prod.fst hresults)

end Gives

end Reading

open Reading (Gives)

/-- A variable inside a name is one only if it has such characters. -/
theorem Variable.asPart_isName (v : Variable) (value : Value) :
    Gives IsName (v.asPart value) := by
  unfold Variable.asPart
  split
  · next element =>
    split
    · next hnone =>
      refine .pure fun c hc => ?_
      have hno := List.find?_eq_none.mp hnone c hc
      simpa using hno
    · exact .fail _ _
  · exact .fail _ _

theorem resolveParts_isName (env : Environment) :
    ∀ parts : List Part, (∀ c ∈ literalOf parts, isAlnum c = true) →
      Gives IsName (resolveParts env parts)
  | [], _ => .pure fun _ hc => nomatch hc
  | .text text :: parts, h => by
    obtain ⟨htext, hparts⟩ := List.forall_mem_append.mp h
    rw [resolveParts]
    refine .bind (resolveParts_isName env parts hparts) fun rest hrest =>
      .pure ?_
    exact IsName.append (fun c hc => isNameChar_of_isAlnum (htext c hc)) hrest
  | .variable v :: parts, h => by
    rw [resolveParts]
    refine .bind (.trivial (v.value env)) fun value _ => ?_
    refine .bind (v.asPart_isName value) fun text htext => ?_
    exact .bind (resolveParts_isName env parts h) fun rest hrest =>
      .pure (htext.append hrest)

/-- A proper name is read as one, whatever the values of the variables are. -/
theorem Identifier.Proper.isName {i : Identifier} (h : i.Proper .name)
    (env : Environment) : Gives IsName (i.resolve env) := by
  cases h with
  | intro _ _ hallowed _ =>
    rw [Identifier.resolve]
    exact resolveParts_isName env _ hallowed

-- ========================================== statements that bind names

/-- A local declaration. -/
def Statement.isLocal : Statement → Bool
  | .localBinding .. => true
  | _ => false

/-- The names that a statement binds or defines itself are proper. -/
def Statement.BindsProper : Statement → Prop
  | .localBinding .. => False
  | .assignment i _ _ _ | .forLoop i _ _ _ => i.Proper .name
  | .definition rule =>
    rule.name.Proper .name ∧ ∀ i ∈ rule.parameters, i.Proper .name
  | .invocation .. | .returnWith .. | .breakLoop _ | .continueLoop _ | .block _
    | .choice .. | .whileLoop .. => True

/-- What was read from a text binds proper names, unless it is a local
declaration. -/
theorem Statement.WellFormed.bindsProper {s : Statement} (h : s.WellFormed)
    (hl : s.isLocal = false) : s.BindsProper := by
  cases s with
  | localBinding => cases hl
  | assignment | forLoop => exact h.1
  | definition rule => exact h
  | _ => exact True.intro

/-- The definition of a rule, and all in its body, bind proper names. -/
def RuleDefinition.BindsProper (rule : RuleDefinition) : Prop :=
  ∀ s ∈ (Statement.definition rule).nodes, s.BindsProper

theorem RuleDefinition.BindsProper.parameters {rule : RuleDefinition}
    (h : rule.BindsProper) : ∀ i ∈ rule.parameters, i.Proper .name :=
  (h _ (Statement.mem_nodes _)).2

theorem RuleDefinition.BindsProper.body {rule : RuleDefinition}
    (h : rule.BindsProper) : ∀ s ∈ rule.body.nodes, s.BindsProper := by
  intro s hs
  refine h s ?_
  rw [nodes_definition]
  exact List.mem_cons_of_mem _ hs

-- ======================================================= the invariant

/-- All variables have names. -/
def Scopes.Named (s : Scopes) : Prop :=
  ∀ frame name, s.Binds frame name → IsName name

/-- All variables and rules have names, and the rules create no others. -/
structure World.Named (world : World) : Prop where
  scopes : world.scopes.Named
  rules : ∀ name rule, world.rules.find? name = some rule →
    IsName name ∧ rule.BindsProper

theorem Scopes.Named.set {s : Scopes} (h : s.Named) {name : String}
    (hn : IsName name) (frame : FrameId) (value : Value) :
    (s.set frame name value).Named := by
  intro id other hb
  unfold Scopes.Binds at hb
  rw [Scopes.valueIn_set] at hb
  split at hb
  · next hc => exact hc.2.1 ▸ hn
  · exact h id other hb

namespace World.Named

theorem bind (h : world.Named) {name : String} (hn : IsName name)
    (frame : FrameId) (value : Value) : (world.bind frame name value).Named :=
  ⟨h.scopes.set hn frame value, h.rules⟩

theorem assign (h : world.Named) {name : String} (hn : IsName name)
    (frame : FrameId) (value : Value) : (world.assign frame name value).Named :=
  ⟨h.scopes.set hn _ value, h.rules⟩

theorem define (h : world.Named) {name : String} (hn : IsName name)
    {rule : RuleDefinition} (hr : rule.BindsProper) :
    (world.define name rule).Named where
  scopes := h.scopes
  rules other found hf := by
    simp only [World.define, Table.find?_insert] at hf
    split at hf
    · next heq =>
      cases hf
      exact ⟨heq ▸ hn, hr⟩
    · exact h.rules other found hf

theorem enter (h : world.Named) (parent : FrameId) :
    (world.enter parent).2.Named where
  scopes id name hb := h.scopes id name ((Scopes.binds_createSubscope ..).mp hb)
  rules := h.rules

theorem leave (h : world.Named) (frame : FrameId) :
    (world.leave frame).Named where
  scopes id name hb := h.scopes id name hb.of_release
  rules := h.rules

theorem warnAll (h : world.Named) (settings : Settings) (ws : List Warning) :
    (world.warnAll settings ws).Named where
  scopes := by
    rw [World.warnAll_scopes]
    exact h.scopes
  rules := by
    rw [World.warnAll_rules]
    exact h.rules

end World.Named

-- ============================================================= actions

namespace Eval

/-- The action keeps the invariant. -/
structure Naming (x : Eval α) : Prop where
  kept : ∀ world, world.Named → (x.runIn world).2.Named

namespace Naming

theorem kept_of_run {x : Eval α} (hx : Naming x) {result : Except Halt α}
    (h : x.runIn world = (result, after)) (hw : world.Named) : after.Named := by
  have hn := hx.kept world hw
  rw [h] at hn
  exact hn

theorem pure (a : α) : Naming (Pure.pure a : Eval α) := ⟨fun _ h => h⟩

theorem throw (halt : Halt) : Naming (throw halt : Eval α) := ⟨fun _ h => h⟩

theorem changing {f : World → World}
    (h : ∀ world, world.Named → (f world).Named) : Naming (modify f) := ⟨h⟩

theorem raise (signal : Signal) : Naming (modify (·.raise signal)) :=
  .changing fun _ h => ⟨h.scopes, h.rules⟩

theorem bindName {name : String} (hn : IsName name) (frame : FrameId)
    (value : Value) : Naming (modify (·.bind frame name value)) :=
  .changing fun _ h => h.bind hn frame value

theorem warn (settings : Settings) (kind : WarningKind) (message : String)
    (span : Span) : Naming (Eval.warn settings kind message span) :=
  .changing fun _ h => h.warnAll settings [⟨kind, message, some span⟩]

theorem read (settings : Settings) (frame : FrameId)
    (reading : Environment → Reading α) :
    Naming (Eval.read settings frame reading) where
  kept world h := by
    rw [runIn_read]
    exact h.warnAll settings _

theorem bind {x : Eval α} {f : α → Eval β} (hx : Naming x)
    (hf : ∀ a, Naming (f a)) : Naming (x >>= f) where
  kept := rel_bind (R := fun world after => world.Named → after.Named)
    (fun h h' hw => h' (h hw)) hx.kept fun a => (hf a).kept

/-- What follows a reading may go by what was read. -/
theorem read_bind {Q : α → Prop} {frame : FrameId}
    {reading : Environment → Reading α} {f : α → Eval β}
    (hr : ∀ env, Gives Q (reading env)) (hf : ∀ a, Q a → Naming (f a)) :
    Naming (Eval.read settings frame reading >>= f) where
  kept world h := by
    have hread := read settings frame reading
    rw [runIn_bind]
    split
    · next a middle hrun =>
      exact (hf a (Gives.of_run hr hrun)).kept middle (hread.kept_of_run hrun h)
    · next halt middle hrun => exact hread.kept_of_run hrun h

/-- What is done with the world is done with one that has the invariant. -/
theorem get_bind {f : World → Eval α}
    (hf : ∀ world, world.Named → ((f world).runIn world).2.Named) :
    Naming (get >>= f) := ⟨hf⟩

theorem closed : Closed Naming where
  pure := .pure
  bind := .bind
  get_bind hf := .get_bind fun world => (hf world).kept world

theorem inSubscope {frame : FrameId} {body : FrameId → Eval α}
    (h : ∀ inner, Naming (body inner)) : Naming (inSubscope frame body) where
  kept world hn := by
    have hin :=
      (h (world.enter frame).1).kept (world.enter frame).2 (hn.enter frame)
    rw [runIn_inSubscope]
    dsimp only
    split
    · exact hin.leave _
    · exact hin.leave _

theorem inside {x : Eval α} (span : Span) (hx : Naming x) :
    Naming (inside span x) where
  kept world h := by
    rw [runIn_inside_world]
    exact hx.kept world h

theorem loopEnds : Naming loopEnds := closed.loopEnds (.raise .none)

theorem settle (settings : Settings) (place : String) (span : Span) :
    Naming (settle settings place span) :=
  closed.settle (.raise .none)
    (fun kind message => .warn settings kind message span) place

theorem forEach {body : String → Eval Value} (h : ∀ x, Naming (body x))
    (values : List String) (last : Value) : Naming (forEach body values last) :=
  closed.forEach .loopEnds h values last

theorem repeatWhile {test : Eval Bool} {body : Eval Value} (ht : Naming test)
    (hb : Naming body) (passes : Nat) (last : Value) :
    Naming (repeatWhile test body passes last) :=
  closed.repeatWhile .loopEnds ht hb (.throw _) passes last

theorem invokeUndefined (settings : Settings) (name : String)
    (arguments : List Value) (span : Span) :
    Naming (invokeUndefined settings name arguments span) :=
  closed.invokeUndefined (.changing fun _ h => ⟨h.scopes, h.rules⟩)
    (.raise .exit) (fun message => .warn settings _ message span) name

theorem assignVariable {name : String} (hn : IsName name) (frame : FrameId)
    (op : AssignOp) (value : Value) :
    Naming (assignVariable frame op name value) :=
  closed.assignVariable
    (fun value => .changing fun _ h => h.assign hn frame value) op value

/-- Arguments are named by numbers, and by the names of parameters. -/
theorem bindArguments (settings : Settings) (frame : FrameId)
    {parameters : List Identifier} (hp : ∀ i ∈ parameters, i.Proper .name)
    (arguments : List Value) :
    Naming (bindArguments settings frame parameters arguments) := by
  refine .bind (closed.forM _ fun entry _ => ?_) fun _ =>
    closed.forM _ fun entry hentry => ?_
  · exact .bindName (isName_toString entry.2) frame entry.1
  · have hmem : entry.1 ∈ parameters := List.fst_mem_of_mem_zipIdx hentry
    exact .read_bind (hp entry.1 hmem).isName fun name hn =>
      .bindName hn frame _

end Naming

end Eval

-- ========================================================== statements

section Statements

open Eval (Naming)

variable {invoke : Invoke}

/-- A way to invoke rules that keeps the invariant. -/
def Invoke.Naming (invoke : Invoke) : Prop :=
  ∀ (frame : FrameId) (name : String) (rule : RuleDefinition)
    (arguments : List Value) (span : Span), rule.BindsProper →
    Eval.Naming (invoke frame name rule arguments span)

mutual

/-- A statement keeps the invariant if all in it binds proper names. -/
theorem Statement.exec_naming (hi : invoke.Naming) {frame : FrameId} :
    ∀ s : Statement, (∀ x ∈ s.nodes, x.BindsProper) →
      Naming (s.exec settings invoke frame)
  | .invocation i lists span, _ => by
    rw [Statement.exec]
    refine .bind (.read ..) fun name => .bind (.read ..) fun arguments => ?_
    refine .get_bind fun world h => ?_
    split
    · next rule hf =>
      exact (hi frame name rule arguments span (h.rules name rule hf).2).kept
        world h
    · exact (Naming.invokeUndefined settings name arguments span).kept world h
  | .assignment i op list span, h => by
    have hproper : i.Proper .name := h _ (Statement.mem_nodes _)
    rw [Statement.exec]
    refine .read_bind hproper.isName fun name hn =>
      .bind (.read ..) fun value => ?_
    exact .assignVariable hn frame op value
  | .localBinding .., h => (h _ (Statement.mem_nodes _)).elim
  | .returnWith .., _ => by
    rw [Statement.exec]
    exact .bind (.read ..) fun value => .bind (.raise .return) fun _ =>
      .pure value
  | .breakLoop _, _ => by
    rw [Statement.exec]
    exact .bind (.raise .break) fun _ => .pure []
  | .continueLoop _, _ => by
    rw [Statement.exec]
    exact .bind (.raise .continue) fun _ => .pure []
  | .block b, h => by
    rw [Statement.exec]
    exact .inSubscope fun _ => execBlock_naming hi b fun x hx =>
      h x (by simp [nodes_block, hx])
  | .choice condition yes none _, h => by
    rw [Statement.exec]
    refine .bind (.read ..) fun holds => ?_
    split
    · exact .inSubscope fun _ =>
        execBlock_naming hi yes fun x hx => h x (by simp [nodes_choice, hx])
    · exact .pure []
  | .choice condition yes (some no) _, h => by
    rw [Statement.exec]
    refine .bind (.read ..) fun holds => ?_
    split
    · exact .inSubscope fun _ =>
        execBlock_naming hi yes fun x hx =>
          h x (by simp [nodes_choice_else, hx])
    · exact Statement.exec_naming hi no fun x hx =>
        h x (by simp [nodes_choice_else, hx])
  | .forLoop i values body _, h => by
    have hproper : i.Proper .name := h _ (Statement.mem_nodes _)
    rw [Statement.exec]
    refine .read_bind hproper.isName fun name hn =>
      .bind (.read ..) fun values => ?_
    refine .forEach (fun x => .inSubscope fun inner => ?_) values []
    refine .bind (.bindName hn inner [x]) fun _ => ?_
    exact execBlock_naming hi body fun x hx => h x (by simp [nodes_forLoop, hx])
  | .whileLoop condition body _, h => by
    rw [Statement.exec]
    refine .repeatWhile (.read ..) (.inSubscope fun _ => ?_) _ []
    exact execBlock_naming hi body fun x hx =>
      h x (by simp [nodes_whileLoop, hx])
  | .definition rule, h => by
    have hproper : rule.name.Proper .name := (h _ (Statement.mem_nodes _)).1
    rw [Statement.exec]
    refine .read_bind hproper.isName fun name hn => ?_
    exact .bind (.changing fun _ hw => hw.define hn h) fun _ => .pure []

theorem execBlock_naming (hi : invoke.Naming) {frame : FrameId} :
    ∀ b : Block, (∀ x ∈ b.nodes, x.BindsProper) →
      Naming (execBlock settings invoke frame b)
  | ⟨statements, _⟩, h => execAll_naming hi statements [] h

theorem execAll_naming (hi : invoke.Naming) {frame : FrameId} :
    ∀ (ss : List Statement) (last : Value), (∀ x ∈ nodesOf ss, x.BindsProper) →
      Naming (execAll settings invoke frame ss last)
  | [], last, _ => .pure last
  | s :: ss, _, h => by
    rw [nodesOf_cons] at h
    obtain ⟨hs, hss⟩ := List.forall_mem_append.mp h
    rw [execAll]
    refine .bind (Statement.exec_naming hi s hs) fun value =>
      .get_bind fun world hw => ?_
    split
    · exact (execAll_naming hi ss value hss).kept world hw
    · exact hw

end

/-- Rules that bind proper names keep the invariant, however many invocations
are left. -/
theorem invokeWithin_naming (settings : Settings) (further : Nat) :
    (invokeWithin settings further).Naming := by
  induction further with
  | zero => exact fun _ _ _ _ _ _ => .throw _
  | succ further ih =>
    intro frame name rule arguments span h
    refine .inside span (.inSubscope fun inner => ?_)
    refine .bind (.bindArguments settings inner h.parameters arguments)
      fun _ => ?_
    refine .bind (execBlock_naming ih rule.body h.body) fun value => ?_
    exact .bind (.settle settings _ rule.body.span) fun _ => .pure value

end Statements

-- ============================================================== stages

open Eval (Naming)

/-- If a block has the variable of a loop, this has a name. -/
def NamedVariable (loopVariable : Option (String × String)) : Prop :=
  ∀ entry ∈ loopVariable, IsName entry.1

theorem namedVariable_none : NamedVariable none :=
  fun _ he => (Option.not_mem_none _ he).elim

theorem namedVariable_some {name : String} (h : IsName name) (x : String) :
    NamedVariable (some (name, x)) := by
  intro entry he
  cases he
  exact h

theorem World.Named.openFor (h : world.Named)
    {loopVariable : Option (String × String)} (hl : NamedVariable loopVariable)
    (frame : FrameId) : (world.openFor frame loopVariable).Named := by
  have hopen := h.enter frame
  unfold World.openFor
  split
  · exact hopen
  · next name x => exact hopen.bind (hl (name, x) rfl) _ [x]

/-- What is under way binds proper names. -/
def Task.BindsProper : Task → Prop
  | .statement s => ∀ x ∈ s.nodes, x.BindsProper
  | .statements ss _ => ∀ x ∈ nodesOf ss, x.BindsProper
  | .framed loopVariable b =>
    NamedVariable loopVariable ∧ ∀ x ∈ b.nodes, x.BindsProper
  | .passes name _ body _ => IsName name ∧ ∀ x ∈ body.nodes, x.BindsProper
  | .passesWhile _ body _ _ => ∀ x ∈ body.nodes, x.BindsProper
  | .invoked _ rule _ => rule.BindsProper

/-- The invariant of the stages of a run. -/
structure Stage.Named (c : Stage) : Prop where
  task : c.task.BindsProper
  world : c.world.Named

theorem Task.exec_naming (settings : Settings) (site : Site) {t : Task}
    (h : t.BindsProper) : Naming (t.exec settings site) := by
  have hi : (site.invoke settings).Naming := invokeWithin_naming settings _
  have framed {loopVariable : Option (String × String)} {b : Block}
      (hl : NamedVariable loopVariable) (hb : ∀ x ∈ b.nodes, x.BindsProper) :
      Naming (execFramed settings site loopVariable b) := by
    refine .inSubscope fun inner => ?_
    split
    · exact execBlock_naming hi b hb
    · next name x =>
      exact .bind (.bindName (hl (name, x) rfl) ..) fun _ =>
        execBlock_naming hi b hb
  cases t with
  | statement s => exact Statement.exec_naming hi s h
  | statements ss last => exact execAll_naming hi ss last h
  | framed loopVariable b => exact framed h.1 h.2
  | passes name values body last =>
    exact .forEach (fun x => framed (namedVariable_some h.1 x) h.2) values last
  | passesWhile condition body further last =>
    exact .repeatWhile (.read ..) (framed namedVariable_none h) further last
  | invoked name rule arguments =>
    refine .bind (.bindArguments settings site.frame h.parameters arguments)
      fun _ => ?_
    refine .bind (execBlock_naming hi rule.body h.body) fun value => ?_
    exact .bind (.settle settings _ rule.body.span) fun _ => .pure value

/-- What is run leaves a world with the invariant, whether or not it has a
value. -/
theorem Stage.Named.run {c : Stage} (h : c.Named) {result : Except Halt Value}
    (hr : c.run settings = (result, after)) : after.Named :=
  (Task.exec_naming settings c.site h.task).kept_of_run hr h.world

/-- The invariant is kept from a stage to those that it calls. -/
theorem Calls.named {c c' : Stage} {places : List Span}
    (h : Calls settings c places c') (hn : c.Named) : c'.Named := by
  have read {γ : Type} {frame : FrameId}
      {reading : Environment → Reading γ} {world after : World} {a : γ}
      (hr : (Eval.read settings frame reading).runIn world = (.ok a, after))
      (hw : world.Named) : after.Named :=
    (Naming.read settings frame reading).kept_of_run hr hw
  obtain ⟨ht, hw⟩ := hn
  cases h with
  | block =>
    exact ⟨⟨namedVariable_none, fun x hx => ht x (by simp [nodes_block, hx])⟩,
      hw⟩
  | @yes condition yes no _ _ _ _ hr =>
    refine ⟨⟨namedVariable_none, fun x hx => ht x ?_⟩, read hr hw⟩
    cases no with
    | none => simp [nodes_choice, hx]
    | some no => simp [nodes_choice_else, hx]
  | no hr =>
    exact ⟨fun x hx => ht x (by simp [nodes_choice_else, hx]), read hr hw⟩
  | @forLoop i _ _ _ _ _ _ _ _ _ hr hr' =>
    have hproper : i.Proper .name := ht _ (Statement.mem_nodes _)
    refine ⟨⟨Gives.of_run hproper.isName hr, fun x hx => ht x ?_⟩,
      read hr' (read hr hw)⟩
    simp [nodes_forLoop, hx]
  | whileLoop => exact ⟨fun x hx => ht x (by simp [nodes_whileLoop, hx]), hw⟩
  | invocation hr hr' hrule _ =>
    have hafter := read hr' (read hr hw)
    exact ⟨(hafter.rules _ _ hrule).2, hafter.enter _⟩
  | head => exact ⟨fun x hx => ht x (by simp [nodesOf_cons, hx]), hw⟩
  | @tail s ss _ _ site world _ hrun _ =>
    have hfirst : Stage.Named ⟨.statement s, site, world⟩ :=
      ⟨fun x hx => ht x (by simp [nodesOf_cons, hx]), hw⟩
    exact ⟨fun x hx => ht x (by simp [nodesOf_cons, hx]), hfirst.run hrun⟩
  | framed => exact ⟨ht.2, hw.openFor ht.1 _⟩
  | pass => exact ⟨⟨namedVariable_some ht.1 _, ht.2⟩, hw⟩
  | @nextPass name x _ body _ _ site world _ _ hrun hl =>
    have hpass : Stage.Named ⟨.framed (some (name, x)) body, site, world⟩ :=
      ⟨⟨namedVariable_some ht.1 x, ht.2⟩, hw⟩
    exact ⟨ht, Naming.loopEnds.kept_of_run hl (hpass.run hrun)⟩
  | passWhile hr => exact ⟨⟨namedVariable_none, ht⟩, read hr hw⟩
  | @nextPassWhile _ body _ _ _ site _ middle _ _ hr hrun hl =>
    have hpass : Stage.Named ⟨.framed none body, site, middle⟩ :=
      ⟨⟨namedVariable_none, ht⟩, read hr hw⟩
    exact ⟨ht, Naming.loopEnds.kept_of_run hl (hpass.run hrun)⟩
  | @body _ _ _ _ _ _ arguments site _ _ hb =>
    have hbound :=
      Naming.bindArguments settings site.frame ht.parameters arguments
    exact ⟨ht.body, hbound.kept_of_run hb hw⟩

theorem Reaches.named {c c' : Stage} {places : List Span}
    (h : Reaches settings c places c') (hn : c.Named) : c'.Named := by
  induction h with
  | here => exact hn
  | call h _ ih => exact ih (h.named hn)

-- ============================================================ programs

/-- What was read from a text without local declarations binds proper names. -/
theorem Program.bindsProper {source text : String} {p : Program}
    (hp : Program.parse source text = .ok p)
    (hl : ∀ x ∈ p.nodes, x.isLocal = false) : ∀ x ∈ p.nodes, x.BindsProper :=
  fun x hx =>
    (Program.parse_nodes (fun _ => Statement.wellFormed) text p hp x
      hx).bindsProper (hl x hx)

theorem isName_targetsVariable : IsName targetsVariable := by decide

theorem Program.start_named {p : Program} (hp : ∀ x ∈ p.nodes, x.BindsProper)
    (h : world.Named) : (p.start settings world).Named where
  task := hp
  world :=
    have hbound := h.bind isName_targetsVariable Scopes.root settings.targets
    ⟨hbound.scopes, hbound.rules⟩

theorem Program.runIn_naming {p : Program} (hp : ∀ x ∈ p.nodes, x.BindsProper) :
    Naming (p.runIn settings) := by
  have hi : (Site.top.invoke settings).Naming := invokeWithin_naming settings _
  refine .bind (.bindName isName_targetsVariable ..) fun _ =>
    .bind (.raise .none) fun _ => ?_
  refine .bind (.bind (execAll_naming hi p.statements [] hp) fun value => ?_)
    fun value => ?_
  · exact .bind (.settle settings _ p.span) fun _ => .pure value
  · exact .get_bind fun world h => h

/-- No statement of the text is a local declaration, if it can be parsed at
all. -/
def SourceText.FreeOfLocals (source : SourceText) : Prop :=
  ∀ p, Program.parse source.name source.text = .ok p → ∀ x ∈ p.nodes,
    x.isLocal = false

theorem runText_naming (settings : Settings) {source : SourceText}
    (h : source.FreeOfLocals) :
    Naming (runText settings source.name source.text) := by
  unfold runText
  split
  · next p hp => exact Program.runIn_naming (Program.bindsProper hp (h p hp))
  · exact .throw _

-- ============================================================ sessions

namespace Session

variable {ρ : Type} [Reporter ρ]

/-- What a session holds, as the world that its next text is run in. -/
def held (s : Session ρ) : World := { scopes := s.scopes, rules := s.rules }

/-- The worlds that a session comes through while it runs texts: those between
the texts, and at the beginning and at the end of each stage of their runs. -/
inductive Meets : Session ρ → List SourceText → World → Prop
  | between {s : Session ρ} {sources : List SourceText} : Meets s sources s.held
  | begun {s : Session ρ} {source : SourceText} {sources : List SourceText}
      {p : Program} {places : List Span} {c : Stage} :
      Program.parse source.name source.text = .ok p →
      Reaches s.settings (p.start s.settings s.held) places c →
      Meets s (source :: sources) c.world
  | ended {s : Session ρ} {source : SourceText} {sources : List SourceText}
      {p : Program} {places : List Span} {c : Stage} :
      Program.parse source.name source.text = .ok p →
      Reaches s.settings (p.start s.settings s.held) places c →
      Meets s (source :: sources) (c.run s.settings).2
  | later {s : Session ρ} {source : SourceText} {sources : List SourceText}
      {world : World} :
      Meets (s.run source).2 sources world → Meets s (source :: sources) world

theorem run_held_named {s : Session ρ} {source : SourceText}
    (h : source.FreeOfLocals) (hs : s.held.Named) :
    (s.run source).2.held.Named := by
  have hn := (runText_naming s.settings h).kept s.held hs
  exact ⟨hn.scopes, hn.rules⟩

theorem Meets.named {s : Session ρ} {sources : List SourceText}
    (h : s.Meets sources world) (hl : ∀ source ∈ sources, source.FreeOfLocals)
    (hs : s.held.Named) : world.Named := by
  induction h with
  | between => exact hs
  | begun hp hreach =>
    have hproper := Program.bindsProper hp ((List.forall_mem_cons.mp hl).1 _ hp)
    exact (hreach.named (Program.start_named hproper hs)).world
  | ended hp hreach =>
    have hproper := Program.bindsProper hp ((List.forall_mem_cons.mp hl).1 _ hp)
    exact (hreach.named (Program.start_named hproper hs)).run rfl
  | later _ ih =>
    obtain ⟨hfirst, hrest⟩ := List.forall_mem_cons.mp hl
    exact ih hrest (run_held_named hfirst hs)

end Session

/-- A session that begins without variables and rules, and runs texts without
local declarations, comes only through worlds in which variables and rules have
names of the characters of identifiers. -/
theorem created_names_are_identifiers {ρ : Type} [Reporter ρ] (s : Session ρ)
    (sources : List SourceText) (hr : s.rules = .empty)
    (hs : ∀ frame name, ¬ s.scopes.Binds frame name)
    (hl : ∀ source ∈ sources, source.FreeOfLocals) (world : World)
    (h : s.Meets sources world) :
    (∀ name, (world.rules.find? name).isSome = true → IsName name) ∧
    ∀ frame name, (world.scopes.valueIn name frame).isSome = true →
      IsName name := by
  have hbegin : s.held.Named := by
    refine ⟨fun frame name hb => absurd hb (hs frame name),
      fun name rule hf => ?_⟩
    have hempty : s.held.rules = .empty := hr
    rw [hempty] at hf
    cases hf
  have hn := h.named hl hbegin
  refine ⟨fun name hname => ?_, fun frame name hb => hn.scopes frame name hb⟩
  obtain ⟨rule, hrule⟩ := Option.isSome_iff_exists.mp hname
  exact (hn.rules name rule hrule).1

/-- A text with names made of values: those of a rule, of its parameter and of a
variable. -/
def composingText : SourceText :=
  ⟨"t", "v = \"a/b\" ; rule $(v)r n$(v) { $(1)q += z ; } $(v)r \"k\\\\\" ;"⟩

theorem composingText_names :
    let s : Session Collector := { reporter := {} }
    (∀ frame name, ¬ s.scopes.Binds frame name) ∧ composingText.FreeOfLocals ∧
      ∃ world, s.Meets [composingText] world ∧
        ((world.rules.find? "a/br").isSome = true ∧ IsName "a/br") ∧
        (world.scopes.valueIn "k\\q" Scopes.root).isSome = true ∧
          IsName "k\\q" := by
  intro s
  have hs : ∀ frame name, ¬ s.scopes.Binds frame name := by
    intro frame name hb
    have hroot : frame = Scopes.root := Nat.lt_one_iff.mp hb.lt_depth
    subst hroot
    cases hb
  have hparse :
      ((Program.parse composingText.name composingText.text).toOption.elim true
        fun p => p.nodes.all (!·.isLocal)) = true := by decide +kernel
  have hl : composingText.FreeOfLocals := by
    intro p hp x hx
    rw [hp] at hparse
    simpa using List.all_eq_true.mp hparse x hx
  have hrun : ((s.run composingText).2.held.rules.find? "a/br").isSome = true ∧
      ((s.run composingText).2.held.scopes.valueIn "k\\q" Scopes.root).isSome =
      true := by
    decide +kernel
  have hmeets : s.Meets [composingText] (s.run composingText).2.held :=
    .later .between
  obtain ⟨hrules, hvariables⟩ :=
    created_names_are_identifiers s [composingText] rfl hs
    (List.forall_mem_singleton.mpr hl) _ hmeets
  exact ⟨hs, hl, _, hmeets, ⟨hrun.1, hrules _ hrun.1⟩, hrun.2,
    hvariables _ _ hrun.2⟩

end Jam
