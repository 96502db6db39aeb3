/-
Syntax with other spans.

Everything in syntax remembers the stretch of the text that it was read
from. `mapSpans f` is the same syntax with these spans changed by `f`. To
forget the places of syntax is such a change, in two strengths: what is
`unplaced` still knows its source but has all its points at the origin, and
what is `unspanned` knows neither.
-/
import Mathlib.Logic.Basic
import Jam.Syntax.OfTree

namespace Jam

/-- A span with its points changed. -/
def Span.mapPoints (f : Point → Point) (s : Span) : Span :=
  ⟨s.source, f s.first, f s.last⟩

/-- No stretch of any text. -/
def Span.nowhere : Span := ⟨"", .origin, .origin⟩

variable (f : Span → Span)

-- ======================================================= changed spans

mutual

/-- An identifier with its spans changed. -/
def Identifier.mapSpans : Identifier → Identifier
  | ⟨parts, span⟩ => ⟨Part.mapAll parts, f span⟩
termination_by structural i => i

def Part.mapSpans : Part → Part
  | .text t => .text t
  | .variable v => .variable v.mapSpans
termination_by structural p => p

def Variable.mapSpans : Variable → Variable
  | ⟨name, none, span⟩ => ⟨name.mapSpans, none, f span⟩
  | ⟨name, some s, span⟩ => ⟨name.mapSpans, some s.mapSpans, f span⟩
termination_by structural v => v

def Part.mapAll : List Part → List Part
  | [] => []
  | p :: ps => p.mapSpans :: Part.mapAll ps
termination_by structural ps => ps

end

def Literal.mapSpans (l : Literal) : Literal := ⟨l.text, f l.span⟩

def Word.mapSpans : Word → Word
  | .literal l => .literal (l.mapSpans f)
  | .identifier i => .identifier (i.mapSpans f)
  | .variable v => .variable (v.mapSpans f)

def WordList.mapSpans (l : WordList) : WordList :=
  ⟨l.items.map (Word.mapSpans f), f l.span⟩

mutual

/-- A condition with its spans changed. -/
def Condition.mapSpans : Condition → Condition
  | .truth word => .truth (word.mapSpans f)
  | .compare left op right => .compare (left.mapSpans f) op (right.mapSpans f)
  | .member element list => .member (element.mapSpans f) (list.mapSpans f)
  | .not condition => .not condition.mapSpans
  | .and terms => .and (Condition.mapAll terms)
  | .or terms => .or (Condition.mapAll terms)
termination_by structural c => c

def Condition.mapAll : List Condition → List Condition
  | [] => []
  | c :: cs => c.mapSpans :: Condition.mapAll cs
termination_by structural cs => cs

end

mutual

def Block.mapSpans : Block → Block
  | ⟨statements, span⟩ => ⟨Statement.mapAll statements, f span⟩
termination_by structural b => b

/-- A statement with its spans changed, and those of the statements inside. -/
def Statement.mapSpans : Statement → Statement
  | .invocation name arguments span =>
    .invocation (name.mapSpans f) (arguments.map (WordList.mapSpans f)) (f span)
  | .assignment name op value span =>
    .assignment (name.mapSpans f) op (value.mapSpans f) (f span)
  | .localBinding names value span =>
    .localBinding (names.mapSpans f) (value.map (WordList.mapSpans f)) (f span)
  | .returnWith value span => .returnWith (value.mapSpans f) (f span)
  | .breakLoop span => .breakLoop (f span)
  | .continueLoop span => .continueLoop (f span)
  | .block b => .block b.mapSpans
  | .choice condition yes none span =>
    .choice (condition.mapSpans f) yes.mapSpans none (f span)
  | .choice condition yes (some no) span =>
    .choice (condition.mapSpans f) yes.mapSpans (some no.mapSpans) (f span)
  | .forLoop name values body span =>
    .forLoop (name.mapSpans f) (values.mapSpans f) body.mapSpans (f span)
  | .whileLoop condition body span =>
    .whileLoop (condition.mapSpans f) body.mapSpans (f span)
  | .definition rule => .definition rule.mapSpans
termination_by structural s => s

def RuleDefinition.mapSpans : RuleDefinition → RuleDefinition
  | ⟨name, parameters, body, span⟩ =>
    ⟨name.mapSpans f, parameters.map (Identifier.mapSpans f),
      body.mapSpans, f span⟩
termination_by structural r => r

def Statement.mapAll : List Statement → List Statement
  | [] => []
  | s :: ss => s.mapSpans :: Statement.mapAll ss
termination_by structural ss => ss

end

/-- A program with its spans changed. -/
def Program.mapSpans (p : Program) : Program :=
  ⟨p.statements.map (Statement.mapSpans f), f p.span⟩

theorem Condition.mapAll_eq (cs : List Condition) :
    Condition.mapAll f cs = cs.map (Condition.mapSpans f) := by
  induction cs with
  | nil => rfl
  | cons c cs ih => rw [Condition.mapAll, ih, List.map_cons]

theorem Statement.mapAll_eq (ss : List Statement) :
    Statement.mapAll f ss = ss.map (Statement.mapSpans f) := by
  induction ss with
  | nil => rfl
  | cons s ss ih => rw [Statement.mapAll, ih, List.map_cons]

-- ========================================== spans that are not changed

mutual

/-- Spans that are not changed. -/
theorem Identifier.mapSpans_id : ∀ i : Identifier, i.mapSpans id = i
  | ⟨parts, _⟩ => congrArg (Identifier.mk · _) (Part.mapAll_id parts)
termination_by structural i => i

theorem Part.mapSpans_id : ∀ p : Part, p.mapSpans id = p
  | .text _ => rfl
  | .variable v => congrArg Part.variable v.mapSpans_id
termination_by structural p => p

theorem Variable.mapSpans_id : ∀ v : Variable, v.mapSpans id = v
  | ⟨name, none, _⟩ => congrArg (Variable.mk · none _) name.mapSpans_id
  | ⟨name, some s, _⟩ => by
    rw [Variable.mapSpans, name.mapSpans_id, s.mapSpans_id]
    rfl
termination_by structural v => v

theorem Part.mapAll_id : ∀ ps : List Part, Part.mapAll id ps = ps
  | [] => rfl
  | p :: ps => congrArg₂ List.cons p.mapSpans_id (Part.mapAll_id ps)
termination_by structural ps => ps

end

theorem Word.mapSpans_id (w : Word) : w.mapSpans id = w := by
  cases w with
  | literal => rfl
  | identifier i => exact congrArg Word.identifier i.mapSpans_id
  | «variable» v => exact congrArg Word.variable v.mapSpans_id

theorem WordList.mapSpans_id (l : WordList) : l.mapSpans id = l := by
  have hitems : l.items.map (Word.mapSpans id) = l.items :=
    List.map_id'' Word.mapSpans_id l.items
  rw [WordList.mapSpans, hitems]
  rfl

mutual

theorem Condition.mapSpans_id : ∀ c : Condition, c.mapSpans id = c
  | .truth w => congrArg Condition.truth w.mapSpans_id
  | .compare l op r =>
    congrArg₂ (Condition.compare · op ·) l.mapSpans_id r.mapSpans_id
  | .member w l => congrArg₂ Condition.member w.mapSpans_id l.mapSpans_id
  | .not c => congrArg Condition.not c.mapSpans_id
  | .and cs => congrArg Condition.and (Condition.mapAll_id cs)
  | .or cs => congrArg Condition.or (Condition.mapAll_id cs)
termination_by structural c => c

theorem Condition.mapAll_id : ∀ cs : List Condition, Condition.mapAll id cs = cs
  | [] => rfl
  | c :: cs => congrArg₂ List.cons c.mapSpans_id (Condition.mapAll_id cs)
termination_by structural cs => cs

end

mutual

theorem Block.mapSpans_id : ∀ b : Block, b.mapSpans id = b
  | ⟨statements, _⟩ => congrArg (Block.mk · _) (Statement.mapAll_id statements)
termination_by structural b => b

theorem Statement.mapSpans_id : ∀ s : Statement, s.mapSpans id = s
  | .invocation name arguments span => by
    rw [Statement.mapSpans, name.mapSpans_id,
      List.map_id'' WordList.mapSpans_id arguments]
    rfl
  | .assignment name op value span => by
    rw [Statement.mapSpans, name.mapSpans_id, value.mapSpans_id]
    rfl
  | .localBinding names value span => by
    rw [Statement.mapSpans, names.mapSpans_id]
    cases value with
    | none => rfl
    | some value =>
      exact congrArg (fun v => Statement.localBinding names (some v) span)
        value.mapSpans_id
  | .returnWith value span =>
    congrArg (Statement.returnWith · span) value.mapSpans_id
  | .breakLoop _ => rfl
  | .continueLoop _ => rfl
  | .block b => congrArg Statement.block b.mapSpans_id
  | .choice condition yes none span => by
    rw [Statement.mapSpans, condition.mapSpans_id, yes.mapSpans_id]
    rfl
  | .choice condition yes (some no) span => by
    rw [Statement.mapSpans, condition.mapSpans_id, yes.mapSpans_id,
      no.mapSpans_id]
    rfl
  | .forLoop name values body span => by
    rw [Statement.mapSpans, name.mapSpans_id, values.mapSpans_id,
      body.mapSpans_id]
    rfl
  | .whileLoop condition body span => by
    rw [Statement.mapSpans, condition.mapSpans_id, body.mapSpans_id]
    rfl
  | .definition rule => congrArg Statement.definition rule.mapSpans_id
termination_by structural s => s

theorem RuleDefinition.mapSpans_id : ∀ r : RuleDefinition, r.mapSpans id = r
  | ⟨name, parameters, body, span⟩ => by
    rw [RuleDefinition.mapSpans, name.mapSpans_id, body.mapSpans_id,
      List.map_id'' Identifier.mapSpans_id parameters]
    rfl
termination_by structural r => r

theorem Statement.mapAll_id : ∀ ss : List Statement, Statement.mapAll id ss = ss
  | [] => rfl
  | s :: ss => congrArg₂ List.cons s.mapSpans_id (Statement.mapAll_id ss)
termination_by structural ss => ss

end

-- ================================================= readings of the map

/-- Gluing does not look at spans. -/
theorem Part.mapAll_glue (p : Part) (ps : List Part) :
    Part.mapAll f (p.glue ps) = (p.mapSpans f).glue (Part.mapAll f ps) := by
  cases p with
  | «variable» => rfl
  | text =>
    cases ps with
    | nil => rfl
    | cons q ps => cases q <;> rfl

/-- Nor does joining conditions. -/
theorem Condition.mapSpans_joined {join : List Condition → Condition}
    (h : ∀ cs, (join cs).mapSpans f = join (cs.map (Condition.mapSpans f)))
    (cs : List Condition) :
    (Condition.joined join cs).mapSpans f =
      Condition.joined join (cs.map (Condition.mapSpans f)) := by
  cases cs with
  | nil => exact h []
  | cons c cs =>
    cases cs with
    | nil => rfl
    | cons d ds => exact h _

-- =========================================== syntax without its places

/-- A program without its points. -/
def Program.unplaced (p : Program) : Program :=
  p.mapSpans (Span.mapPoints fun _ => .origin)

/-- An identifier without its points. -/
def Identifier.unplaced (i : Identifier) : Identifier :=
  i.mapSpans (Span.mapPoints fun _ => .origin)

/-- A variable without its points. -/
def Variable.unplaced (v : Variable) : Variable :=
  v.mapSpans (Span.mapPoints fun _ => .origin)

/-- A statement with its points changed, and those of the statements inside. -/
def Statement.mapPoints (f : Point → Point) (s : Statement) : Statement :=
  s.mapSpans (Span.mapPoints f)

theorem Statement.mapPoints_id (s : Statement) : s.mapPoints id = s :=
  s.mapSpans_id

/-- A word without the places where it was read. -/
def Word.unspanned (w : Word) : Word := w.mapSpans fun _ => .nowhere

/-- A condition without the places where it was read. -/
def Condition.unspanned (c : Condition) : Condition :=
  c.mapSpans fun _ => .nowhere

end Jam
