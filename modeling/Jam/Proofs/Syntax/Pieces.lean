/-
The pieces of a program.

Whatever of the syntax remembers where it was read from is a `Piece`:
names, variables, words, lists, blocks, statements and the program itself.
Conditions do not, so the words and lists in a condition are pieces of the
statement that the condition belongs to. What is directly in a piece is
told once, in the order in which it is written (`Piece.children`); a
property of all pieces of a program is then told by what it says of one.

The variables that a piece refers to are those of its children, and its
own name if it is a variable without one in its name (`Piece.references_eq`).
-/
import Jam.Syntax.References

namespace Jam

/-- A piece of syntax with its place in the text. -/
inductive Piece
  | literal (l : Literal)
  | identifier (i : Identifier)
  | variable (v : Variable)
  | list (l : WordList)
  | block (b : Block)
  | statement (s : Statement)
  | program (p : Program)

-- ================================================== what is in a piece

def Part.variable? : Part → Option Variable
  | .text _ => none
  | .variable v => some v

/-- The variables in a name. -/
def variablesOf (parts : List Part) : List Variable :=
  parts.filterMap Part.variable?

def Word.piece : Word → Piece
  | .literal l => .literal l
  | .identifier i => .identifier i
  | .variable v => .variable v

mutual

/-- The words and lists in a condition. -/
def Condition.pieces : Condition → List Piece
  | .truth word => [word.piece]
  | .compare left _ right => [left.piece, right.piece]
  | .member element list => [element.piece, .list list]
  | .not condition => condition.pieces
  | .and terms | .or terms => conditionPieces terms
termination_by structural c => c

def conditionPieces : List Condition → List Piece
  | [] => []
  | c :: cs => c.pieces ++ conditionPieces cs
termination_by structural cs => cs

end

def Statement.pieces : Statement → List Piece
  | .invocation name arguments _ => .identifier name :: arguments.map .list
  | .assignment name _ value _ => [.identifier name, .list value]
  | .localBinding names value _ => .list names :: value.toList.map .list
  | .returnWith value _ => [.list value]
  | .breakLoop _ | .continueLoop _ => []
  | .block b => b.statements.map .statement
  | .choice condition yes no _ =>
    condition.pieces ++ .block yes :: no.toList.map .statement
  | .forLoop name values body _ => [.identifier name, .list values, .block body]
  | .whileLoop condition body _ => condition.pieces ++ [.block body]
  | .definition rule =>
    .identifier rule.name :: rule.parameters.map .identifier ++
      [.block rule.body]

namespace Piece

/-- The stretch of text a piece was read from. -/
def span : Piece → Span
  | .literal l => l.span
  | .identifier i => i.span
  | .variable v => v.span
  | .list l => l.span
  | .block b => b.span
  | .statement s => s.span
  | .program p => p.span

/-- What is directly in a piece, as it is written. -/
def children : Piece → List Piece
  | .literal _ => []
  | .identifier i => (variablesOf i.parts).map .variable
  | .variable v => .identifier v.name :: v.subscript.toList.map .identifier
  | .list l => l.items.map Word.piece
  | .block b => b.statements.map .statement
  | .statement s => s.pieces
  | .program p => p.statements.map .statement

-- ========================================================== references

/-- The variable that a piece refers to itself. -/
def own : Piece → List String
  | .variable v => if v.name.isLiteral then [v.name.display] else []
  | .literal _ | .identifier _ | .list _ | .block _ | .statement _
    | .program _ =>
    []

/-- The variables that a piece refers to, with those in it. -/
def references : Piece → List String
  | .literal _ => []
  | .identifier i => i.references
  | .variable v => v.references
  | .list l => l.references
  | .block b => blockReferences b
  | .statement s => s.references
  | .program p => p.references

end Piece

theorem partReferences_eq (parts : List Part) :
    partReferences parts = (variablesOf parts).flatMap Variable.references := by
  induction parts with
  | nil => rfl
  | cons part parts ih =>
    cases part with
    | text => exact ih
    | «variable» v => exact congrArg (v.references ++ ·) ih

theorem references_piece (w : Word) : w.piece.references = w.references := by
  cases w <;> rfl

attribute [local simp] Piece.references Condition.references conditionReferences
  Condition.pieces conditionPieces Word.references Word.piece
  Statement.references Statement.pieces

mutual

theorem references_condition : ∀ c : Condition,
    c.references = c.pieces.flatMap Piece.references
  | .truth word => by cases word <;> simp
  | .compare left _ right => by cases left <;> cases right <;> simp
  | .member element list => by cases element <;> simp
  | .not condition => references_condition condition
  | .and terms => references_conditions terms
  | .or terms => references_conditions terms
termination_by structural c => c

theorem references_conditions : ∀ cs : List Condition,
    conditionReferences cs = (conditionPieces cs).flatMap Piece.references
  | [] => rfl
  | c :: cs => by simp [references_condition c, references_conditions cs]
termination_by structural cs => cs

end

theorem statementReferences_eq (ss : List Statement) :
    statementReferences ss = ss.flatMap Statement.references := by
  induction ss with
  | nil => rfl
  | cons s ss ih => simp [statementReferences, ih]

theorem references_block (b : Block) :
    blockReferences b =
      (b.statements.map Piece.statement).flatMap Piece.references := by
  cases b with
  | mk statements span =>
    show statementReferences statements = _
    simp [statementReferences_eq, List.flatMap_map]

/-- The references of a statement are those of what is in it. -/
theorem references_statement (s : Statement) :
    s.references = s.pieces.flatMap Piece.references := by
  cases s with
  | invocation name arguments => simp [List.flatMap_map]
  | assignment name op value => simp
  | localBinding names value => simp [List.flatMap_map]
  | returnWith value => simp
  | breakLoop => rfl
  | continueLoop => rfl
  | block b => exact references_block b
  | choice condition yes no =>
    cases no with
    | none => simp [references_condition]
    | some no => simp [references_condition]
  | forLoop name values body => simp
  | whileLoop condition body => simp [references_condition]
  | definition rule =>
    obtain ⟨name, parameters, body, span⟩ := rule
    simp [List.flatMap_map]

/-- The references of a piece are its own and those of what is in it. -/
theorem Piece.references_eq (x : Piece) :
    x.references = x.own ++ x.children.flatMap Piece.references := by
  cases x with
  | literal l => rfl
  | identifier i =>
    obtain ⟨parts, span⟩ := i
    show partReferences parts = _
    simp [partReferences_eq, own, children, List.flatMap_map]
  | «variable» v =>
    obtain ⟨name, subscript, span⟩ := v
    cases subscript with
    | none => simp [Variable.references, own, children]
    | some subscript => simp [Variable.references, own, children]
  | list l =>
    show l.items.flatMap Word.references =
      (l.items.map Word.piece).flatMap Piece.references
    rw [List.flatMap_map, funext references_piece]
  | block b => exact references_block b
  | statement s => exact references_statement s
  | program p =>
    simp [Program.references, statementReferences_eq, own, children,
      List.flatMap_map]

end Jam
