/-
The variables that a program refers to.

A reference counts when its name is known without running the program,
that is, when the name has no variable in it. References are listed in
the order in which they begin in the text, as often as they occur; one
inside the name or the subscript of another comes after it.
-/
import Jam.Syntax.Display

namespace Jam

-- ===================================================== names and words

/-- Whether a part of a name is text. -/
def Part.isText : Part → Bool
  | .text _ => true
  | .variable _ => false

/-- Whether a name has no variable in it. -/
def Identifier.isLiteral (i : Identifier) : Bool := i.parts.all Part.isText

mutual

def Identifier.references : Identifier → List String
  | ⟨parts, _⟩ => partReferences parts
termination_by structural i => i

def partReferences : List Part → List String
  | [] => []
  | .text _ :: parts => partReferences parts
  | .variable v :: parts => v.references ++ partReferences parts
termination_by structural parts => parts

/-- The references in a variable, itself included. -/
def Variable.references : Variable → List String
  | ⟨name, none, _⟩ =>
    (if name.isLiteral then [name.display] else []) ++ name.references
  | ⟨name, some subscript, _⟩ =>
    (if name.isLiteral then [name.display] else []) ++ name.references
      ++ subscript.references
termination_by structural v => v

end

def Word.references : Word → List String
  | .literal _ => []
  | .identifier i => i.references
  | .variable v => v.references

def WordList.references (l : WordList) : List String :=
  l.items.flatMap Word.references

mutual

def Condition.references : Condition → List String
  | .truth word => word.references
  | .compare left _ right => left.references ++ right.references
  | .member element list => element.references ++ list.references
  | .not condition => condition.references
  | .and terms => conditionReferences terms
  | .or terms => conditionReferences terms

def conditionReferences : List Condition → List String
  | [] => []
  | c :: cs => c.references ++ conditionReferences cs

end

-- ========================================================== statements

mutual

def Statement.references : Statement → List String
  | .invocation name arguments _ =>
    name.references ++ arguments.flatMap WordList.references
  | .assignment name _ value _ => name.references ++ value.references
  | .localBinding names value _ =>
    names.references ++ value.toList.flatMap WordList.references
  | .returnWith value _ => value.references
  | .breakLoop _ | .continueLoop _ => []
  | .block b => blockReferences b
  | .choice condition yes none _ => condition.references ++ blockReferences yes
  | .choice condition yes (some no) _ =>
    condition.references ++ blockReferences yes ++ no.references
  | .forLoop name values body _ =>
    name.references ++ values.references ++ blockReferences body
  | .whileLoop condition body _ => condition.references ++ blockReferences body
  | .definition ⟨name, parameters, body, _⟩ =>
    name.references ++ parameters.flatMap Identifier.references ++
      blockReferences body
termination_by structural s => s

def blockReferences : Block → List String
  | ⟨statements, _⟩ => statementReferences statements
termination_by structural b => b

def statementReferences : List Statement → List String
  | [] => []
  | s :: ss => s.references ++ statementReferences ss
termination_by structural ss => ss

end

def Program.references (p : Program) : List String :=
  statementReferences p.statements

end Jam
