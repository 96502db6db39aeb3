/-
The outline of a program, for reading.

Every statement, list, word and condition has a line of its own. What a
node is called comes first, then what can be said in one line: the name
of a rule or variable, a mark, a literal in quotes. The branches of a
choice and the body of a loop stand under a label.
-/
import Jam.Syntax.Display
import Jam.Text.Outline
import Jam.Text.Quoted

namespace Jam

open Outline (node leaf)

-- ================================================ words and conditions

def Literal.outline (l : Literal) : Outline :=
  leaf s!"Literal {quoteString l.text}"

def Identifier.outline (i : Identifier) : Outline :=
  leaf s!"Identifier {i.display}"

def Variable.outline (v : Variable) : Outline := leaf s!"Variable {v.display}"

def Word.outline : Word → Outline
  | .literal l => l.outline
  | .identifier i => i.outline
  | .variable v => v.outline

/-- The outline of a list: its words. -/
def WordList.outline (l : WordList) : Outline :=
  node "List" (l.items.map Word.outline)

mutual

def Condition.outline : Condition → Outline
  | .truth word => node "Truth" [word.outline]
  | .compare left op right =>
    node s!"Compare {op.mark}" [left.outline, right.outline]
  | .member element list => node "In" [element.outline, list.outline]
  | .not condition => node "Not" [condition.outline]
  | .and terms => node "And" (conditionOutlines terms)
  | .or terms => node "Or" (conditionOutlines terms)

def conditionOutlines : List Condition → List Outline
  | [] => []
  | c :: cs => c.outline :: conditionOutlines cs

end

-- ========================================================== statements

/-- The header of a rule: its name and its parameters. -/
def ruleHeader (name : Identifier) (parameters : List Identifier) : String :=
  s!"Rule {name.display} (" ++
    " : ".intercalate (parameters.map Identifier.display) ++ ")"

mutual

def Statement.outline : Statement → Outline
  | .invocation name arguments _ =>
    node s!"Invocation {name.display}" (arguments.map WordList.outline)
  | .assignment name op value _ =>
    node s!"Assignment {name.display} {op.mark}" [value.outline]
  | .localBinding names value _ =>
    node "Local" (names.outline :: value.toList.map WordList.outline)
  | .returnWith value _ => node "Return" [value.outline]
  | .breakLoop _ => leaf "Break"
  | .continueLoop _ => leaf "Continue"
  | .block b => node "Block" (blockOutlines b)
  | .choice condition yes none _ =>
    node "If" [condition.outline, node "Then" (blockOutlines yes)]
  | .choice condition yes (some no) _ =>
    node "If" [condition.outline, node "Then" (blockOutlines yes),
      node "Else" [no.outline]]
  | .forLoop name values body _ =>
    node s!"For {name.display}"
      [values.outline, node "Body" (blockOutlines body)]
  | .whileLoop condition body _ =>
    node "While" [condition.outline, node "Body" (blockOutlines body)]
  | .definition ⟨name, parameters, body, _⟩ =>
    node (ruleHeader name parameters) (blockOutlines body)
termination_by structural s => s

def blockOutlines : Block → List Outline
  | ⟨statements, _⟩ => statementOutlines statements
termination_by structural b => b

def statementOutlines : List Statement → List Outline
  | [] => []
  | s :: ss => s.outline :: statementOutlines ss
termination_by structural ss => ss

end

-- ========================================================= whole texts

def Program.outline (p : Program) : Outline :=
  node "Program" (statementOutlines p.statements)

def Phrase.outline : Phrase → Outline
  | .literal l => l.outline
  | .identifier i => i.outline
  | .variable v => v.outline
  | .list l => l.outline
  | .statement s => s.outline

/-- A program as text, one node a line. -/
def Program.dump (p : Program) : String := p.outline.render

/-- A phrase as text, one node a line. -/
def Phrase.dump (p : Phrase) : String := p.outline.render

end Jam
