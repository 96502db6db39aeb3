/-
The syntax of Jam programs.

Names are assembled when they are needed: an `Identifier` is a run of
literal text and variables, a `Variable` has an identifier for its name
and may have another one for its subscript, so the three types are one
family. Words are what lists are made of; conditions are built over words
and lists; statements over all of these.

Every node knows the stretch of source text it was read from. A list that
was left out has the empty stretch where it would have ended.
-/
import Jam.Text.Point

namespace Jam

-- =============================================================== names

mutual

/-- A name, some of whose parts may be values of variables. -/
structure Identifier where
  parts : List Part
  span : Span

/-- A part of a name. -/
inductive Part
  | text (text : String)
  | variable (v : Variable)

/-- A reference to a variable, or to the elements a subscript selects. -/
structure Variable where
  name : Identifier
  subscript : Option Identifier
  span : Span

end

deriving instance Repr for Identifier, Part, Variable

-- ===================================================== words and lists

/-- A word that stands for itself; escape sequences are resolved. -/
structure Literal where
  text : String
  span : Span
deriving DecidableEq, Repr

/-- A word of a list. -/
inductive Word
  | literal (l : Literal)
  | identifier (i : Identifier)
  | variable (v : Variable)
deriving Repr

/-- Words with blanks between them. -/
structure WordList where
  items : List Word
  span : Span
deriving Repr

-- ========================================================== conditions

/-- How two lists are compared. -/
inductive CompareOp
  | eq
  | ne
  | lt
  | gt
  | le
  | ge
deriving DecidableEq, Repr

/-- What an if or a while depends on. -/
inductive Condition
  /-- Some element of the word is not empty. -/
  | truth (word : Word)
  | compare (left : Word) (op : CompareOp) (right : Word)
  /-- All elements of the word are elements of the list. -/
  | member (element : Word) (list : WordList)
  | not (condition : Condition)
  | and (terms : List Condition)
  | or (terms : List Condition)
deriving Repr

-- ========================================================== statements

/-- What an assignment does with the value a variable has already. -/
inductive AssignOp
  /-- Replace it. -/
  | set
  /-- Append to it. -/
  | append
  /-- Keep it, if there is one. -/
  | keep
deriving DecidableEq, Repr

mutual

/-- Statements in braces. -/
structure Block where
  statements : List Statement
  span : Span

/-- A step of a program. -/
inductive Statement
  /-- A rule is invoked with groups of arguments. -/
  | invocation (name : Identifier) (arguments : List WordList) (span : Span)
  | assignment (name : Identifier) (op : AssignOp) (value : WordList)
      (span : Span)
  /-- Variables are declared in the innermost frame. -/
  | localBinding (names : WordList) (value : Option WordList) (span : Span)
  | returnWith (value : WordList) (span : Span)
  | breakLoop (span : Span)
  | continueLoop (span : Span)
  | block (b : Block)
  /-- The other branch is a block, or again a choice. -/
  | choice (condition : Condition) (yes : Block) (no : Option Statement)
      (span : Span)
  | forLoop (name : Identifier) (values : WordList) (body : Block) (span : Span)
  | whileLoop (condition : Condition) (body : Block) (span : Span)
  | definition (rule : RuleDefinition)

/-- The definition of a rule. -/
structure RuleDefinition where
  name : Identifier
  parameters : List Identifier
  body : Block
  span : Span

end

deriving instance Repr for Block, Statement, RuleDefinition

/-- The stretch of text a statement was read from. -/
def Statement.span : Statement → Span
  | .invocation _ _ span | .assignment _ _ _ span | .localBinding _ _ span
  | .returnWith _ span | .breakLoop span | .continueLoop span
  | .choice _ _ _ span | .forLoop _ _ _ span | .whileLoop _ _ span => span
  | .block b => b.span
  | .definition rule => rule.span

-- ========================================================= whole texts

/-- The statements of one source text. -/
structure Program where
  statements : List Statement
  span : Span
deriving Repr

/-- What a text that is less than a program can be. -/
inductive Phrase
  | literal (l : Literal)
  | identifier (i : Identifier)
  | variable (v : Variable)
  | list (l : WordList)
  | statement (s : Statement)
deriving Repr

/-- The stretch of text a phrase was read from. -/
def Phrase.span : Phrase → Span
  | .literal l => l.span
  | .identifier i => i.span
  | .variable v => v.span
  | .list l => l.span
  | .statement s => s.span

end Jam
