/-
From parse trees to syntax.

Each kind of node has one reading: `Identifier.ofTree`, `Word.ofTree`,
`Condition.ofTree` and so on take a node of the parse tree apart and give
the syntax it stands for. On the way

- literal parts of a name that stand side by side become one part;
- escape sequences are resolved;
- a connective with a single operand disappears;
- a list that was left out becomes an empty one.

A reading refuses a node that the grammar does not put in its place. Such
an error is never the fault of a program: it would mean that grammar and
readings disagree.
-/
import Jam.Grammar.Productions
import Jam.Peg.Tree
import Jam.Syntax.Display
import Jam.Text.Escape
import Jam.Diagnostic

namespace Jam

/-- A node of the parse tree of a Jam text. -/
abbrev Node := Tree Nonterminal

variable (source : String)

-- ============================================================= misfits

/-- The error of a node that cannot stand where it does. -/
def misplaced (context : String) (t : Node) : Error :=
  .found (.internal
    (s!"unexpected {t.kind.spelling} node '{String.ofList t.text}'" ++
      s!" while building {context}")) (t.span source)

/-- The error of a node that lacks something. -/
def incomplete (context what : String) (span : Span) : Error :=
  .found (.internal s!"{context} is missing its {what}") span

/-- The error of a node that should have `wanted` below it but has fewer or
more nodes. -/
def misfit (context : String) (wanted : List String) (children : List Node)
    (span : Span) : Error :=
  match children.drop wanted.length, wanted.drop children.length with
  | extra :: _, _ => misplaced source context extra
  | [], what :: _ => incomplete context what span
  | [], [] => incomplete context "parts" span

/-- Refuse a node that is not of the kind that belongs here. -/
def require (context : String) (kind : Nonterminal) (t : Node) :
    Except Error Unit :=
  if t.kind = kind then return else throw (misplaced source context t)

-- =============================================================== names

/-- Put a part before others; text joins with text. -/
def Part.glue : Part → List Part → List Part
  | .text a, .text b :: parts => .text (a ++ b) :: parts
  | p, parts => p :: parts

/-- What a node of parts is, if it is one. -/
def partsContext? : Nonterminal → Option String
  | .name => some "an identifier"
  | .subscriptText => some "a subscript"
  | .joined => some "a word"
  | _ => none

mutual

/-- A name, the text of a subscript, or a word with variables in it. -/
def Identifier.ofTree : Node → Except Error Identifier
  | .node kind first last children =>
    match partsContext? kind with
    | none =>
      throw (misplaced source "an identifier" (.node kind first last children))
    | some context => do
      let span := ⟨source, first.point, last.point⟩
      match ← partsOfTrees context children with
      | [] => throw (incomplete context "parts" span)
      | parts => return ⟨parts, span⟩
termination_by structural t => t

/-- The parts of a name. -/
def partsOfTrees (context : String) : List Node → Except Error (List Part)
  | [] => return []
  | t :: ts => do
    let part ← match t.kind with
      | .identifier | .number | .rangeDash =>
        pure (Part.text (String.ofList t.text))
      | .fragment =>
        match unescape t.text with
        | some text => pure (Part.text (String.ofList text))
        | none => throw (misplaced source context t)
      | .variable => Part.variable <$> Variable.ofTree t
      | _ => throw (misplaced source context t)
    return part.glue (← partsOfTrees context ts)
termination_by structural ts => ts

/-- A variable, with or without a subscript. -/
def Variable.ofTree : Node → Except Error Variable
  | .node kind first last children => do
    require source "a variable" .variable (.node kind first last children)
    let span := ⟨source, first.point, last.point⟩
    match children with
    | [name] =>
      require source "a variable" .name name
      return ⟨← Identifier.ofTree name, none, span⟩
    | [name, .node kind' first' last' children'] =>
      require source "a variable" .name name
      let name ← Identifier.ofTree name
      require source "a variable" .subscript
        (.node kind' first' last' children')
      match children' with
      | [text] =>
        require source "a subscript" .subscriptText text
        return ⟨name, some (← Identifier.ofTree text), span⟩
      | _ =>
        throw (misfit source "a subscript" ["subscript_text"] children'
          ⟨source, first'.point, last'.point⟩)
    | _ =>
      if children.isEmpty then throw (incomplete "a variable" "name" span)
      else
        throw (misfit source "a variable" ["name", "subscript"] children span)
termination_by structural t => t

end

-- ===================================================== words and lists

/-- A string, quoted or not. -/
def Literal.ofTree (t : Node) : Except Error Literal := do
  require source "a string" .string t
  match t.children with
  | [raw] =>
    if raw.kind = .quoted ∨ raw.kind = .unquoted then
      match unescape raw.text with
      | some text => return ⟨String.ofList text, t.span source⟩
      | none => throw (misplaced source "a string" raw)
    else throw (misplaced source "a string" raw)
  | children =>
    throw (misfit source "a string" ["text"] children (t.span source))

/-- A word of a list. -/
def Word.ofTree (t : Node) : Except Error Word :=
  match t.kind with
  | .variable => .variable <$> Variable.ofTree source t
  | .name | .joined => .identifier <$> Identifier.ofTree source t
  | .string => .literal <$> Literal.ofTree source t
  | _ => throw (misplaced source "a word" t)

/-- A list of words. -/
def WordList.ofTree (t : Node) : Except Error WordList := do
  require source "a list" .list t
  return ⟨← t.children.mapM (Word.ofTree source), t.span source⟩

/-- A list, or nothing: then it is empty, and its place is `absent`. -/
def WordList.ofTrees (context : String) (absent span : Span)
    (children : List Node) : Except Error WordList :=
  match children with
  | [] => return ⟨[], absent⟩
  | [t] => do
    require source context .list t
    WordList.ofTree source t
  | children => throw (misfit source context ["list"] children span)

-- ========================================================== conditions

/-- The comparison with a mark. -/
def CompareOp.ofMark? (mark : String) : Option CompareOp :=
  [eq, ne, lt, gt, le, ge].find? (·.mark == mark)

/-- Conditions joined by a connective; a single one needs none. -/
def Condition.joined (join : List Condition → Condition) :
    List Condition → Condition
  | [term] => term
  | terms => join terms

mutual

/-- A condition of any kind. -/
def Condition.ofTree : Node → Except Error Condition
  | .node kind first last children => do
    let span := ⟨source, first.point, last.point⟩
    match kind with
    | .disjunction => return Condition.joined .or (← conditionsOfTrees children)
    | .conjunction =>
      return Condition.joined .and (← conditionsOfTrees children)
    | .negated =>
      match children with
      | [inner] => return .not (← Condition.ofTree inner)
      | _ => throw (misfit source "a negation" ["operand"] children span)
    | .truth =>
      match children with
      | [word] => return .truth (← Word.ofTree source word)
      | _ => throw (misfit source "a condition" ["word"] children span)
    | .comparison =>
      match children with
      | [left, mark, right] =>
        let left ← Word.ofTree source left
        require source "a comparison" .compareOp mark
        match CompareOp.ofMark? (String.ofList mark.text) with
        | some op => return .compare left op (← Word.ofTree source right)
        | none => throw (misplaced source "a comparison" mark)
      | _ =>
        throw (misfit source "a comparison"
          ["left operand", "compare_op", "right operand"] children span)
    | .membership =>
      match children with
      | [element, list] =>
        let element ← Word.ofTree source element
        require source "a membership test" .list list
        return .member element (← WordList.ofTree source list)
      | _ =>
        throw
          (misfit source "a membership test" ["element", "list"] children span)
    | _ =>
      throw (misplaced source "a condition" (.node kind first last children))
termination_by structural t => t

/-- Conditions side by side. -/
def conditionsOfTrees : List Node → Except Error (List Condition)
  | [] => return []
  | t :: ts => return (← Condition.ofTree t) :: (← conditionsOfTrees ts)
termination_by structural ts => ts

end

-- ========================================================== statements

/-- The assignment with a mark. -/
def AssignOp.ofMark? (mark : String) : Option AssignOp :=
  [set, append, keep].find? (·.mark == mark)

/-- One group of arguments; an empty one stands where it was looked for. -/
def argumentOfTree (t : Node) : Except Error WordList := do
  require source "a rule invocation" .argument t
  WordList.ofTrees source "an argument" (t.span source)
    (t.span source) t.children

/-- The names of parameters. -/
def parametersOfTree (t : Node) : Except Error (List Identifier) := do
  require source "a rule definition" .parameters t
  t.children.mapM fun name => do
    require source "a parameter list" .name name
    Identifier.ofTree source name

/-- A name that begins a node. -/
def nameOfTree (context : String) (t : Node) : Except Error Identifier := do
  require source context .name t
  Identifier.ofTree source t

/-- The statements that have no statements in them. -/
def simpleOfTree (t : Node) : Except Error Statement := do
  let span := t.span source
  let absent := Span.ofPoint source t.last.point
  match t.kind with
  | .returnStatement =>
    return .returnWith
      (← WordList.ofTrees source "a return statement" absent span t.children)
      span
  | .breakStatement => return .breakLoop span
  | .continueStatement => return .continueLoop span
  | .localStatement =>
    match t.children with
    | [names] =>
      require source "a local declaration" .list names
      return .localBinding (← WordList.ofTree source names) none span
    | [names, value] =>
      require source "a local declaration" .list names
      let names ← WordList.ofTree source names
      require source "a local declaration" .localValue value
      let value ← WordList.ofTrees source "a local value"
        (.ofPoint source value.last.point) (value.span source) value.children
      return .localBinding names (some value) span
    | [] => throw (incomplete "a local declaration" "list" span)
    | children =>
      throw (misfit source "a local declaration"
        ["list", "local_value"] children span)
  | .assignment =>
    match t.children with
    | name :: mark :: value =>
      let name ← nameOfTree source "an assignment" name
      require source "an assignment" .assignOp mark
      match AssignOp.ofMark? (String.ofList mark.text) with
      | some op =>
        let value ← WordList.ofTrees source "an assignment" absent span value
        return .assignment name op value span
      | none => throw (misplaced source "an assignment" mark)
    | children =>
      throw (misfit source "an assignment" ["name", "assign_op"] children span)
  | .ruleInvocation =>
    match t.children with
    | name :: arguments =>
      let name ← nameOfTree source "a rule invocation" name
      return .invocation name (← arguments.mapM (argumentOfTree source)) span
    | [] => throw (incomplete "a rule invocation" "name" span)
  | _ => throw (misplaced source "a statement" t)

mutual

/-- A statement of any kind. -/
def Statement.ofTree : Node → Except Error Statement
  | .node kind first last children => do
    let span := ⟨source, first.point, last.point⟩
    match kind with
    | .block => return .block ⟨← statementsOfTrees children, span⟩
    | .ifStatement =>
      match children with
      | [condition, yes] =>
        return .choice (← Condition.ofTree source condition)
          (← Block.ofTree "an if statement" yes) none span
      | [condition, yes, no] =>
        let condition ← Condition.ofTree source condition
        let yes ← Block.ofTree "an if statement" yes
        if no.kind = .ifStatement ∨ no.kind = .block then
          return .choice condition yes (some (← Statement.ofTree no)) span
        else throw (misplaced source "an if statement" no)
      | _ =>
        if children.isEmpty then
          throw (incomplete "an if statement" "condition" span)
        else throw (misfit source "an if statement"
          ["condition", "block", "else"] children span)
    | .forStatement =>
      match children with
      | [name, values, body] =>
        let name ← nameOfTree source "a for loop" name
        require source "a for loop" .list values
        return .forLoop name (← WordList.ofTree source values)
          (← Block.ofTree "a for loop" body) span
      | _ =>
        throw
          (misfit source "a for loop" ["name", "list", "block"] children span)
    | .whileStatement =>
      match children with
      | [condition, body] =>
        return .whileLoop (← Condition.ofTree source condition)
          (← Block.ofTree "a while loop" body) span
      | _ =>
        throw
          (misfit source "a while loop" ["condition", "block"] children span)
    | .ruleDefinition =>
      match children with
      | [name, body] =>
        let name ← nameOfTree source "a rule definition" name
        return .definition
          ⟨name, [], ← Block.ofTree "a rule definition" body, span⟩
      | [name, parameters, body] =>
        let name ← nameOfTree source "a rule definition" name
        let parameters ← parametersOfTree source parameters
        return .definition
          ⟨name, parameters, ← Block.ofTree "a rule definition" body, span⟩
      | _ =>
        if children.isEmpty then
          throw (incomplete "a rule definition" "name" span)
        else throw (misfit source "a rule definition"
          ["name", "parameters", "body"] children span)
    | _ => simpleOfTree source (.node kind first last children)
termination_by structural t => t

/-- Statements in braces. -/
def Block.ofTree (context : String) : Node → Except Error Block
  | .node kind first last children => do
    require source context .block (.node kind first last children)
    return ⟨← statementsOfTrees children, ⟨source, first.point, last.point⟩⟩
termination_by structural t => t

/-- Statements side by side. -/
def statementsOfTrees : List Node → Except Error (List Statement)
  | [] => return []
  | t :: ts => return (← Statement.ofTree t) :: (← statementsOfTrees ts)
termination_by structural ts => ts

end

-- ========================================================= whole texts

/-- A whole program. What marks the end of the text is no statement. -/
def Program.ofTree (t : Node) : Except Error Program := do
  require source "a program" .program t
  let statements ← statementsOfTrees source
      (t.children.filter (·.kind ≠ .endOfInput))
  return ⟨statements, t.span source⟩

/-- Whatever a node stands for that is less than a program. -/
def Phrase.ofTree (t : Node) : Except Error Phrase :=
  match t.kind with
  | .name | .joined => .identifier <$> Identifier.ofTree source t
  | .variable => .variable <$> Variable.ofTree source t
  | .string => .literal <$> Literal.ofTree source t
  | .list => .list <$> WordList.ofTree source t
  | _ => .statement <$> Statement.ofTree source t

end Jam
