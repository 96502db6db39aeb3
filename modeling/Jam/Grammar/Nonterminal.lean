/-
The nonterminals of the grammar of Jam.

Every nonterminal has the spelling under which a parse tree shows it, and
a description under which an error message speaks of it. Several
nonterminals may share a description: they are stages on the way to the
same thing.

The order of the nonterminals is the order in which an error message
lists them (`Nonterminal.all`).
-/
namespace Jam

/-- The nonterminals of Jam's grammar. -/
inductive Nonterminal
  /-- Nothing follows. -/
  | endOfInput
  /-- One blank, tab or line break. -/
  | blank
  /-- From a hash sign to the end of the line. -/
  | comment
  /-- What separates words: blanks and comments, at least one. -/
  | blanks
  /-- Letters and digits. -/
  | identifier
  /-- Digits. -/
  | number
  /-- A backslash and what it escapes. -/
  | escape
  /-- The inside of a quoted string. -/
  | quoted
  /-- A word that is a string without quotes. -/
  | unquoted
  /-- A quoted string, or a word that is one without quotes. -/
  | string
  /-- A reference to a variable. -/
  | variable
  /-- The bracketed part of a variable. -/
  | subscript
  /-- One index, or two with a dash between them. -/
  | subscriptText
  /-- Digits and variables that make up an index. -/
  | index
  /-- The dash of a subscript. -/
  | rangeDash
  /-- Identifiers and variables glued together. -/
  | name
  /-- Other characters of a word that holds a variable. -/
  | fragment
  /-- A word in which at least one variable is glued to something. -/
  | joined
  /-- A word ends here. -/
  | boundary
  /-- A word that is a mark of the language. -/
  | operator
  /-- A word of a list. -/
  | word
  /-- Words with blanks between them. -/
  | list
  /-- What decides an if or a while. -/
  | condition
  /-- Conditions joined by or. -/
  | disjunction
  /-- Conditions joined by and. -/
  | conjunction
  /-- A condition, negated or not. -/
  | negation
  /-- A negated condition. -/
  | negated
  /-- A condition in parentheses, or one test. -/
  | primary
  /-- A test whether a word is in a list. -/
  | membership
  /-- A comparison of two words. -/
  | comparison
  /-- The mark of a comparison. -/
  | compareOp
  /-- A word that is tested for not being empty. -/
  | truth
  /-- The name of a rule and its arguments. -/
  | ruleInvocation
  /-- One group of arguments. -/
  | argument
  /-- The mark of an assignment. -/
  | assignOp
  /-- An assignment to a variable. -/
  | assignment
  /-- The value that local variables get. -/
  | localValue
  /-- A declaration of local variables. -/
  | localStatement
  /-- The end of a rule, with its value. -/
  | returnStatement
  /-- The end of a loop. -/
  | breakStatement
  /-- The end of one pass of a loop. -/
  | continueStatement
  /-- Statements in braces. -/
  | block
  /-- A choice between two blocks. -/
  | ifStatement
  /-- A loop over a list. -/
  | forStatement
  /-- A loop under a condition. -/
  | whileStatement
  /-- The names of a rule's parameters. -/
  | parameters
  /-- The definition of a rule. -/
  | ruleDefinition
  /-- Any statement. -/
  | statement
  /-- A whole source text. -/
  | program
  /-- Blanks, or nothing. -/
  | gap
  /-- A statement on its own. -/
  | loneStatement
deriving DecidableEq, Repr, Inhabited

namespace Nonterminal

/-- All nonterminals, in their order. -/
def all : List Nonterminal := [
  .endOfInput, .blank, .comment, .blanks, .identifier, .number, .escape,
  .quoted, .unquoted, .string, .variable, .subscript, .subscriptText, .index,
  .rangeDash, .name, .fragment, .joined, .boundary, .operator, .word, .list,
  .condition, .disjunction, .conjunction, .negation, .negated, .primary,
  .membership, .comparison, .compareOp, .truth, .ruleInvocation, .argument,
  .assignOp, .assignment, .localValue, .localStatement, .returnStatement,
  .breakStatement, .continueStatement, .block, .ifStatement, .forStatement,
  .whileStatement, .parameters, .ruleDefinition, .statement, .program, .gap,
  .loneStatement]

/-- Every nonterminal is listed. -/
theorem mem_all (r : Nonterminal) : r ∈ all := by
  cases r <;> decide

/-- The spelling of a nonterminal in parse trees. -/
def spelling : Nonterminal → String
  | .endOfInput => "EOI"
  | .blank => "white"
  | .comment => "comment"
  | .blanks => "ws"
  | .identifier => "identifier"
  | .number => "number"
  | .escape => "escape"
  | .quoted => "quoted"
  | .unquoted => "unquoted"
  | .string => "string"
  | .variable => "variable"
  | .subscript => "subscript"
  | .subscriptText => "subscript_text"
  | .index => "index"
  | .rangeDash => "range_dash"
  | .name => "name"
  | .fragment => "fragment"
  | .joined => "joined"
  | .boundary => "boundary"
  | .operator => "operator"
  | .word => "word"
  | .list => "list"
  | .condition => "condition"
  | .disjunction => "disjunction"
  | .conjunction => "conjunction"
  | .negation => "negation"
  | .negated => "negated"
  | .primary => "primary"
  | .membership => "membership"
  | .comparison => "comparison"
  | .compareOp => "compare_op"
  | .truth => "truth"
  | .ruleInvocation => "rule_invocation"
  | .argument => "argument"
  | .assignOp => "assign_op"
  | .assignment => "assignment"
  | .localValue => "local_value"
  | .localStatement => "local_statement"
  | .returnStatement => "return_statement"
  | .breakStatement => "break_statement"
  | .continueStatement => "continue_statement"
  | .block => "block"
  | .ifStatement => "if_statement"
  | .forStatement => "for_statement"
  | .whileStatement => "while_statement"
  | .parameters => "parameters"
  | .ruleDefinition => "rule_definition"
  | .statement => "statement"
  | .program => "program"
  | .gap => "gap"
  | .loneStatement => "lone_statement"

/-- The nonterminal with a spelling. -/
def ofSpelling? (s : String) : Option Nonterminal :=
  all.find? (·.spelling == s)

/-- What error messages call a nonterminal. -/
def description : Nonterminal → String
  | .endOfInput => "end of input"
  | .identifier => "identifier"
  | .number => "number"
  | .escape => "escape sequence"
  | .quoted | .unquoted | .string => "string"
  | .variable => "variable"
  | .subscript | .subscriptText => "subscript"
  | .rangeDash => "'-'"
  | .name => "name"
  | .fragment | .joined => "word"
  | .list => "list"
  | .disjunction | .conjunction | .negated | .membership | .comparison
    | .truth =>
    "condition"
  | .compareOp => "comparison operator"
  | .ruleInvocation => "rule invocation"
  | .argument => "argument list"
  | .assignOp => "assignment operator"
  | .assignment => "assignment"
  | .localValue => "'='"
  | .localStatement => "local declaration"
  | .returnStatement => "return statement"
  | .breakStatement => "break statement"
  | .continueStatement => "continue statement"
  | .block => "block"
  | .ifStatement => "if statement"
  | .forStatement => "for loop"
  | .whileStatement => "while loop"
  | .parameters => "parameter list"
  | .ruleDefinition => "rule definition"
  | .program => "program"
  | .loneStatement => "statement"
  | .blank | .comment | .blanks | .index | .boundary | .operator | .word
    | .condition | .negation | .primary | .statement | .gap => "input"

end Nonterminal

end Jam
