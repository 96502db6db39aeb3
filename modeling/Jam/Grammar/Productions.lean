/-
The grammar of Jam.

Words are separated by blanks, and nothing is separated by anything else:
a mark such as a semicolon or a brace is a mark only when it stands alone.
That is why every production names the blanks it needs, and why
`boundary` (what follows is a blank, or nothing) decides where a word
ends.

Nothing here is reserved. A word is tried as a mark of the language, then
as a variable, as a name, as a word with variables in it, and last as a
plain string; a statement is tried as each kind of statement in turn, and
last as the invocation of a rule.

The grammar is not left-recursive. `tier` says so: before a character is
taken, a nonterminal only enters nonterminals of a lower tier, and
`grammar` is accepted because Lean checks this for every production.
-/
import Jam.Grammar.Nonterminal
import Jam.Peg.Basic

namespace Jam

-- ========================================================== characters

/-- The digits of decimal numbers. -/
def isDigit (c : Char) : Bool := '0' ≤ c && c ≤ '9'

/-- The letters and digits of ASCII. -/
def isAlnum (c : Char) : Bool :=
  'a' ≤ c && c ≤ 'z' || 'A' ≤ c && c ≤ 'Z' || isDigit c

/-- The digits of hexadecimal numbers. -/
def isHexDigit (c : Char) : Bool :=
  isDigit c || 'a' ≤ c && c ≤ 'f' || 'A' ≤ c && c ≤ 'F'

/-- The digits of octal numbers. -/
def isOctalDigit (c : Char) : Bool := '0' ≤ c && c ≤ '7'

/-- The control characters of ASCII. -/
def isControl (c : Char) : Bool := c ≤ '\x1f' || c == '\x7f'

-- ========================================================= productions

namespace Nonterminal

open Peg (one lit start finish many opt ahead notAhead plus)

/-- What a nonterminal stands for, inside a production. -/
def nt (r : Nonterminal) : Peg Nonterminal := .call r

/-- Any character. -/
def any : Peg Nonterminal := one fun _ => true

/-- Any character at which the given expression does not match. -/
def anyBut (e : Peg Nonterminal) : Peg Nonterminal := notAhead e ++ any

/-- The marks of the language, the longer before the shorter. -/
def marks : Peg Nonterminal :=
  lit ";" <|> lit ":" <|> lit "\x7b" <|> lit "\x7d" <|> lit "+=" <|>
    lit "?=" <|> lit "!=" <|> lit "<=" <|> lit ">=" <|>
    lit "&&" <|> lit "||" <|> lit "=" <|> lit "<" <|> lit ">" <|> lit "!" <|>
    lit "(" <|> lit ")"

/-- The letters and signs that may follow a backslash alone. -/
def escapedSigns : Peg Nonterminal :=
  lit "a" <|> lit "b" <|> lit "f" <|> lit "n" <|> lit "r" <|> lit "t" <|>
    lit "v" <|> lit "\\" <|> lit "'" <|> lit "\""

/-- More words of the same kind, each after blanks and the mark `mark`. -/
def further (mark : String) (r : Nonterminal) : Peg Nonterminal :=
  many (nt blanks ++ lit mark ++ nt blanks ++ nt r)

/-- Blanks and a list, or nothing. -/
def optList : Peg Nonterminal := opt (nt blanks ++ nt list)

/-- The production of each nonterminal. -/
def body : Nonterminal → Peg Nonterminal
  | .endOfInput => finish
  -- Blanks.
  | .blank => lit " " <|> lit "\t" <|> lit "\r" <|> lit "\n"
  | .comment => lit "#" ++ many (anyBut (lit "\r" <|> lit "\n"))
  | .blanks => plus (nt blank <|> nt comment)
  | .gap => opt (nt blanks)
  | .boundary => ahead (nt blank <|> nt endOfInput)
  -- Tokens.
  | .identifier => plus (one isAlnum)
  | .number => plus (one isDigit)
  | .escape =>
    lit "\\" ++
      (lit "x" ++ one isHexDigit ++ one isHexDigit
        <|> one isOctalDigit ++ opt (one isOctalDigit) ++ opt (one isOctalDigit)
        <|> escapedSigns)
  | .quoted => many (nt escape <|> anyBut (lit "\"" <|> lit "\\"))
  | .unquoted =>
    notAhead (lit "\"") ++
      plus (nt escape <|>
        anyBut (nt blank <|> lit "\\" <|> lit "$(" <|> one isControl))
  | .string => lit "\"" ++ nt quoted ++ lit "\"" <|> nt unquoted
  -- Variables.
  | .variable =>
    lit "$(" ++ opt (nt blanks) ++ nt name ++ opt (nt subscript) ++
      opt (nt blanks) ++ lit ")"
  | .subscript => lit "[" ++ nt subscriptText ++ lit "]"
  | .subscriptText => nt index ++ opt (nt rangeDash ++ opt (nt index))
  | .index => plus (nt number <|> nt .variable)
  | .rangeDash => lit "-"
  | .name => plus (nt identifier <|> nt .variable)
  | .fragment =>
    plus (nt escape <|>
      anyBut (nt blank <|> lit "\\" <|> lit "\"" <|> lit "$(" <|>
        one isAlnum <|> one isControl))
  | .joined =>
    many (nt identifier <|> nt fragment) ++ nt .variable
      ++ many (nt .variable <|> nt identifier <|> nt fragment)
  -- Lists.
  | .operator => marks ++ nt boundary
  | .word =>
    notAhead (nt operator) ++
      (nt .variable ++ nt boundary <|> nt name ++ nt boundary <|>
        nt joined ++ nt boundary <|> nt string)
  | .list => nt word ++ many (nt blanks ++ nt word)
  -- Conditions.
  | .condition => nt disjunction
  | .disjunction => nt conjunction ++ further "||" conjunction
  | .conjunction => nt negation ++ further "&&" negation
  | .negation => nt negated <|> nt primary
  | .negated => lit "!" ++ nt blanks ++ nt negation
  | .primary =>
    lit "(" ++ nt blanks ++ nt disjunction ++ nt blanks ++ lit ")"
      <|> nt membership <|> nt comparison <|> nt truth
  | .membership => nt word ++ nt blanks ++ lit "in" ++ nt blanks ++ nt list
  | .comparison => nt word ++ nt blanks ++ nt compareOp ++ nt blanks ++ nt word
  | .compareOp =>
    lit "!=" <|> lit "<=" <|> lit ">=" <|> lit "=" <|> lit "<" <|> lit ">"
  | .truth => nt word
  -- Statements.
  | .ruleInvocation =>
    nt name ++ nt argument ++ many (nt blanks ++ lit ":" ++ nt argument)
  | .argument => optList
  | .assignOp => lit "+=" <|> lit "?=" <|> lit "="
  | .assignment =>
    nt name ++ nt blanks ++ nt assignOp ++ optList ++ nt blanks ++ lit ";"
  | .localValue => lit "=" ++ optList
  | .localStatement =>
    lit "local" ++ nt blanks ++ nt list ++ opt (nt blanks ++ nt localValue)
      ++ nt blanks ++ lit ";"
  | .returnStatement => lit "return" ++ optList ++ nt blanks ++ lit ";"
  | .breakStatement => lit "break" ++ nt blanks ++ lit ";"
  | .continueStatement => lit "continue" ++ nt blanks ++ lit ";"
  | .block =>
    lit "\x7b" ++ many (nt blanks ++ nt statement) ++ nt blanks ++ lit "\x7d"
  | .ifStatement =>
    lit "if" ++ nt blanks ++ nt condition ++ nt blanks ++ nt block
      ++ opt (nt blanks ++ lit "else" ++ nt blanks
        ++ (nt ifStatement <|> nt block))
  | .forStatement =>
    lit "for" ++ nt blanks ++ nt name ++ nt blanks ++ lit "in" ++ nt blanks ++
      nt list ++ nt blanks ++ nt block
  | .whileStatement =>
    lit "while" ++ nt blanks ++ nt condition ++ nt blanks ++ nt block
  | .parameters => nt name ++ further ":" name
  | .ruleDefinition =>
    lit "rule" ++ nt blanks ++ nt name ++ opt (nt blanks ++ nt parameters)
      ++ nt blanks ++ nt block
  | .statement =>
    nt block <|> nt ifStatement <|> nt forStatement <|> nt whileStatement
      <|> nt ruleDefinition <|> nt returnStatement <|> nt breakStatement
      <|> nt continueStatement <|> nt localStatement <|> nt assignment
      <|> nt ruleInvocation ++ nt blanks ++ lit ";"
  | .loneStatement => nt statement
  | .program =>
    start ++ opt (nt blanks) ++
      opt (nt statement ++ many (nt blanks ++ nt statement)) ++
      opt (nt blanks) ++ nt endOfInput

/-- What a match of a nonterminal leaves in the parse tree. -/
def retention : Nonterminal → Retention
  | .blank | .comment | .blanks | .index | .boundary | .operator | .word
    | .condition | .negation | .primary | .statement => .silent
  | .identifier | .number | .escape | .quoted | .unquoted | .fragment => .leaf
  | .string => .group
  | _ => .branch

-- ============================================================ progress

/-- The nonterminals that may match nothing. -/
def nullable : Nonterminal → Bool
  | .endOfInput | .gap | .boundary | .quoted | .argument | .program => true
  | _ => false

/-- How many nonterminals can be entered one inside the other before a
character is taken. -/
def tier : Nonterminal → Nat
  | .blanks | .boundary | .quoted | .unquoted | .fragment | .index | .name => 1
  | .gap | .string | .joined | .subscriptText | .argument | .parameters
    | .assignment | .ruleInvocation => 2
  | .word | .statement => 3
  | .list | .membership | .comparison | .truth | .loneStatement | .program => 4
  | .primary => 5
  | .negation => 6
  | .conjunction => 7
  | .disjunction => 8
  | .condition => 9
  | _ => 0

/-- Room between two tiers, more than the operators of any production. -/
def weight (r : Nonterminal) : Nat := 32 * (r.tier + 1)

end Nonterminal

-- ========================================================= the grammar

open Nonterminal in
/-- The grammar of Jam. -/
def grammar : Grammar Nonterminal where
  body := body
  retention := retention
  nullable := nullable
  weight := weight
  top := 384
  nullable_body r := by cases r <;> decide
  cost_body_lt r := by cases r <;> decide
  maxCost_body_le r := by cases r <;> decide
  weight_le r := by cases r <;> decide

end Jam
