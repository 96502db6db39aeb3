/-
What can be said about a program that went wrong, or that looks wrong.

An `Error` ends the work it arises in. It carries its cause and the
places it concerns: first the place of the cause itself, then, one by
one, the places it lies within (`Error.within`). A `Warning` is only
reported; work goes on with a substitute.

Both have a code, which stays the same whatever the wording, and a
display of one line per place.
-/
import Jam.Text.Point
import Jam.Text.Quoted

namespace Jam

-- ============================================================== errors

/-- Why a text is no subscript. -/
inductive SubscriptError
  /-- Not of the form of a subscript. -/
  | malformed (text : String)
  /-- Starts at index 0. -/
  | zeroIndex (text : String)
  /-- Ends at index 0, before any start. -/
  | reversed (text : String)
deriving DecidableEq, Repr

namespace SubscriptError

/-- The code of the cause. -/
def code : SubscriptError → String
  | malformed _ => "subscript-malformed"
  | zeroIndex _ => "subscript-zero-index"
  | reversed _ => "subscript-reversed"

/-- The cause in words. -/
def message : SubscriptError → String
  | malformed text => s!"failed to convert '{text}' to a valid subscript"
  | zeroIndex text =>
    s!"subscript '{text}' contains a 0 index, but arrays start at index 1"
  | reversed text =>
    s!"subscript '{text}' ends at index 0, before it starts; " ++
      "arrays start at index 1"

end SubscriptError

/-- The cause of an error. -/
inductive Cause
  /-- The text does not follow the grammar. -/
  | ungrammatical (message : String)
  /-- A variable inside a name has not exactly one element. -/
  | identifierArity (variableText : String) (count : Nat)
  /-- A variable inside a name has a character that no name may have. -/
  | identifierCharacter (variableText value : String) (character : Char)
  /-- The text of a subscript is none. -/
  | badSubscript (cause : SubscriptError)
  /-- Too many invocations of rules are active at once. -/
  | recursionLimit (rule : String) (limit : Nat)
  /-- A parse tree has a shape that the grammar does not produce. -/
  | internal (message : String)
deriving DecidableEq, Repr

namespace Cause

def code : Cause → String
  | ungrammatical _ => "syntax-error"
  | identifierArity .. => "identifier-arity"
  | identifierCharacter .. => "identifier-character"
  | badSubscript cause => cause.code
  | recursionLimit .. => "recursion-limit"
  | internal _ => "internal-error"

def message : Cause → String
  | ungrammatical message => message
  | identifierArity variableText count =>
    s!"{variableText} evaluated to {count} elements, " ++
      "but variables in identifiers must have exactly 1 element"
  | identifierCharacter variableText value character =>
    s!"{variableText} evaluated to '{value}', which contains the character " ++
      s!"{quoteChar character} that is not valid in an identifier"
  | badSubscript cause => cause.message
  | recursionLimit rule limit =>
    s!"invoking rule '{rule}' would exceed the limit of {limit} nested " ++
      "rule invocations"
  | internal message => s!"internal error: {message}"

end Cause

/-- A mistake that ends the work it was found in. -/
structure Error where
  cause : Cause
  /-- Where it is, and then what that lies within. -/
  spans : List Span
deriving DecidableEq, Repr

namespace Error

/-- An error found at one place. -/
def found (cause : Cause) (span : Span) : Error := ⟨cause, [span]⟩

/-- The same error, seen from a place around it. -/
def within (e : Error) (span : Span) : Error :=
  { e with spans := e.spans ++ [span] }

def code (e : Error) : String := e.cause.code

def message (e : Error) : String := e.cause.message

/-- The lines that name the places around an error. -/
def context (around : List Span) : List String :=
  around.map fun s => s!"  within {s.display}"

/-- The error as text: where, what, and around it what. -/
def display (e : Error) : String :=
  match e.spans with
  | [] => s!"{e.message} ({e.code})"
  | first :: around =>
    "\n".intercalate
      (s!"{first.display}: {e.message} ({e.code})" :: context around)

end Error

-- ============================================================ warnings

/-- What a warning is about. -/
inductive WarningKind
  /-- A variable was read that has no value. -/
  | unsetVariable
  /-- A subscript selects what is not there. -/
  | subscriptOutOfRange
  /-- A rule was invoked that does not exist. -/
  | undefinedRule
  /-- A break or continue left the rule or program it stood in. -/
  | strayControlFlow
deriving DecidableEq, Repr

def WarningKind.code : WarningKind → String
  | unsetVariable => "unset-variable"
  | subscriptOutOfRange => "subscript-out-of-range"
  | undefinedRule => "undefined-rule"
  | strayControlFlow => "stray-control-flow"

/-- Something suspicious, told and passed over. -/
structure Warning where
  kind : WarningKind
  message : String
  span : Option Span
deriving DecidableEq, Repr

/-- The warning as a line of text. -/
def Warning.display (w : Warning) : String :=
  match w.span with
  | some s => s!"{s.display}: warning: {w.message} ({w.kind.code})"
  | none => s!"warning: {w.message} ({w.kind.code})"

end Jam
