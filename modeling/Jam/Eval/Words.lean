/-
The values of words, lists and conditions.

Reading a word changes nothing. It depends on the values of variables,
given as a function, and gives a value or an error, together with the
warnings that arose before it was done. The type `Reading` says just
that, so nothing that is read can assign, echo or raise a signal.

A variable inside a name is one part of the name: it must have exactly one
element, made of the characters that names may have.
-/
import Jam.Subscript
import Jam.Syntax.Display

namespace Jam

/-- The outcome of reading: a value or an error, and warnings. -/
abbrev Reading (α : Type) := ExceptT Error (StateM (Array Warning)) α

/-- The value of each variable that has one. -/
abbrev Environment := String → Option Value

namespace Reading

/-- What a reading gives, and its warnings in order. -/
def results {α : Type} (r : Reading α) : Except Error α × Array Warning :=
  r.run.run #[]

/-- Warn about a place. -/
def warn (kind : WarningKind) (message : String) (span : Span) : Reading Unit :=
  modify (·.push ⟨kind, message, some span⟩)

/-- Give up for a reason, at a place. -/
def fail {α : Type} (cause : Cause) (span : Span) : Reading α :=
  throw (.found cause span)

end Reading

-- =============================================================== names

/-- The characters of names. -/
def isNameChar (c : Char) : Bool :=
  isAlnum c || c == '/' || c == '\\' || c == '_' || c == '-'

/-- The one element of a variable inside a name. -/
def Variable.asPart (v : Variable) (value : Value) : Reading String :=
  match value with
  | [element] =>
    match element.toList.find? (!isNameChar ·) with
    | none => return element
    | some c => .fail (.identifierCharacter v.display element c) v.span
  | elements => .fail (.identifierArity v.display elements.length) v.span

/-- The value of a variable, which may have none. -/
def valueOrUnset (env : Environment) (name : String) (span : Span) :
    Reading Value :=
  match env name with
  | some value => return value
  | none => do
    Reading.warn .unsetVariable
      s!"variable '{name}' was accessed but was never assigned a value" span
    return []

/-- The elements that a subscript selects, none if it does not fit. -/
def selection (value : Value) (text : String) (span : Span) : Reading Value :=
  match Subscript.parse text with
  | .error cause => .fail (.badSubscript cause) span
  | .ok subscript =>
    match subscript.select value with
    | some selected => return selected
    | none => do
      Reading.warn .subscriptOutOfRange
        s!"subscript '{text}' is out of range for a list of size {value.length}"
        span
      return []

mutual

/-- The text of a name. -/
def Identifier.resolve (env : Environment) : Identifier → Reading String
  | ⟨parts, _⟩ => resolveParts env parts
termination_by structural i => i

/-- The text of the parts of a name, one behind the other. -/
def resolveParts (env : Environment) : List Part → Reading String
  | [] => return ""
  | .text text :: parts => return text ++ (← resolveParts env parts)
  | .variable v :: parts => do
    let text ← v.asPart (← v.value env)
    return text ++ (← resolveParts env parts)
termination_by structural parts => parts

/-- The value of a variable, or what its subscript selects of it. -/
def Variable.value (env : Environment) : Variable → Reading Value
  | ⟨name, none, span⟩ => do
    valueOrUnset env (← name.resolve env) span
  | ⟨name, some subscript, span⟩ => do
    let value ← valueOrUnset env (← name.resolve env) span
    selection value (← subscript.resolve env) subscript.span
termination_by structural v => v

end

-- ===================================================== words and lists

/-- The value of a word. -/
def Word.value (env : Environment) : Word → Reading Value
  | .literal l => return [l.text]
  | .identifier i => return [← i.resolve env]
  | .variable v => v.value env

/-- The values of words, joined. -/
def wordsValue (env : Environment) : List Word → Reading Value
  | [] => return []
  | w :: ws => return (← w.value env) ++ (← wordsValue env ws)

/-- The value of a list. -/
def WordList.value (env : Environment) (l : WordList) : Reading Value :=
  wordsValue env l.items

/-- The values of several lists. -/
def listValues (env : Environment) (ls : List WordList) :
    Reading (List Value) :=
  ls.mapM (WordList.value env)

-- ========================================================== conditions

mutual

/-- Whether a condition holds. -/
def Condition.holds (env : Environment) : Condition → Reading Bool
  | .truth word => return (← word.value env).truthy
  | .compare left op right =>
    return op.holds (← left.value env) (← right.value env)
  | .member element list => do
    let element ← element.value env
    let list ← list.value env
    return element.all (list.contains ·)
  | .not condition => return !(← condition.holds env)
  | .and terms => allHold env terms
  | .or terms => someHolds env terms

/-- Whether all of some conditions hold, up to the first that does not. -/
def allHold (env : Environment) : List Condition → Reading Bool
  | [] => return true
  | c :: cs => do if ← c.holds env then allHold env cs else return false

/-- Whether one of some conditions holds, up to the first that does. -/
def someHolds (env : Environment) : List Condition → Reading Bool
  | [] => return false
  | c :: cs => do if ← c.holds env then return true else someHolds env cs

end

end Jam
