/-
From a text to its parse tree, or to what is wrong with it.

`parseTree` matches one nonterminal against a whole text. When the
grammar does not match, the error stands at the furthest place that was
reached and says what was expected there. When it matches only the
beginning, the error stands behind that.

In a program the error also names the statement that was left unfinished
(`enclosingStatement`): statements are read off the beginning of the text
for as long as they end before the error, and the next one is the one.
-/
import Jam.Grammar.Productions
import Jam.Peg.Match
import Jam.Diagnostic

namespace Jam

open Nonterminal (description spelling)

-- ============================================================ matching

/-- Match the nonterminal `r` at a cursor. -/
def matchAt (r : Nonterminal) (c : Cursor) : Outcome Nonterminal :=
  grammar.run .plain (.call r) c .none

/-- The cursor behind a match of `r`, if there is one. -/
def stopOf? (r : Nonterminal) (c : Cursor) : Option Cursor :=
  (matchAt r c).1.map (·.stop)

-- ============================================================ messages

/-- Some nonterminals by their descriptions, in the order of the grammar. -/
def enumerate (rs : List Nonterminal) : String :=
  let names := (Nonterminal.all.filter (rs.contains ·)).map description
  match names.getLast?, names.dropLast with
  | some last, first :: more =>
    ", ".intercalate (first :: more) ++ " or " ++ last
  | some last, [] => last
  | none, _ => ""

/-- What was expected, and what was not, where the match failed. -/
def Attempts.message (t : Attempts Nonterminal) : String :=
  match t.expected, t.unexpected with
  | [], [] => "unexpected input"
  | es, [] => s!"expected {enumerate es}"
  | [], us => s!"unexpected {enumerate us}"
  | es, us => s!"expected {enumerate es}; unexpected {enumerate us}"

-- =========================================== the statement of an error

/-- Where the statement behind `c` begins, and where it ends if the text
goes on with a statement. -/
def nextStatement (c : Cursor) : Cursor × Option Cursor :=
  let d := (stopOf? .gap c).getD c
  (d, stopOf? .loneStatement d)

/-- Follow `next`, which gives the beginning and the end of one piece of
text after the other, to the first piece that does not end at or before
the byte `offset`. -/
def pieceAround (next : Cursor → Cursor × Option Cursor) (offset : Nat)
    (c : Cursor) : Cursor :=
  match next c with
  | (d, some e) =>
    if h : e.rest.length < c.rest.length ∧ e.offset ≤ offset then
      have := h.1
      pieceAround next offset e
    else d
  | (d, none) => d
termination_by c.rest.length

/-- Where the statement begins that holds the byte `offset` of a text. -/
def enclosingStatement (offset : Nat) (text : List Char) : Cursor :=
  pieceAround nextStatement offset (.ofText text)

-- ========================================================= parse trees

/-- The error of a text that `r` does not match. -/
def mismatch (source : String) (r : Nonterminal) (text : List Char)
    (t : Attempts Nonterminal) : Error :=
  let place := Point.ofOffset text t.furthest
  let error := Error.found (.ungrammatical t.message) (.ofPoint source place)
  if r = .program then
    let begins := (enclosingStatement t.furthest text).point
    if begins.offset < t.furthest then error.within (.ofPoint source begins)
    else error
  else error

/-- The parse tree of a whole text of the kind `r`. -/
def parseTree (source : String) (r : Nonterminal) (text : List Char) :
    Except Error (Tree Nonterminal) :=
  match matchAt r (.ofText text) with
  | (none, t) => throw (mismatch source r text t)
  | (some f, _) =>
    match f.nodes with
    | [] =>
      throw
        (.found (.internal s!"rule {r.spelling} produced no parse-tree node")
          (.ofPoint source .origin))
    | tree :: _ =>
      if tree.last.rest.isEmpty then return tree
      else
        throw (.found
          (.ungrammatical s!"expected end of input after {r.description}")
          (.ofPoint source tree.last.point))

end Jam
