/-
The report of an error to someone who has the text at hand.

Below the place of the error, the report shows the line it is on and
underlines it: a caret at the first character and underscores over the
rest of the place, or to the end of the line if the place does not end on
it. Then it says what is wrong and within what.

Lines are split at line feeds; a carriage return before one belongs to
the line break. The columns of the underline count from zero, those of
points from one.
-/
import Jam.Diagnostic

namespace Jam

-- =============================================================== lines

/-- A text split at its line feeds. -/
def splitLines : List Char → List (List Char)
  | [] => [[]]
  | c :: cs =>
    if c = '\n' then [] :: splitLines cs
    else
      match splitLines cs with
      | [] => [[c]]
      | line :: lines => (c :: line) :: lines

/-- A line without the carriage return it may end in. -/
def dropReturn (line : List Char) : List Char :=
  if line.getLast? = some '\r' then line.dropLast else line

/-- The line of a number, counted from one; behind the last line, an empty
one. -/
def sourceLine (text : List Char) (number : Nat) : List Char :=
  let lines := splitLines text
  let line := lines[number - 1]?.getD []
  if number < lines.length then dropReturn line else line

-- ======================================================= the underline

/-- The columns that the underline of a span covers, in a line of `width`
characters: from the first number on, before the second. -/
def underlineRange (s : Span) (width : Nat) : Nat × Nat :=
  let start := s.first.column - 1
  let stop :=
    if s.last.line = s.first.line ∧ s.first.column < s.last.column then
      s.last.column - 1
    else if start < width then width
    else start + 1
  (start, stop)

/-- Blanks, a caret and underscores. -/
def underline (s : Span) (width : Nat) : String :=
  let (start, stop) := underlineRange s width
  String.ofList
    (List.replicate start ' ' ++ '^' :: List.replicate (stop - start - 1) '_')

-- ========================================================== the report

/-- The lines of the report of an error in a text. -/
def reportLines (text : List Char) (e : Error) : List String :=
  match e.spans with
  | [] => [s!"ERROR: {e.message} ({e.code})"]
  | s :: around =>
    let line := sourceLine text s.first.line
    [s!"ERROR AT {s.first.display s.source}:", String.ofList line,
      underline s line.length, s!"{e.message} ({e.code})"] ++
      Error.context around ++ [""]

/-- The report of an error in a text. -/
def report (text : List Char) (e : Error) : String :=
  String.join ((reportLines text e).map (· ++ "\n"))

end Jam
