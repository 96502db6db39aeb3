/-
Subscripts.

A subscript selects elements of a value by their indices, which count
from one: the element `n`, the elements from `n` on, or those from `n` to
`m` with both included. Only `Subscript.range` turns indices into a range
of positions that count from zero and end before the second.

A subscript that does not fit a value selects nothing of it. An index
greater than `Subscript.maxIndex` is taken for that one, which no value
is long enough to have.
-/
import Jam.Value
import Jam.Diagnostic
import Jam.Grammar.Productions

namespace Jam

/-- Where a selection ends. -/
inductive SubscriptEnd
  /-- With the element it starts with. -/
  | single
  /-- With the last element. -/
  | unbounded
  /-- With the element of an index. -/
  | closed (index : Nat)
deriving DecidableEq, Repr

/-- Indices, counted from one, both included. -/
structure Subscript where
  start : Nat
  stop : SubscriptEnd
deriving DecidableEq, Repr

namespace Subscript

/-- The greatest index that is told from greater ones: what 64 bits hold. -/
def maxIndex : Nat := 0xffff_ffff_ffff_ffff

/-- The number that digits denote. -/
def number (digits : List Char) : Nat :=
  digits.foldl (fun n d => 10 * n + (d.toNat - '0'.toNat)) 0

/-- The index that digits denote. -/
def index (digits : List Char) : Nat := min (number digits) maxIndex

/-- The runs of digits in a text of the form of a subscript: those before
the dash and, if there is a dash, those behind it. -/
def split? (text : List Char) : Option (List Char × Option (List Char)) :=
  let first := text.takeWhile isDigit
  if first.isEmpty then none
  else
    match text.dropWhile isDigit with
    | [] => some (first, none)
    | c :: second =>
      if c = '-' ∧ second.all isDigit then some (first, some second) else none

/-- Read a subscript. Of a start and an end that are both 0, the start is
to blame. -/
def parse (text : String) : Except SubscriptError Subscript :=
  match split? text.toList with
  | none => throw (.malformed text)
  | some (first, second) =>
    let stop : SubscriptEnd :=
      match second with
      | none => .single
      | some [] => .unbounded
      | some digits => .closed (index digits)
    if index first = 0 then throw (.zeroIndex text)
    else if stop = .closed 0 then throw (.reversed text)
    else return ⟨index first, stop⟩

/-- The positions selected in a value of `length` elements: from the first
number on, before the second. -/
def range (s : Subscript) (length : Nat) : Option (Nat × Nat) :=
  let last :=
    match s.stop with
    | .single => s.start
    | .unbounded => length
    | .closed n => n
  if length < s.start ∨ length < last ∨ last < s.start then none
  else some (s.start - 1, last)

/-- The elements selected, if the subscript fits the value. -/
def select (s : Subscript) (v : Value) : Option Value :=
  (s.range v.length).map fun (first, last) => (v.take last).drop first

end Subscript

end Jam
