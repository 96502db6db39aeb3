/-
The values of the language.

There is only one type of value, the list of strings: a plain word is a
list of one element, and a variable without a value reads as the empty
list. Lists are joined element by element and compared in the order of
their elements, which for strings is the order of code points.
-/
import Jam.Syntax.Basic

namespace Jam

/-- A value: strings, in order. -/
abbrev Value := List String

namespace Value

/-- A value as text: its elements with blanks between them. -/
def display (v : Value) : String := " ".intercalate v

/-- A value holds in a condition if some element of it is not empty. -/
def truthy (v : Value) : Bool := v.any (· ≠ "")

/-- The order of values: by the first element in which they differ; a value
comes before those that continue it. -/
def order : Value → Value → Ordering
  | [], [] => .eq
  | [], _ :: _ => .lt
  | _ :: _, [] => .gt
  | a :: as, b :: bs => (compare a b).then (order as bs)

end Value

/-- Whether two values stand in a relation. -/
def CompareOp.holds (op : CompareOp) (a b : Value) : Bool :=
  match op with
  | eq => a == b
  | ne => a != b
  | lt => Value.order a b == .lt
  | gt => Value.order a b == .gt
  | le => Value.order a b != .gt
  | ge => Value.order a b != .lt

end Jam
