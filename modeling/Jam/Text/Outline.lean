/-
Outlines: headers with headers below them.

An outline is written one header a line, each two blanks further in than
the one it belongs to. The lines of an outline and how deep each of them
is are `Outline.lines`; `Outline.render` is the text.
-/
namespace Jam

/-- A header, and what belongs under it. -/
inductive Outline
  | node (header : String) (below : List Outline)

namespace Outline

/-- A header with nothing below. -/
def leaf (header : String) : Outline := node header []

mutual

/-- The headers in order, with their depths, when the first is at `depth`. -/
def lines (depth : Nat) : Outline → List (Nat × String)
  | node header below => (depth, header) :: linesAll (depth + 1) below

/-- The headers of several outlines, all at `depth`. -/
def linesAll (depth : Nat) : List Outline → List (Nat × String)
  | [] => []
  | o :: os => lines depth o ++ linesAll depth os

end

/-- One line of text: two blanks for each level, and the header. -/
def renderLine : Nat × String → String
  | (depth, header) =>
    String.ofList (List.replicate (2 * depth) ' ') ++ header ++ "\n"

/-- An outline as text. -/
def render (o : Outline) : String := String.join ((o.lines 0).map renderLine)

end Outline

end Jam
