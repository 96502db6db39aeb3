/-
Names and marks of the language, written out again.

A name is written as its parts, one behind the other, and a variable
without any of the blanks its source may have had. What is written reads
back as the same name.
-/
import Jam.Syntax.Basic

namespace Jam

mutual

/-- A name as source text. -/
def Identifier.display : Identifier → String
  | ⟨parts, _⟩ => displayParts parts
termination_by structural i => i

/-- The parts of a name, one behind the other. -/
def displayParts : List Part → String
  | [] => ""
  | .text text :: parts => text ++ displayParts parts
  | .variable v :: parts => v.display ++ displayParts parts
termination_by structural parts => parts

/-- A variable as source text. -/
def Variable.display : Variable → String
  | ⟨name, none, _⟩ => "$(" ++ name.display ++ ")"
  | ⟨name, some subscript, _⟩ =>
    "$(" ++ name.display ++ "[" ++ subscript.display ++ "])"
termination_by structural v => v

end

/-- The mark of an assignment. -/
def AssignOp.mark : AssignOp → String
  | set => "="
  | append => "+="
  | keep => "?="

/-- The mark of a comparison. -/
def CompareOp.mark : CompareOp → String
  | eq => "="
  | ne => "!="
  | lt => "<"
  | gt => ">"
  | le => "<="
  | ge => ">="

end Jam
