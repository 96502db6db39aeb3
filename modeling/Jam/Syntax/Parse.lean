/-
From source text to syntax.

A text is read in two steps, of which either can fail: the grammar finds
its parse tree, and the tree is read as syntax. Errors point into the
text under the name `source`.
-/
import Jam.Grammar.Parse
import Jam.Syntax.OfTree

namespace Jam

/-- Read a whole program. -/
def Program.parse (source text : String) : Except Error Program := do
  Program.ofTree source (← parseTree source .program text.toList)

/-- Read a text as one nonterminal of the grammar: a variable, a list, a
single statement. -/
def Phrase.parse (source : String) (r : Nonterminal) (text : String) :
    Except Error Phrase := do
  Phrase.ofTree source (← parseTree source r text.toList)

end Jam
