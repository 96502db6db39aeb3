/-
Quoted characters and strings, as dumps and messages show them.

A quoted text stands between two marks and fits on one line: what would
end it, break the line, or not show at all is spelled with a backslash.
The line and tab characters, NUL and the backslash have short spellings,
the mark is preceded by a backslash, and everything else that does not
show (`isShown`) is given by its code point in hexadecimal.
-/
import Jam.Text.Printable

namespace Jam

/-- The spelling of one character between two of `mark`. -/
def spell (mark c : Char) : List Char :=
  if c = '\x00' then ['\\', '0']
  else if c = '\t' then ['\\', 't']
  else if c = '\r' then ['\\', 'r']
  else if c = '\n' then ['\\', 'n']
  else if c = '\\' then ['\\', '\\']
  else if c = mark then ['\\', mark]
  else if isShown c then [c]
  else '\\' :: 'u' :: '\x7b' :: (Nat.toDigits 16 c.toNat ++ ['\x7d'])

/-- A text between two of `mark`. -/
def quoteWith (mark : Char) (text : List Char) : String :=
  String.ofList (mark :: (text.flatMap (spell mark) ++ [mark]))

/-- A string between double quotes. -/
def quoteString (text : String) : String := quoteWith '"' text.toList

/-- A character between single quotes. -/
def quoteChar (c : Char) : String := quoteWith '\'' [c]

end Jam
