/-
The program: the command line between the streams of a process.
-/
import Jam.CommandLine

namespace Jam.CommandLine

/-- The environment of this process, as far as it can be read. -/
def readEnvironment : IO (List (String × String)) := do
  try
    let block ← IO.FS.readBinFile "/proc/self/environ"
    return environmentOf ((String.fromUTF8? block).getD "")
  catch _ => return []

end Jam.CommandLine

open Jam.CommandLine in
/-- Answer once, from the input of this process. -/
def main (arguments : List String) : IO UInt32 := do
  let input ← (← IO.getStdin).readBinToEnd
  let response := respond ⟨arguments, ← readEnvironment, input⟩
  (← IO.getStdout).putStr response.output
  (← IO.getStderr).putStr response.errorOutput
  return response.status.toUInt32
