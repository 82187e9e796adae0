/-
# The program

The console of the operating system.
-/

import StackScript.Console

namespace StackScript

/-- The bytes of a file, if it can be read. -/
def readFile? (path : String) : IO (Option ByteArray) := do
  try
    return some (← IO.FS.readBinFile path)
  catch _ =>
    return none

/-- The console of the operating system. -/
def systemConsole : Console where
  read := readFile?
  print text := do
    (← IO.getStdout).putStr text
  warn text := IO.eprint text

end StackScript

open StackScript in
/-- Carries out the command line; a last message goes to the error stream. -/
def main (arguments : List String) : IO UInt32 := do
  match ← systemConsole.perform ("venom" :: arguments) with
  | .normal => return 0
  | .message text =>
    IO.eprintln text
    return 1
  | .status code => return code
