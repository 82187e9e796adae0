/-
# The command line

A program is named by its file. An option asks for a listing of its code in
place of a run.
-/

namespace StackScript

/-- What a command line asks for. -/
inductive Command where
  | run (path : String)
  | list (path : String)
deriving DecidableEq, Inhabited, Repr

namespace Command

/-- The option that asks for a listing. -/
def listOption : String := "-d"

/-- How the program is called, for users who got it wrong. -/
def usage (arguments : List String) : String :=
  "usage: " ++ arguments.head?.getD "venom" ++ " [-d] <file>\n" ++
    "options:\n" ++
    "     -d dump byte codes\n"

/-- Reads a command line, whose first word is the name of the program. There is
exactly one file, and the option can only stand in front of it. -/
def ofArguments? : List String → Option Command
  | [_, path] => if path = listOption then none else some (.run path)
  | [_, option, path] => if option = listOption then some (.list path) else none
  | _ => none

end Command

end StackScript
