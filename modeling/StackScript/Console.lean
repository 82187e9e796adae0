/-
# The console

The outer layer: it reads files, runs machines to their end, and prints. What
is printed, and when a run ends, is decided elsewhere.
-/

import StackScript.CommandLine
import StackScript.Listing
import StackScript.Session
import StackScript.Text.Lines

namespace StackScript

/-- The outside world: the bytes of a file, if it can be read, and the two
streams for output. -/
structure Console where
  read : String → IO (Option ByteArray)
  print : String → IO Unit
  warn : String → IO Unit

/-- How the program ends: normally, with a last message, or with a status. -/
inductive Exit where
  | normal
  | message (text : String)
  | status (code : UInt32)
deriving DecidableEq, Inhabited, Repr

namespace Console

/-- The status for a file that cannot be read. -/
def unreadableStatus : UInt32 := 74

/-- The number of steps between two looks at the output. -/
def batch : Nat := 1000

/-- Runs a machine for one batch and prints what has come together. Then the run goes on with
another batch, or it has come to its end. -/
def advance (console : Console) (machine : Machine) : IO (Machine ⊕ Machine × Option Fault) := do
  let (after, _, ending) := machine.runFor 0 batch
  if !after.output.isEmpty then
    console.print after.printed
  let after := after.flush
  match ending with
  | .counted => return .inl after
  | .halted => return .inr (after, none)
  | .failed fault => return .inr (after, some fault)

/-- Runs a machine to its end and prints on the way. -/
def finish (console : Console) (machine : Machine) : IO (Machine × Option Fault) :=
  repeatM console.advance machine

/-- Runs the program in a text. -/
def runText (console : Console) (stackLimit frameLimit : Nat) (file text : String) : IO Exit := do
  match Session.compile file text with
  | .error failure => return .message (Session.compileReport failure)
  | .ok chunk =>
    let (machine, fault) ← console.finish ((Machine.new stackLimit frameLimit).load chunk)
    match fault with
    | none => return .normal
    | some fault => return .message (Session.faultReport machine fault)

/-- Lists the code of a chunk. -/
def listChunk (console : Console) (chunk : Chunk) : IO (Option Listing.Failure) := do
  let listing := Listing.ofChunk chunk
  console.print listing.text
  return listing.failure

/-- Lists the code of the program in a text. -/
def listText (console : Console) (file text : String) : IO Exit := do
  match Session.compile file text with
  | .error failure => return .message (Session.compileReport failure)
  | .ok chunk =>
    let _ ← console.listChunk chunk
    return .normal

/-- Reads the text of a file and goes on with it. -/
def withFile (console : Console) (path : String) (use : String → IO Exit) : IO Exit := do
  match (← console.read path).bind Text.ofFile? with
  | some text => use text
  | none =>
    console.warn ("Could not open file \"" ++ path ++ "\".\n")
    return .status unreadableStatus

/-- The limit on the stack and on the frames of a run from the command line. -/
def runLimit : Nat := 256

/-- Carries out a command line. -/
def perform (console : Console) (arguments : List String) : IO Exit := do
  match Command.ofArguments? arguments with
  | none => return .message (Command.usage arguments)
  | some (.run path) => console.withFile path (console.runText runLimit runLimit path)
  | some (.list path) => console.withFile path (console.listText path)

end Console

end StackScript
