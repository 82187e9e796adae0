/-
# The machine

A stack machine that runs one chunk at a time. The instruction pointer `ip` is
at the byte being executed: an instruction moves it over its own operands, and
one more byte is added after each instruction. Distances of jumps and return
addresses therefore count from the last byte of an instruction.

A call leaves a return address on the stack and the arguments above it; its
frame starts at the first argument. The machine keeps its stack, frames and
globals when another chunk is loaded.
-/

import StackScript.Chunk.Basic
import StackScript.Machine.Fault
import StackScript.Machine.Globals

namespace StackScript

/-- The state of the machine. The code is kept apart from the chunk, which is
consulted for pools and places only; `offset` is where the instruction that was
last started begins. The stack and the frames have their bottom first. -/
structure Machine where
  stackLimit : Nat
  frameLimit : Nat
  stack : Array Value := #[]
  frames : Array Nat := #[]
  globals : Globals := .empty
  chunk : Option Chunk := none
  code : Code := .empty
  ip : Int := 0
  offset : Int := 0
  halted : Bool := true
  output : Array String := #[]
deriving Inhabited

namespace Machine

/-- A machine with nothing loaded. -/
def new (stackLimit frameLimit : Nat) : Machine := { stackLimit, frameLimit }

/-- Prepares to run a chunk from its first instruction. -/
def load (machine : Machine) (chunk : Chunk) : Machine :=
  { machine with chunk := some chunk, code := chunk.code, ip := 0, offset := 0, halted := false }

/-- Forgets everything but the limits and what was printed. -/
def free (machine : Machine) : Machine :=
  { machine with
    stack := #[], frames := #[], globals := .empty, chunk := none, code := .empty, halted := true }

/-- Empties the chunk that is loaded. Its code goes on to run, but the pools
and places are gone. -/
def freeChunk (machine : Machine) : Machine :=
  { machine with chunk := machine.chunk.map Chunk.clear }

/-- Gives a global name a value. -/
def define (machine : Machine) (name : String) (value : Value) : Machine :=
  { machine with globals := machine.globals.insert name value }

/-- What was printed, each value on a line of its own. -/
def printed (machine : Machine) : String :=
  String.join (machine.output.toList.map fun line => line ++ "\n")

/-- Forgets what was printed. -/
def flush (machine : Machine) : Machine := { machine with output := #[] }

end Machine

/-- An action of the machine that may end in a fault. What it did before the
fault remains done. -/
abbrev Exec (α : Type) : Type := EStateM Fault Machine α

end StackScript
