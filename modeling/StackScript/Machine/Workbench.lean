/-
# Workbench

A machine beside the chunks that it can be given. A chunk may be freed while it
is loaded: the machine then finds it empty, although it keeps the code.
-/

import StackScript.Machine.Run
import StackScript.Machine.Trace

namespace StackScript

/-- A machine, some chunks, and the number of the chunk that is loaded. -/
structure Workbench where
  machine : Machine
  chunks : Array Chunk
  loaded : Option Nat := none

namespace Workbench

/-- Loads a chunk; there is nothing to load beyond the last one. -/
def load (bench : Workbench) (index : Nat) : Workbench :=
  match bench.chunks[index]? with
  | none => bench
  | some chunk => { bench with machine := bench.machine.load chunk, loaded := some index }

/-- Frees a chunk. -/
def freeChunk (bench : Workbench) (index : Nat) : Workbench :=
  { bench with
    chunks := bench.chunks.modify index Chunk.clear
    machine := if bench.loaded = some index then bench.machine.freeChunk else bench.machine }

/-- Frees the machine. -/
def free (bench : Workbench) : Workbench :=
  { bench with machine := bench.machine.free, loaded := none }

end Workbench

end StackScript
