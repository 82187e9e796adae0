/-
# Chunks

A chunk is a program for the machine: its code, the pools of numbers and
strings that the code refers to, and the places in the source text that
instructions were made for.
-/

import Std.Data.HashSet
import StackScript.Code.Decode
import StackScript.Diagnostic
import StackScript.Pool

namespace StackScript

/-- A program for the machine. The places are listed from the end of the code
to its beginning, each with the offset of its instruction. -/
structure Chunk where
  code : Code
  constants : Pool Float
  strings : Pool String
  places : List (Nat × Location)
deriving Inhabited, Repr

/-- Why a chunk cannot be changed: the program asks for more than the format
holds, or the request itself makes no sense. -/
inductive Chunk.Failure where
  | refused (diagnostic : Diagnostic)
  | malformed (fault : Code.Fault)
deriving DecidableEq, Inhabited, Repr

namespace Chunk

/-- The number of entries that an identifier of one byte can tell apart. -/
def maxPoolSize : Nat := 256

/-- A chunk without code whose pools have room for the given number of entries. -/
def empty (poolSize : Nat) : Chunk := ⟨.empty, .empty poolSize, .empty poolSize, []⟩

/-- The offset of the next instruction. -/
def size (chunk : Chunk) : Nat := chunk.code.size

/-- The identifier of a number. -/
def internConstant (chunk : Chunk) (place : Option Location) (value : Float) :
    Except Diagnostic (Chunk × Nat) :=
  match chunk.constants.intern? value with
  | none => .error ⟨place, .constantPoolTooLarge⟩
  | some (constants, id) => .ok ({ chunk with constants }, id)

/-- The identifier of a string. -/
def internString (chunk : Chunk) (place : Option Location) (value : String) :
    Except Diagnostic (Chunk × Nat) :=
  match chunk.strings.intern? value with
  | none => .error ⟨place, .stringPoolTooLarge⟩
  | some (strings, id) => .ok ({ chunk with strings }, id)

/-- Remembers the place that the instruction at an offset was made for. -/
def mark (chunk : Chunk) (offset : Nat) : Option Location → Chunk
  | none => chunk
  | some place => { chunk with places := (offset, place) :: chunk.places }

/-- Appends an instruction and gives its offset. The chunk is taken apart first,
so that its code is not shared while it grows. -/
def append : Chunk → Option Location → Opcode → List Int → Chunk × Except Code.Fault Nat
  | ⟨code, constants, strings, places⟩, place, op, operands =>
    match code.append op operands with
    | (code, .error fault) => (⟨code, constants, strings, places⟩, .error fault)
    | (code, .ok offset) => (mark ⟨code, constants, strings, places⟩ offset place, .ok offset)

/-- Writes the distance of a jump. -/
def patch (chunk : Chunk) (place : Option Location) (offset : Nat) (distance : Int) :
    Except Failure Chunk :=
  match chunk.code.patch offset distance with
  | .ok code => .ok { chunk with code }
  | .error .jumpRange => .error (.refused ⟨place, .jumpTooLarge⟩)
  | .error fault => .error (.malformed fault)

/-- Cuts the code back to a length and forgets the places beyond it. The pools
keep what was added in the meantime. -/
def truncate (chunk : Chunk) (length : Nat) : Chunk :=
  { chunk with
    code := chunk.code.truncate length
    places := chunk.places.filter fun (offset, _) => offset < length }

/-- The place that the instruction at an offset was made for. -/
def locate (chunk : Chunk) (offset : Int) : Option Location :=
  (chunk.places.find? fun (start, _) => (start : Int) == offset).map Prod.snd

/-- The places of the instructions that decoding finds, in the order of the
code. After a request that made no sense, a place may have been given to an
offset that decoding takes for an operand; it is left out. -/
def instructionPlaces (chunk : Chunk) : List (Nat × Location) :=
  let starts := Std.HashSet.ofList ((chunk.code.decode 0).entries.map Prod.fst)
  chunk.places.reverse.filter fun (offset, _) => starts.contains offset

/-- Forgets everything but the room in the pools. -/
def clear (chunk : Chunk) : Chunk :=
  ⟨.empty, chunk.constants.clear, chunk.strings.clear, []⟩

end Chunk

end StackScript
