/-
# Listings

A listing shows the code of a chunk, one instruction on a line: offset, name,
operands, and a comment with what the operands stand for. A listing breaks off
at an instruction that is incomplete, and in the middle of the line of one that
refers to an entry that its pool does not have.
-/

import StackScript.Chunk.Basic
import StackScript.Number.Fixed

namespace StackScript

/-- Why a listing breaks off. -/
inductive Listing.Failure where
  | truncated
  | entryNotFound
deriving DecidableEq, Inhabited, Repr

/-- The lines of a listing, as far as it goes. A line that it breaks off in is
kept apart. -/
structure Listing where
  lines : List String
  unfinished : String
  failure : Option Listing.Failure
deriving DecidableEq, Inhabited, Repr

namespace Listing

/-- What the operands of an instruction stand for. -/
inductive Meaning where
  | plain
  | constant (id : Int)
  | string (id : Int)
  | target (offset : Int)

/-- The meaning of the operands of the instruction at an offset. Where there are
several, the first one tells. -/
def meaning (offset : Nat) : Opcode → List Int → Meaning
  | .const, id :: _ => .constant id
  | .str, id :: _ => .string id
  | .setGlobal, id :: _ => .string id
  | .getGlobal, id :: _ => .string id
  | .func, id :: _ => .string id
  | .invoke, id :: _ => .string id
  | .jmp, distance :: _ => .target (offset + Opcode.jmp.size + distance)
  | .jz, distance :: _ => .target (offset + Opcode.jz.size + distance)
  | _, _ => .plain

/-- The comment behind an instruction, if it has one; it fails if the pool has
no such entry. -/
def comment? (chunk : Chunk) : Meaning → Option String
  | .plain => some ""
  | .constant id => (chunk.constants.get? id).map fun value => " # " ++ Number.text value
  | .string id => (chunk.strings.get? id).map fun value => " # " ++ Text.quoted value
  | .target offset => some (" # -> " ++ toString offset)

/-- The operands of an instruction, a comma between any two. -/
def operandText : List Int → String
  | [] => ""
  | operands => " " ++ String.intercalate ", " (operands.map toString)

/-- Puts a line in front of a listing. -/
def after (listing : Listing) (line : String) : Listing :=
  { listing with lines := line :: listing.lines }

/-- The text of a listing. Every line but an unfinished one has an end. -/
def text (listing : Listing) : String :=
  String.join (listing.lines.map fun line => line ++ "\n") ++ listing.unfinished

/-- The listing of decoded code. -/
def ofEntries (chunk : Chunk) (truncated : Bool) : List (Nat × Code.Entry) → Listing
  | [] => ⟨[], "", if truncated then some .truncated else none⟩
  | (offset, .unknown byte) :: rest =>
    (ofEntries chunk truncated rest).after
      (toString offset ++ ": <unknown " ++ Text.byteText byte ++ ">")
  | (offset, .instruction op operands) :: rest =>
    let start := toString offset ++ ": " ++ op.name ++ operandText operands
    match comment? chunk (meaning offset op operands) with
    | none => ⟨[], start, some .entryNotFound⟩
    | some comment => (ofEntries chunk truncated rest).after (start ++ comment)

/-- The listing of a chunk. -/
def ofChunk (chunk : Chunk) : Listing :=
  let decoding := chunk.code.decode 0
  ofEntries chunk decoding.truncated decoding.entries

end Listing

end StackScript
