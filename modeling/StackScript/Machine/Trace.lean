/-
# Stack traces

Where the machine is: the place of the instruction that it started last, and
the place of each call that has not returned, found by its return address.
-/

import StackScript.Machine.Basic

namespace StackScript.Machine

/-- The offset of the call instruction that a frame belongs to. The return
address lies just below the frame and is the last byte of the call. -/
def callOffset? (machine : Machine) (frame : Nat) : Option Int :=
  match frame with
  | 0 => none
  | below + 1 =>
    match machine.stack[below]? with
    | some (.pointer target) => some (target - (Opcode.invoke.size - 1 : Nat))
    | _ => none

/-- The places of the current instruction and of the calls, innermost first. An
instruction without a place is passed over. -/
def trace (machine : Machine) : List Location :=
  match machine.chunk with
  | none => []
  | some chunk =>
    let calls := machine.frames.toList.reverse.filterMap machine.callOffset?
    (machine.offset :: calls).filterMap chunk.locate

end StackScript.Machine
