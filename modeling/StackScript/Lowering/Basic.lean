/-
# Lowering

Lowering turns syntax trees into code at the end of a chunk. This module has
the steps that it is made of: appending an instruction, finding the identifier
of a number or a string, writing a jump, and keeping track of the variables of
the function at hand. A step that the format has no room for ends the lowering
with a diagnostic; the chunk is then left as it is at that moment.
-/

import StackScript.Chunk.Basic
import StackScript.Chunk.Scope
import StackScript.Syntax.Basic

namespace StackScript

/-- A lowering in progress. There is a scope only inside a function; elsewhere
all variables are global. -/
structure Lowering where
  chunk : Chunk
  scope : Option Scope

/-- A step of a lowering. -/
abbrev Lower (α : Type) : Type := EStateM Chunk.Failure Lowering α

namespace Lower

/-- Ends the lowering with a diagnostic. -/
def refuse {α : Type} (place : Location) (cause : Diagnostic.Cause) : Lower α :=
  throw (.refused ⟨some place, cause⟩)

/-- The offset of the next instruction. -/
def here : Lower Nat := return (← get).chunk.size

/-- Appends an instruction and gives its offset. -/
def append (place : Location) (op : Opcode) (operands : List Int) : Lower Nat :=
  fun ⟨chunk, scope⟩ =>
    match chunk.append (some place) op operands with
    | (chunk, .ok offset) => .ok offset ⟨chunk, scope⟩
    | (chunk, .error fault) => .error (.malformed fault) ⟨chunk, scope⟩

/-- Appends an instruction. -/
def emit (place : Location) (op : Opcode) (operands : List Int) : Lower Unit := do
  let _ ← append place op operands

/-- The identifier of a number. -/
def constant (place : Location) (value : Float) : Lower Nat := fun state =>
  match state.chunk.internConstant (some place) value with
  | .ok (chunk, id) => .ok id { state with chunk }
  | .error diagnostic => .error (.refused diagnostic) state

/-- The identifier of a string. -/
def string (place : Location) (value : String) : Lower Nat := fun state =>
  match state.chunk.internString (some place) value with
  | .ok (chunk, id) => .ok id { state with chunk }
  | .error diagnostic => .error (.refused diagnostic) state

/-- The distance of a jump whose target is not yet known. -/
def unknownDistance : Int := -1

/-- Appends a jump to a target that is not yet known, and gives its offset. -/
def jump (place : Location) (op : Opcode) : Lower Nat := append place op [unknownDistance]

/-- Settles the target of a jump. Distances count from the byte after the jump. -/
def settle (place : Location) (offset target : Nat) : Lower Unit := fun state =>
  let distance : Int := target - (offset + Opcode.jmp.size : Nat)
  match state.chunk.patch (some place) offset distance with
  | .ok chunk => .ok () { state with chunk }
  | .error failure => .error failure state

/-- The slot of a local variable, if the name means one here. -/
def slot? (name : String) : Lower (Option Nat) :=
  return (← get).scope.bind fun scope => scope.find? name

/-- Declares a variable whose value has just been pushed. Inside a function the
value stays where it is, and the name stands for its slot. -/
def declare (place : Location) (name : String) : Lower Unit := do
  match (← get).scope with
  | none => emit place .setGlobal [← string place name]
  | some scope =>
    match scope.declare place name with
    | .error diagnostic => throw (.refused diagnostic)
    | .ok (scope, _) => modify fun state => { state with scope := some scope }

/-- Starts a block, if there is a function around it. -/
def enterBlock : Lower Unit := modify fun state => { state with scope := state.scope.map .enter }

/-- The number of local variables in scope. -/
def localCount : Lower Nat := return (← get).scope.elim 0 Scope.size

/-- Appends the same instruction several times. -/
def emitTimes (place : Location) (op : Opcode) : Nat → Lower Unit
  | 0 => return ()
  | count + 1 => do
    emit place op []
    emitTimes place op count

/-- Lowers the content of a block. Variables that it declares are popped at its
end; outside of functions it declares none. -/
def block (place : Location) (content : Lower Unit) : Lower Unit := do
  let before ← localCount
  enterBlock
  content
  emitTimes place .pop ((← localCount) - before)
  modify fun state => { state with scope := state.scope.map .leave }

/-- Starts a function. Its parameters are its first local variables. -/
def enterFunction (parameters : List Parameter) : Lower Unit := do
  modify fun state => { state with scope := some { capacity := Scope.maxVariables } }
  parameters.forM fun parameter => declare parameter.location parameter.name

/-- Ends a function. -/
def leaveFunction : Lower Unit := modify fun state => { state with scope := none }

end Lower

/-- How many levels of nesting are still allowed, and the place of the
statement of the program that is reported when there are more. -/
structure Depth where
  root : Location
  levels : Nat

/-- One level further down. -/
def Depth.deeper (depth : Depth) : Lower Depth :=
  match depth.levels with
  | 0 => Lower.refuse depth.root .nestingTooDeep
  | levels + 1 => return { depth with levels }

end StackScript
