/-
# The machine without guards

The machine as it works on lists that must not be accessed out of range. Code, stack, frames and
pools are reached by an index here, an index out of range breaks the machine down, and so does
looking at a chunk when none is loaded. The limits are whatever numbers one likes. What checks
there are stand where they have to: an instruction does not look at the sign of the instruction
pointer before it reads a byte, for one.

On a state that is ready for it, this machine and the machine proper do the same. So it never
breaks down there.
-/

import StackScript.Machine.Trace
import StackScript.Proofs.Machine.Keeping

namespace StackScript

namespace Unguarded

/-- How an action can fail: with a fault, or by an access that cannot be made. -/
inductive Failure where
  | fault (fault : Fault)
  | breakdown
deriving DecidableEq, Inhabited, Repr

/-- The limits of a machine as they are given. -/
structure Limits where
  stack : Int
  frames : Int
deriving DecidableEq, Inhabited, Repr

/-- An action that may break down. -/
abbrev Raw (α : Type) : Type := EStateM Failure Machine α

/-- Ends in a fault. -/
def raise {α : Type} (fault : Fault) : Raw α := throw (.fault fault)

/-- The entry of a list at an index. -/
def item {α : Type} (entries : Array α) (index : Int) : Raw α :=
  if index < 0 then throw .breakdown
  else
    match entries[index.toNat]? with
    | none => throw .breakdown
    | some entry => return entry

/-- The last entry of a list. -/
def last {α : Type} (entries : Array α) : Raw α :=
  match entries.back? with
  | none => throw .breakdown
  | some entry => return entry

/-- The chunk that is loaded. -/
def loaded : Raw Chunk := do
  match (← get).chunk with
  | none => throw .breakdown
  | some chunk => return chunk

/-- Puts a value in place of the one at an index. -/
def store (index : Int) (value : Value) : Raw Unit := do
  let machine ← get
  if index < 0 ∨ machine.stack.size ≤ index then
    throw .breakdown
  modify fun machine => { machine with stack := machine.stack.setIfInBounds index.toNat value }

section Actions

variable (limits : Limits)

def push (value : Value) : Raw Unit := do
  let machine ← get
  if limits.stack ≤ machine.stack.size then
    raise .stackOverflow
  modify fun machine => { machine with stack := machine.stack.push value }

def pop : Raw Value := do
  let machine ← get
  if machine.stack.size = 0 then
    raise .stackUnderflow
  let value ← last machine.stack
  modify fun machine => { machine with stack := machine.stack.pop }
  return value

def popMany : Nat → Raw (List Value)
  | 0 => return []
  | count + 1 => do
    let first ← pop
    return first :: (← popMany count)

def pushMany : List Value → Raw Unit
  | [] => return ()
  | first :: rest => do
    push limits first
    pushMany rest

def readByte : Raw UInt8 := do
  modify fun machine => { machine with ip := machine.ip + 1 }
  let machine ← get
  if machine.code.size ≤ machine.ip then
    raise (.outOfRange machine.ip)
  item machine.code.bytes machine.ip

def readDistance : Raw Int := do
  let high ← readByte
  let low ← readByte
  return Code.wordValue high low

/-- The entry of a pool with an identifier. -/
def lookup {α : Type} (pool : Pool α) (id : UInt8) (fault : Fault) : Raw α := do
  if pool.size ≤ id.toNat then
    raise fault
  item pool.entries id.toNat

def readConstant : Raw Float := do
  let id ← readByte
  lookup (← loaded).constants id (.invalidConstant id.toNat)

def readString : Raw String := do
  let id ← readByte
  lookup (← loaded).strings id (.invalidString id.toNat)

def position (slot : Nat) : Raw Nat := do
  let machine ← get
  if machine.frames.size = 0 then
    raise (.invalidSlot slot)
  let frame ← last machine.frames
  if machine.stack.size ≤ frame + slot then
    raise (.invalidSlot slot)
  return frame + slot

def jumpBy (distance : Int) : Raw Unit :=
  modify fun machine => { machine with ip := machine.ip + distance }

def define (name : String) (value : Value) : Raw Unit := modify fun machine =>
  machine.define name value

/-- Puts the outcome of an operation on the stack. -/
def deliver : Except Fault Value → Raw Unit
  | .ok value => push limits value
  | .error fault => raise fault

/-- Combines the two values on top of the stack. -/
def combine (operation : Value → Value → Except Fault Value) : Raw Unit := do
  let second ← pop
  let first ← pop
  deliver limits (operation first second)

/-- Replaces the value on top of the stack. -/
def convert (operation : Value → Except Fault Value) : Raw Unit := do
  let value ← pop
  deliver limits (operation value)

def setLocal : Raw Unit := do
  let slot ← readByte
  let value ← pop
  let place ← position slot.toNat
  store place value

def getLocal : Raw Unit := do
  let slot ← readByte
  let place ← position slot.toNat
  push limits (← item (← get).stack place)

def jumpIfFalse : Raw Unit := do
  let distance ← readDistance
  match ← pop with
  | .bool true => return ()
  | .bool false => jumpBy distance
  | value => raise (.incompatibleOperands "if" [value.kind])

def defineFunction : Raw Unit := do
  let name ← readString
  let arity ← readByte
  let start ← readByte
  define name (.function { name, arity := arity.toNat, start := start.toNat })

def invoke : Raw Unit := do
  let name ← readString
  let given ← readByte
  match (← get).globals.find? name with
  | none => raise (.functionNotDefined name)
  | some (.function function) =>
    if (given.toNat : Int) ≠ function.arity then
      raise (.arityMismatch name function.arity given.toNat)
    let machine ← get
    if limits.frames ≤ machine.frames.size then
      raise .frameOverflow
    let arguments ← popMany given.toNat
    push limits (.pointer machine.ip)
    modify fun machine => { machine with frames := machine.frames.push machine.stack.size }
    pushMany limits arguments.reverse
    modify fun machine => { machine with ip := function.start - 1 }
  | some value => raise (.notCallable name value.kind)

def ret : Raw Unit := do
  let result ← pop
  let machine ← get
  if machine.frames.size = 0 then
    raise .noFrame
  let frame ← last machine.frames
  modify fun machine =>
    { machine with
      frames := machine.frames.pop
      stack := machine.stack.extract 0 frame }
  match ← pop with
  | .pointer target =>
    push limits result
    modify fun machine => { machine with ip := target }
  | _ => raise .noReturnAddress

/-- Carries out the instruction with a given opcode. -/
def instruction : Opcode → Raw Unit
  | .print => do
    let value ← pop
    modify fun machine => { machine with output := machine.output.push value.text }
  | .add => combine limits (Value.arithmetic "+" fun x y => .number (x + y))
  | .sub => combine limits (Value.arithmetic "-" fun x y => .number (x - y))
  | .mul => combine limits (Value.arithmetic "*" fun x y => .number (x * y))
  | .div => combine limits (Value.arithmetic "/" fun x y => .number (x / y))
  | .mod => combine limits (Value.arithmetic "%" fun x y => .number (Number.remainder x y))
  | .eq => combine limits Value.equality
  | .gt => combine limits (Value.arithmetic ">" fun x y => .bool (y < x))
  | .lt => combine limits (Value.arithmetic "<" fun x y => .bool (x < y))
  | .not => convert limits Value.inverted
  | .negate => convert limits Value.negated
  | .const => do push limits (.number (← readConstant))
  | .str => do push limits (.string (← readString))
  | .true => push limits (.bool true)
  | .false => push limits (.bool false)
  | .null => push limits .null
  | .pop => do
    let _ ← pop
  | .setGlobal => do
    let name ← readString
    let value ← pop
    define name value
  | .getGlobal => do
    let name ← readString
    deliver limits ((← get).globals.fetch name)
  | .deepSet => setLocal
  | .deepGet => getLocal limits
  | .jmp => do jumpBy (← readDistance)
  | .jz => jumpIfFalse
  | .func => defineFunction
  | .invoke => invoke limits
  | .ret => ret limits
  | .exit => modify fun machine => { machine with halted := true }

/-- Carries out the instruction at the instruction pointer. -/
def execute (byte : UInt8) : Raw Unit := do
  match Opcode.ofByte? byte with
  | none => raise (.unknownOpcode byte (← get).ip)
  | some op => instruction limits op
  if !(← get).halted then
    jumpBy 1
    let machine ← get
    if machine.ip < 0 || machine.code.size < machine.ip then
      raise (.outOfRange machine.ip)

/-- Runs one instruction. Breaking down does not even halt the machine. -/
def step (machine : Machine) : Machine × Except Failure Bool :=
  if machine.halted then (machine, .ok false)
  else if machine.code.size ≤ machine.ip then ({ machine with halted := true }, .ok false)
  else
    let run : Raw Unit := do execute limits (← item machine.code.bytes machine.ip)
    match run { machine with offset := machine.ip } with
    | .ok _ after => (after, .ok (!after.halted))
    | .error (.fault fault) after => ({ after with halted := true }, .error (.fault fault))
    | .error .breakdown after => (after, .error .breakdown)

end Actions

/-- The places of the calls whose frames are given. A frame that is not on the stack is passed
over, and so is one with no pointer below it. -/
def callPlaces (chunk : Chunk) (stack : Array Value) : List Nat → Raw (List Location)
  | [] => return []
  | frame :: rest => do
    if 1 ≤ frame ∧ frame ≤ stack.size then
      match ← item stack (frame - 1 : Int) with
      | .pointer target =>
        let more ← callPlaces chunk stack rest
        return (chunk.locate (target - (Opcode.invoke.size - 1 : Nat))).toList ++ more
      | _ => callPlaces chunk stack rest
    else
      callPlaces chunk stack rest

/-- The places of the current instruction and of the calls, innermost first. -/
def trace : Raw (List Location) := do
  let machine ← get
  match machine.chunk with
  | none => return []
  | some chunk =>
    let calls ← callPlaces chunk machine.stack machine.frames.toList.reverse
    return (chunk.locate machine.offset).toList ++ calls

end Unguarded

end StackScript
