/-
# Execution

The effect of each instruction, and one step of the machine. Every operand is
checked where it is used, so that any bytes can be run: a step either succeeds
or ends in a fault, after which the machine is halted.
-/

import StackScript.Machine.Basic
import StackScript.Number.Remainder

namespace StackScript

namespace Exec

/-- Puts a value on the stack. -/
def push (value : Value) : Exec Unit := do
  let machine ← get
  if machine.stackLimit ≤ machine.stack.size then
    throw .stackOverflow
  modify fun machine => { machine with stack := machine.stack.push value }

/-- Takes the topmost value off the stack. -/
def pop : Exec Value := do
  match (← get).stack.back? with
  | none => throw .stackUnderflow
  | some value =>
    modify fun machine => { machine with stack := machine.stack.pop }
    return value

/-- Takes values off the stack, the topmost first. -/
def popMany : Nat → Exec (List Value)
  | 0 => return []
  | count + 1 => do
    let first ← pop
    return first :: (← popMany count)

/-- Puts values on the stack, the first one lowest. -/
def pushMany : List Value → Exec Unit
  | [] => return ()
  | first :: rest => do
    push first
    pushMany rest

/-- Moves on to the next byte and reads it. -/
def readByte : Exec UInt8 := do
  modify fun machine => { machine with ip := machine.ip + 1 }
  let machine ← get
  if machine.ip < 0 then
    throw (.outOfRange machine.ip)
  match machine.code.bytes[machine.ip.toNat]? with
  | none => throw (.outOfRange machine.ip)
  | some byte => return byte

/-- Reads the distance of a jump. -/
def readDistance : Exec Int := do
  let high ← readByte
  let low ← readByte
  return Code.wordValue high low

/-- Reads the identifier of a number and looks it up. -/
def readConstant : Exec Float := do
  let id ← readByte
  match (← get).chunk.bind fun chunk => chunk.constants.get? id.toNat with
  | none => throw (.invalidConstant id.toNat)
  | some value => return value

/-- Reads the identifier of a string and looks it up. -/
def readString : Exec String := do
  let id ← readByte
  match (← get).chunk.bind fun chunk => chunk.strings.get? id.toNat with
  | none => throw (.invalidString id.toNat)
  | some value => return value

/-- The position on the stack of a slot of the innermost frame. -/
def position (slot : Nat) : Exec Nat := do
  let machine ← get
  match machine.frames.back? with
  | none => throw (.invalidSlot slot)
  | some frame =>
    if frame + slot < machine.stack.size then
      return frame + slot
    else
      throw (.invalidSlot slot)

/-- Moves the instruction pointer by a distance. -/
def jumpBy (distance : Int) : Exec Unit :=
  modify fun machine => { machine with ip := machine.ip + distance }

/-- Gives a global name a value. -/
def define (name : String) (value : Value) : Exec Unit := modify fun machine =>
  machine.define name value

/-- Combines two numbers. -/
def combine (operator : String) (operation : Float → Float → Value) : Exec Unit := do
  let second ← pop
  let first ← pop
  match first, second with
  | .number x, .number y => push (operation x y)
  | _, _ => throw (.incompatibleOperands operator [first.kind, second.kind])

/-- Compares two values of the same kind. Functions and pointers cannot be
compared; numbers are compared as such, so that one that is none differs from
itself. -/
def equal : Exec Unit := do
  let second ← pop
  let first ← pop
  match first, second with
  | .number x, .number y => push (.bool (x == y))
  | .bool x, .bool y => push (.bool (x == y))
  | .string x, .string y => push (.bool (x == y))
  | .null, .null => push (.bool true)
  | _, _ => throw (.incompatibleOperands "==" [first.kind, second.kind])

/-- Negates a truth value. -/
def not : Exec Unit := do
  match ← pop with
  | .bool value => push (.bool (!value))
  | value => throw (.incompatibleOperands "!" [value.kind])

/-- Negates a number. -/
def negate : Exec Unit := do
  match ← pop with
  | .number value => push (.number (-value))
  | value => throw (.incompatibleOperands "-" [value.kind])

/-- Prints the topmost value. -/
def print : Exec Unit := do
  let value ← pop
  modify fun machine => { machine with output := machine.output.push value.text }

/-- Gives a global variable the topmost value. -/
def setGlobal : Exec Unit := do
  let name ← readString
  let value ← pop
  define name value

/-- Fetches a global variable. -/
def getGlobal : Exec Unit := do
  let name ← readString
  match (← get).globals.find? name with
  | none => throw (.variableNotDefined name)
  | some value => push value

/-- Gives a local variable the topmost value. -/
def setLocal : Exec Unit := do
  let slot ← readByte
  let value ← pop
  let place ← position slot.toNat
  modify fun machine => { machine with stack := machine.stack.setIfInBounds place value }

/-- Fetches a local variable. -/
def getLocal : Exec Unit := do
  let slot ← readByte
  let place ← position slot.toNat
  match (← get).stack[place]? with
  | none => throw (.invalidSlot slot.toNat)
  | some value => push value

/-- Jumps. -/
def jump : Exec Unit := do jumpBy (← readDistance)

/-- Jumps if the topmost value is false. -/
def jumpIfFalse : Exec Unit := do
  let distance ← readDistance
  match ← pop with
  | .bool true => return ()
  | .bool false => jumpBy distance
  | value => throw (.incompatibleOperands "if" [value.kind])

/-- Defines a function. -/
def defineFunction : Exec Unit := do
  let name ← readString
  let arity ← readByte
  let start ← readByte
  define name (.function { name, arity := arity.toNat, start := start.toNat })

/-- Calls a function. The return address goes below the arguments, which are
taken off the stack and put back for that. -/
def invoke : Exec Unit := do
  let name ← readString
  let given ← readByte
  match (← get).globals.find? name with
  | none => throw (.functionNotDefined name)
  | some (.function function) =>
    if (given.toNat : Int) ≠ function.arity then
      throw (.arityMismatch name function.arity given.toNat)
    let machine ← get
    if machine.frameLimit ≤ machine.frames.size then
      throw .frameOverflow
    let arguments ← popMany given.toNat
    push (.pointer machine.ip)
    modify fun machine => { machine with frames := machine.frames.push machine.stack.size }
    pushMany arguments.reverse
    modify fun machine => { machine with ip := function.start - 1 }
  | some value => throw (.notCallable name value.kind)

/-- Returns from a function with the topmost value. -/
def ret : Exec Unit := do
  let result ← pop
  match (← get).frames.back? with
  | none => throw .noFrame
  | some frame =>
    modify fun machine =>
      { machine with
        frames := machine.frames.pop
        stack := machine.stack.extract 0 frame }
    match ← pop with
    | .pointer target =>
      push result
      modify fun machine => { machine with ip := target }
    | _ => throw .noReturnAddress

/-- Stops the machine. -/
def exit : Exec Unit := modify fun machine => { machine with halted := true }

/-- Carries out the instruction with a given opcode. -/
def instruction : Opcode → Exec Unit
  | .print => print
  | .add => combine "+" fun x y => .number (x + y)
  | .sub => combine "-" fun x y => .number (x - y)
  | .mul => combine "*" fun x y => .number (x * y)
  | .div => combine "/" fun x y => .number (x / y)
  | .mod => combine "%" fun x y => .number (Number.remainder x y)
  | .eq => equal
  | .gt => combine ">" fun x y => .bool (y < x)
  | .lt => combine "<" fun x y => .bool (x < y)
  | .not => not
  | .negate => negate
  | .const => do push (.number (← readConstant))
  | .str => do push (.string (← readString))
  | .true => push (.bool true)
  | .false => push (.bool false)
  | .null => push .null
  | .pop => do
    let _ ← pop
  | .setGlobal => setGlobal
  | .getGlobal => getGlobal
  | .deepSet => setLocal
  | .deepGet => getLocal
  | .jmp => jump
  | .jz => jumpIfFalse
  | .func => defineFunction
  | .invoke => invoke
  | .ret => ret
  | .exit => exit

/-- Carries out the instruction at the instruction pointer, whose first byte is
given, and moves on. The pointer may come to rest just after the code. -/
def execute (byte : UInt8) : Exec Unit := do
  match Opcode.ofByte? byte with
  | none => throw (.unknownOpcode byte (← get).ip)
  | some op => instruction op
  if !(← get).halted then
    jumpBy 1
    let machine ← get
    if machine.ip < 0 || machine.code.size < machine.ip then
      throw (.outOfRange machine.ip)

end Exec

namespace Machine

/-- The byte at the instruction pointer, unless the code ends there. -/
def current? (machine : Machine) : Option UInt8 :=
  if machine.ip < 0 then none else machine.code.bytes[machine.ip.toNat]?

/-- Runs one instruction, and says whether the machine can go on. A machine
that is halted stays as it is, and one at the end of its code halts. A fault
halts the machine as well. -/
def step (machine : Machine) : Machine × Except Fault Bool :=
  if machine.halted then (machine, .ok false)
  else
    match machine.current? with
    | none => ({ machine with halted := true }, .ok false)
    | some byte =>
      match Exec.execute byte { machine with offset := machine.ip } with
      | .ok _ after => (after, .ok (!after.halted))
      | .error fault after => ({ after with halted := true }, .error fault)

end Machine

end StackScript
