/-
# Faults

Everything that can go wrong while a program runs. The first seven faults are
mistakes of the program or exceed a limit; the others arise only from code that
no program lowers to.
-/

import StackScript.Machine.Value
import StackScript.Text.Hex

namespace StackScript

/-- Why a run ends early. -/
inductive Fault where
  | variableNotDefined (name : String)
  | functionNotDefined (name : String)
  | notCallable (name : String) (kind : ValueKind)
  | arityMismatch (name : String) (arity given : Int)
  | incompatibleOperands (operator : String) (kinds : List ValueKind)
  | stackOverflow
  | frameOverflow
  | stackUnderflow
  | invalidSlot (slot : Nat)
  | noFrame
  | noReturnAddress
  | invalidConstant (id : Nat)
  | invalidString (id : Nat)
  | outOfRange (ip : Int)
  | unknownOpcode (byte : UInt8) (offset : Int)
deriving DecidableEq, Inhabited, Repr

/-- The wording of a fault. -/
def Fault.message : Fault → String
  | variableNotDefined name => "Variable '" ++ name ++ "' is not defined"
  | functionNotDefined name => "Function '" ++ name ++ "' is not defined"
  | notCallable name kind => "'" ++ name ++ "' is a " ++ kind.name ++ ", not a function"
  | arityMismatch name arity given =>
    "Function '" ++ name ++ "' expects " ++ toString arity ++ " argument(s) but got " ++
      toString given
  | incompatibleOperands operator kinds =>
    "Incompatible operand type(s) for " ++ operator ++ ": " ++
      String.intercalate ", " (kinds.map ValueKind.name)
  | stackOverflow => "Stack overflow"
  | frameOverflow => "Too many nested calls"
  | stackUnderflow => "Stack underflow"
  | invalidSlot slot => "Invalid stack slot " ++ toString slot
  | noFrame => "Invalid return: no active call frame"
  | noReturnAddress => "Invalid return: missing return address"
  | invalidConstant id => "Invalid constant pool index " ++ toString id
  | invalidString id => "Invalid string pool index " ++ toString id
  | outOfRange ip => "Instruction pointer " ++ toString ip ++ " out of range"
  | unknownOpcode byte offset =>
    "Unknown opcode " ++ Text.byteText byte ++ " at offset " ++ toString offset

end StackScript
