/-
# Opcodes

The instruction set of the stack machine. An instruction is one byte for its
opcode followed by the operands, of which each opcode has a fixed number.
-/

namespace StackScript

/-- What an instruction does. -/
inductive Opcode where
  | print
  | add | sub | mul | div | mod
  | eq | gt | lt | not | negate
  | const | str | true | false | null | pop
  | setGlobal | getGlobal | deepSet | deepGet
  | jmp | jz
  | func | invoke | ret
  | exit
deriving DecidableEq, Inhabited, Repr

/-- The forms of operands: an unsigned byte, or a signed number in two bytes
with the high byte first. -/
inductive OperandKind where
  | u8 | i16
deriving DecidableEq, Inhabited, Repr

/-- The number of bytes of an operand. -/
def OperandKind.width : OperandKind → Nat
  | u8 => 1
  | i16 => 2

/-- The number of bytes of several operands. -/
def OperandKind.widths : List OperandKind → Nat
  | [] => 0
  | kind :: kinds => kind.width + widths kinds

namespace Opcode

/-- Every opcode, in the order of their bytes. -/
def all : List Opcode :=
  [print, add, sub, mul, div, mod, eq, gt, lt, not, negate, const, str, .true, .false, null, pop,
    setGlobal, getGlobal, deepSet, deepGet, jmp, jz, func, invoke, ret, exit]

/-- The byte of an opcode. -/
def byte : Opcode → UInt8
  | print => 1
  | add => 2
  | sub => 3
  | mul => 4
  | div => 5
  | mod => 6
  | eq => 7
  | gt => 8
  | lt => 9
  | not => 10
  | negate => 11
  | const => 12
  | str => 13
  | .true => 14
  | .false => 15
  | null => 16
  | pop => 17
  | setGlobal => 18
  | getGlobal => 19
  | deepSet => 20
  | deepGet => 21
  | jmp => 22
  | jz => 23
  | func => 24
  | invoke => 25
  | ret => 26
  | exit => 27

/-- The opcode of a byte, if it has one. -/
def ofByte? (byte : UInt8) : Option Opcode :=
  match byte.toNat with
  | 1 => some print
  | 2 => some add
  | 3 => some sub
  | 4 => some mul
  | 5 => some div
  | 6 => some mod
  | 7 => some eq
  | 8 => some gt
  | 9 => some lt
  | 10 => some not
  | 11 => some negate
  | 12 => some const
  | 13 => some str
  | 14 => some .true
  | 15 => some .false
  | 16 => some null
  | 17 => some pop
  | 18 => some setGlobal
  | 19 => some getGlobal
  | 20 => some deepSet
  | 21 => some deepGet
  | 22 => some jmp
  | 23 => some jz
  | 24 => some func
  | 25 => some invoke
  | 26 => some ret
  | 27 => some exit
  | _ => none

/-- The name of an opcode in listings. -/
def name : Opcode → String
  | print => "PRINT"
  | add => "ADD"
  | sub => "SUB"
  | mul => "MUL"
  | div => "DIV"
  | mod => "MOD"
  | eq => "EQ"
  | gt => "GT"
  | lt => "LT"
  | not => "NOT"
  | negate => "NEGATE"
  | const => "CONST"
  | str => "STR"
  | .true => "TRUE"
  | .false => "FALSE"
  | null => "NULL"
  | pop => "POP"
  | setGlobal => "SET_GLOBAL"
  | getGlobal => "GET_GLOBAL"
  | deepSet => "DEEP_SET"
  | deepGet => "DEEP_GET"
  | jmp => "JMP"
  | jz => "JZ"
  | func => "FUNC"
  | invoke => "INVOKE"
  | ret => "RET"
  | exit => "EXIT"

/-- The operands of an opcode. -/
def operands : Opcode → List OperandKind
  | const | str | setGlobal | getGlobal | deepSet | deepGet => [.u8]
  | jmp | jz => [.i16]
  | func => [.u8, .u8, .u8]
  | invoke => [.u8, .u8]
  | _ => []

/-- The number of bytes of an instruction. -/
def size (op : Opcode) : Nat := 1 + OperandKind.widths op.operands

/-- Is the operand of this instruction the distance of a jump? -/
def isJump : Opcode → Bool
  | jmp | jz => Bool.true
  | _ => Bool.false

@[simp] theorem ofByte?_byte (op : Opcode) : ofByte? op.byte = some op := by cases op <;> rfl

/-- Only its own byte stands for an opcode. -/
theorem byte_of_ofByte? {byte : UInt8} {op : Opcode} (h : ofByte? byte = some op) :
    op.byte = byte := by
  apply UInt8.toNat_inj.mp
  unfold ofByte? at h
  split at h <;> cases h <;> (rename_i same; exact same.symm)

end Opcode

end StackScript
