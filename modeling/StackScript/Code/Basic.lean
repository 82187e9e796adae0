/-
# Code

Code grows at its end, one instruction at a time, and can be cut back to an
earlier length. The distance of a jump may be written again later, when its
target is known.

An instruction whose operands do not fit its opcode is a mistake of the
caller. It is reported, and the bytes before the operand that does not fit
have then been appended already.
-/

import StackScript.Code.Opcode

namespace StackScript

/-- A row of instructions as bytes. -/
structure Code where
  bytes : Array UInt8
deriving DecidableEq, Inhabited, Repr

/-- What a caller can get wrong. -/
inductive Code.Fault where
  | operandCount
  | byteRange
  | wordRange
  | outside
  | notJump
  | jumpRange
deriving DecidableEq, Inhabited, Repr

namespace Code

/-- No code. -/
def empty : Code := ⟨#[]⟩

/-- The number of bytes, which is the offset of the next instruction. -/
def size (code : Code) : Nat := code.bytes.size

/-- Does a number fit two bytes with a sign? -/
def isWord (value : Int) : Bool := -0x8000 ≤ value && value < 0x8000

/-- The two bytes of a number that fits, the high byte first. -/
def wordBytes (value : Int) : List UInt8 :=
  let word := (value % 0x10000).toNat
  [UInt8.ofNat (word / 0x100), UInt8.ofNat (word % 0x100)]

/-- The number in two bytes. -/
def wordValue (high low : UInt8) : Int :=
  let word := high.toNat * 0x100 + low.toNat
  if word < 0x8000 then word else word - 0x10000

/-- The bytes of one operand. -/
def operandBytes : OperandKind → Int → Except Fault (List UInt8)
  | .u8, value =>
    if 0 ≤ value && value < 0x100 then .ok [UInt8.ofNat value.toNat] else .error .byteRange
  | .i16, value => if isWord value then .ok (wordBytes value) else .error .wordRange

/-- The bytes of some operands, up to the first that does not fit its form. -/
def operandsBytes : List OperandKind → List Int → List UInt8 × Option Fault
  | kind :: kinds, value :: values =>
    match operandBytes kind value with
    | .error fault => ([], some fault)
    | .ok bytes =>
      let (more, fault) := operandsBytes kinds values
      (bytes ++ more, fault)
  | _, _ => ([], none)

/-- Appends an instruction and gives its offset. -/
def append (code : Code) (op : Opcode) (operands : List Int) : Code × Except Fault Nat :=
  if operands.length ≠ op.operands.length then (code, .error .operandCount)
  else
    let offset := code.size
    let (bytes, fault) := operandsBytes op.operands operands
    let grown : Code := ⟨code.bytes.push op.byte ++ bytes⟩
    match fault with
    | some fault => (grown, .error fault)
    | none => (grown, .ok offset)

/-- Is there a jump at an offset? -/
def isJumpByte (byte : UInt8) : Bool := (Opcode.ofByte? byte).any Opcode.isJump

/-- Writes the distance of the jump at an offset, counted from the byte after
it. Where the code ends within the jump, it grows. -/
def patch (code : Code) (offset : Nat) (distance : Int) : Except Fault Code :=
  match code.bytes[offset]? with
  | none => .error .outside
  | some byte =>
    if !isJumpByte byte then .error .notJump
    else if !isWord distance then .error .jumpRange
    else
      let before := code.bytes.extract 0 (offset + 1)
      let after := code.bytes.extract (offset + 3) code.size
      .ok ⟨before ++ wordBytes distance ++ after⟩

/-- Cuts the code back to a length. -/
def truncate (code : Code) (length : Nat) : Code := ⟨code.bytes.extract 0 length⟩

end Code

end StackScript
