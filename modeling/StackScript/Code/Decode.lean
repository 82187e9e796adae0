/-
# Decoding

Any row of bytes can be read as instructions from any offset. A byte that is
no opcode is an entry of its own, and reading goes on with the next byte. The
only obstacle is an instruction whose operands the code is too short for.
-/

import StackScript.Code.Basic

namespace StackScript.Code

/-- One decoded piece of code. -/
inductive Entry where
  | instruction (op : Opcode) (operands : List Int)
  | unknown (byte : UInt8)
deriving DecidableEq, Repr

/-- The number of bytes of an entry. -/
def Entry.size : Entry → Nat
  | instruction op _ => op.size
  | unknown _ => 1

/-- Reads operands; there are none if the bytes do not suffice. -/
def readOperands : List OperandKind → List UInt8 → Option (List Int × List UInt8)
  | [], bytes => some ([], bytes)
  | .u8 :: kinds, byte :: bytes =>
    (readOperands kinds bytes).map fun (values, rest) => ((byte.toNat : Int) :: values, rest)
  | .i16 :: kinds, high :: low :: bytes =>
    (readOperands kinds bytes).map fun (values, rest) => (wordValue high low :: values, rest)
  | _, _ => none

/-- Reads the entry that starts with the given byte. -/
def readEntry (byte : UInt8) (bytes : List UInt8) : Option (Entry × List UInt8) :=
  match Opcode.ofByte? byte with
  | none => some (.unknown byte, bytes)
  | some op =>
    (readOperands op.operands bytes).map fun (values, rest) => (.instruction op values, rest)

/-- The entries of some code with their offsets, and whether an incomplete
instruction follows them. -/
structure Decoding where
  entries : List (Nat × Entry)
  truncated : Bool
deriving DecidableEq, Repr

theorem length_of_readOperands {kinds : List OperandKind} {bytes rest : List UInt8}
    {values : List Int} (h : readOperands kinds bytes = some (values, rest)) :
    rest.length ≤ bytes.length := by
  fun_induction readOperands kinds bytes generalizing values with
  | case1 => simp_all
  | case2 kinds byte bytes ih =>
    obtain ⟨⟨more, rest'⟩, found, same⟩ := Option.map_eq_some_iff.mp h
    obtain ⟨rfl, rfl⟩ := Prod.mk.inj same
    exact Nat.le_succ_of_le (ih found)
  | case3 kinds high low bytes ih =>
    obtain ⟨⟨more, rest'⟩, found, same⟩ := Option.map_eq_some_iff.mp h
    obtain ⟨rfl, rfl⟩ := Prod.mk.inj same
    have := ih found
    simp only [List.length_cons]
    omega
  | case4 => simp at h

theorem length_of_readEntry {byte : UInt8} {bytes rest : List UInt8} {entry : Entry}
    (h : readEntry byte bytes = some (entry, rest)) : rest.length ≤ bytes.length := by
  unfold readEntry at h
  split at h
  · simp_all
  · obtain ⟨⟨values, rest'⟩, found, same⟩ := Option.map_eq_some_iff.mp h
    obtain ⟨rfl, rfl⟩ := Prod.mk.inj same
    exact length_of_readOperands found

/-- Reads bytes that start at a known offset. -/
def decodeBytes (offset : Nat) (bytes : List UInt8) : Decoding :=
  match bytes with
  | [] => ⟨[], false⟩
  | byte :: more =>
    match h : readEntry byte more with
    | none => ⟨[], true⟩
    | some (entry, rest) =>
      have : rest.length < (byte :: more).length := Nat.lt_succ_of_le (length_of_readEntry h)
      let following := decodeBytes (offset + entry.size) rest
      { following with entries := (offset, entry) :: following.entries }
termination_by bytes.length
decreasing_by exact this

/-- Reads code from an offset on. -/
def decode (code : Code) (start : Nat) : Decoding :=
  decodeBytes start (code.bytes.toList.drop start)

end StackScript.Code
