/-
# Encoding

The bytes of one instruction, and how they read back. An instruction whose
operands fit its opcode is found again by decoding, whatever follows it; the
distance of a jump is found again in its two bytes. The other way round, what
is read as an instruction is written with the same bytes.
-/

import StackScript.Code.Decode

namespace StackScript.Code

/-- Do operands fit an opcode, in number and in size? -/
def Fits (op : Opcode) (operands : List Int) : Prop :=
  operands.length = op.operands.length ∧ (operandsBytes op.operands operands).2 = none

/-- The bytes of an instruction. -/
def instructionBytes (op : Opcode) (operands : List Int) : List UInt8 :=
  op.byte :: (operandsBytes op.operands operands).1

theorem wordValue_of_word {word : Nat} (h : word < 0x10000) :
    wordValue (UInt8.ofNat (word / 0x100)) (UInt8.ofNat (word % 0x100)) =
      if word < 0x8000 then (word : Int) else word - 0x10000 := by
  have high : (UInt8.ofNat (word / 0x100)).toNat = word / 0x100 := by
    rw [UInt8.toNat_ofNat']
    omega
  have low : (UInt8.ofNat (word % 0x100)).toNat = word % 0x100 := by
    rw [UInt8.toNat_ofNat']
    omega
  have whole : word / 0x100 * 0x100 + word % 0x100 = word := by omega
  simp only [wordValue, high, low, whole]

/-- A number that fits two bytes is found again in them. -/
theorem wordBytes_eq {value : Int} (h : isWord value) :
    ∃ high low, wordBytes value = [high, low] ∧ wordValue high low = value := by
  refine ⟨_, _, rfl, ?_⟩
  simp only [isWord, Bool.and_eq_true, decide_eq_true_eq] at h
  rw [wordValue_of_word (by omega)]
  split <;> omega

/-- The two bytes of a number are found again from it. -/
theorem wordBytes_wordValue (high low : UInt8) :
    isWord (wordValue high low) ∧ wordBytes (wordValue high low) = [high, low] := by
  have highBound := high.toNat_lt
  have lowBound := low.toNat_lt
  have word : (wordValue high low % 0x10000).toNat = high.toNat * 0x100 + low.toNat := by
    unfold wordValue
    dsimp only
    split <;> omega
  have bytes (byte : UInt8) {value : Nat} (same : value = byte.toNat) : UInt8.ofNat value = byte := by
    rw [same, UInt8.ofNat_toNat]
  constructor
  · unfold isWord wordValue
    dsimp only
    simp only [Bool.and_eq_true, decide_eq_true_eq]
    split <;> omega
  · rw [wordBytes, word, bytes high (by omega), bytes low (by omega)]

@[simp] theorem length_wordBytes (value : Int) : (wordBytes value).length = 2 := rfl

/-- A number that fits one byte is found again in it. -/
theorem operandBytes_u8 {value : Int} {bytes : List UInt8}
    (h : operandBytes .u8 value = .ok bytes) :
    ∃ byte : UInt8, bytes = [byte] ∧ (byte.toNat : Int) = value := by
  simp only [operandBytes] at h
  split at h
  · rename_i range
    simp only [Bool.and_eq_true, decide_eq_true_eq] at range
    refine ⟨UInt8.ofNat value.toNat, (Except.ok.inj h).symm, ?_⟩
    rw [UInt8.toNat_ofNat']
    omega
  · cases h

theorem operandBytes_i16 {value : Int} {bytes : List UInt8}
    (h : operandBytes .i16 value = .ok bytes) :
    ∃ high low, bytes = [high, low] ∧ wordValue high low = value := by
  simp only [operandBytes] at h
  split at h
  · rename_i range
    obtain ⟨high, low, same, value_eq⟩ := wordBytes_eq range
    exact ⟨high, low, (Except.ok.inj h).symm.trans same, value_eq⟩
  · cases h

/-- Operands that fit are encoded one after the other. -/
theorem operandsBytes_cons {kind : OperandKind} {kinds : List OperandKind} {value : Int}
    {values : List Int} (h : (operandsBytes (kind :: kinds) (value :: values)).2 = none) :
    ∃ bytes, operandBytes kind value = .ok bytes ∧
      (operandsBytes (kind :: kinds) (value :: values)).1 =
        bytes ++ (operandsBytes kinds values).1 ∧
      (operandsBytes kinds values).2 = none := by
  rw [operandsBytes] at h ⊢
  cases found : operandBytes kind value with
  | error fault => simp [found] at h
  | ok bytes =>
      rw [found] at h
      exact ⟨bytes, rfl, rfl, h⟩

/-- Operands of one byte each are found again in their bytes. -/
theorem operandsBytes_u8 {values : List Nat}
    (h : (operandsBytes (values.map fun _ => .u8) (values.map Int.ofNat)).2 = none) :
    (operandsBytes (values.map fun _ => .u8) (values.map Int.ofNat)).1.map UInt8.toNat =
      values := by
  induction values with
  | nil => rfl
  | cons value values ih =>
      obtain ⟨bytes, found, same, fits⟩ := operandsBytes_cons h
      obtain ⟨byte, rfl, back⟩ := operandBytes_u8 found
      simp only [List.map_cons] at same ⊢
      rw [same, List.map_append, ih fits]
      simp only [List.map_cons, List.map_nil, List.cons_append, List.nil_append, List.cons.injEq,
        and_true]
      exact Int.natCast_inj.mp back

/-- Reading operands undoes writing them. -/
theorem readOperands_operandsBytes {kinds : List OperandKind} {values : List Int}
    (count : values.length = kinds.length) (h : (operandsBytes kinds values).2 = none)
    (rest : List UInt8) :
    readOperands kinds ((operandsBytes kinds values).1 ++ rest) = some (values, rest) ∧
      (operandsBytes kinds values).1.length = OperandKind.widths kinds := by
  induction kinds generalizing values with
  | nil =>
      cases values with
      | nil => exact ⟨rfl, rfl⟩
      | cons value values => simp at count
  | cons kind kinds ih =>
      cases values with
      | nil => simp at count
      | cons value values =>
          obtain ⟨bytes, found, same, fits⟩ := operandsBytes_cons h
          obtain ⟨back, width⟩ := ih (Nat.succ.inj count) fits
          rw [same]
          cases kind with
          | u8 =>
              obtain ⟨byte, rfl, rfl⟩ := operandBytes_u8 found
              simp [readOperands, back, OperandKind.widths, OperandKind.width, width, Nat.add_comm]
          | i16 =>
              obtain ⟨high, low, rfl, rfl⟩ := operandBytes_i16 found
              simp only [List.cons_append, List.nil_append, readOperands, back, Option.map_some,
                List.length_cons, width, OperandKind.widths, OperandKind.width, true_and]
              omega

variable {op : Opcode} {operands : List Int}

theorem length_instructionBytes (h : Fits op operands) :
    (instructionBytes op operands).length = op.size := by
  rw [instructionBytes, List.length_cons, (readOperands_operandsBytes h.1 h.2 []).2, Opcode.size,
    Nat.add_comm]

/-- Decoding finds an instruction again and goes on behind it. -/
theorem decodeBytes_instructionBytes (h : Fits op operands) (offset : Nat) (rest : List UInt8) :
    decodeBytes offset (instructionBytes op operands ++ rest) =
      { decodeBytes (offset + op.size) rest with
        entries := (offset, .instruction op operands) ::
          (decodeBytes (offset + op.size) rest).entries } := by
  have entry : readEntry op.byte ((operandsBytes op.operands operands).1 ++ rest) =
      some (.instruction op operands, rest) := by
    simp [readEntry, (readOperands_operandsBytes h.1 h.2 rest).1]
  rw [instructionBytes, List.cons_append, decodeBytes]
  split
  · rename_i none_found
    rw [entry] at none_found
    cases none_found
  · rename_i found_entry found_rest found
    rw [entry] at found
    obtain ⟨rfl, rfl⟩ := Prod.mk.inj (Option.some.inj found)
    rfl

/-- What has been read as an operand is written with the bytes it was read from. -/
theorem operandsBytes_of_readOperands {kinds : List OperandKind} {bytes rest : List UInt8}
    {values : List Int} (h : readOperands kinds bytes = some (values, rest)) :
    values.length = kinds.length ∧ (operandsBytes kinds values).2 = none ∧
      (operandsBytes kinds values).1 ++ rest = bytes := by
  fun_induction readOperands kinds bytes generalizing values with
  | case1 =>
      obtain ⟨rfl, rfl⟩ := Prod.mk.inj (Option.some.inj h)
      exact ⟨rfl, rfl, rfl⟩
  | case2 kinds byte bytes ih =>
      obtain ⟨⟨more, rest'⟩, found, same⟩ := Option.map_eq_some_iff.mp h
      obtain ⟨rfl, rfl⟩ := Prod.mk.inj same
      obtain ⟨count, fits, back⟩ := ih found
      have first : operandBytes .u8 byte.toNat = .ok [byte] := by
        have small : (byte.toNat : Int) < 0x100 := Int.ofNat_lt.mpr byte.toNat_lt
        simp [operandBytes, small]
      simp [operandsBytes, first, count, fits, back]
  | case3 kinds high low bytes ih =>
      obtain ⟨⟨more, rest'⟩, found, same⟩ := Option.map_eq_some_iff.mp h
      obtain ⟨rfl, rfl⟩ := Prod.mk.inj same
      obtain ⟨count, fits, back⟩ := ih found
      have first : operandBytes .i16 (wordValue high low) = .ok [high, low] := by
        obtain ⟨range, same⟩ := wordBytes_wordValue high low
        simp [operandBytes, range, same]
      simp [operandsBytes, first, count, fits, back]
  | case4 => cases h

theorem readEntry_instruction {byte : UInt8} {bytes rest : List UInt8}
    (h : readEntry byte bytes = some (.instruction op operands, rest)) :
    Opcode.ofByte? byte = some op ∧ readOperands op.operands bytes = some (operands, rest) := by
  unfold readEntry at h
  split at h
  · cases h
  · rename_i found
    obtain ⟨⟨values, rest'⟩, read, same⟩ := Option.map_eq_some_iff.mp h
    cases same
    exact ⟨found, read⟩

theorem readEntry_unknown {byte other : UInt8} {bytes rest : List UInt8}
    (h : readEntry byte bytes = some (.unknown other, rest)) :
    other = byte ∧ Opcode.ofByte? byte = none := by
  unfold readEntry at h
  split at h
  · rename_i missing
    cases h
    exact ⟨rfl, missing⟩
  · obtain ⟨⟨values, rest'⟩, -, same⟩ := Option.map_eq_some_iff.mp h
    cases same

/-- What has been read as an instruction is written with the bytes it was read from. -/
theorem instructionBytes_of_readEntry {byte : UInt8} {bytes rest : List UInt8}
    (h : readEntry byte bytes = some (.instruction op operands, rest)) :
    Fits op operands ∧ instructionBytes op operands ++ rest = byte :: bytes := by
  obtain ⟨found, read⟩ := readEntry_instruction h
  obtain ⟨count, fits, back⟩ := operandsBytes_of_readOperands read
  refine ⟨⟨count, fits⟩, ?_⟩
  rw [instructionBytes, List.cons_append, back, Opcode.byte_of_ofByte? found]

/-- Appending succeeds exactly when the operands fit, and adds their bytes. -/
theorem append_eq_ok {code later : Code} {offset : Nat} :
    code.append op operands = (later, .ok offset) ↔
      Fits op operands ∧ later.bytes = code.bytes ++ instructionBytes op operands ∧
        offset = code.size := by
  obtain ⟨bytes⟩ := later
  unfold append Fits instructionBytes
  split
  · rename_i wrong
    simp [wrong]
  · rename_i count
    generalize operandsBytes op.operands operands = result
    obtain ⟨more, fault⟩ := result
    cases fault with
    | none => simp_all [eq_comm]
    | some fault => simp

end StackScript.Code
