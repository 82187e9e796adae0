/-
# Decoded code covers its bytes

Reading any bytes as instructions loses none of them. What is found lies side by side from the
offset where reading starts, and appending it again piece by piece gives the same bytes back. Only
an instruction that the code is too short for stops reading before the end, and its first byte is
where the pieces end.
-/

import StackScript.Proofs.Code.Encoding

namespace StackScript.Code

/-- Appends one decoded piece: an instruction with its operands, an unknown byte as it is. -/
def add (code : Code) : Entry → Except Fault Code
  | .instruction op operands => (code.append op operands).2.map fun _ => (code.append op operands).1
  | .unknown byte => .ok ⟨code.bytes.push byte⟩

/-- Appends decoded pieces one after the other. -/
def addAll (code : Code) : List Entry → Except Fault Code
  | [] => .ok code
  | entry :: more => do (← code.add entry).addAll more

/-- Pieces that lie side by side from one offset to another. -/
def Tiles (start : Nat) : List (Nat × Entry) → Nat → Prop
  | [], stop => start = stop
  | (offset, entry) :: more, stop => offset = start ∧ Tiles (start + entry.size) more stop

/-- Is there an instruction at an offset that the code is too short for? -/
def Incomplete (code : Code) (offset : Nat) : Prop :=
  ∃ byte op, code.bytes[offset]? = some byte ∧ Opcode.ofByte? byte = some op ∧
    code.size - offset < op.size

/-- What has been decoded from one offset on accounts for every byte up to another. -/
structure Decoding.Covers (found : Decoding) (code : Code) (start stop : Nat) : Prop where
  from_start : start ≤ stop
  within : stop ≤ code.size
  tiles : Tiles start found.entries stop
  restored : empty.addAll (found.entries.map Prod.snd) = .ok ⟨code.bytes.extract start stop⟩
  complete : found.truncated = false ↔ stop = code.size
  broken : found.truncated = true ↔ code.Incomplete stop

/-- The bytes of a decoded piece. -/
def Entry.bytes : Entry → List UInt8
  | .instruction op operands => instructionBytes op operands
  | .unknown byte => [byte]

/-- Is a piece found again in its bytes? -/
def Entry.Fits : Entry → Prop
  | .instruction op operands => Code.Fits op operands
  | .unknown byte => Opcode.ofByte? byte = none

/-- Pieces from one offset on, and the bytes that they come to. -/
inductive Spells : Nat → List (Nat × Entry) → List UInt8 → Prop
  | nil (start : Nat) : Spells start [] []
  | cons {start : Nat} {entry : Entry} {more : List (Nat × Entry)} {bytes : List UInt8} :
      entry.Fits → Spells (start + entry.size) more bytes →
        Spells start ((start, entry) :: more) (entry.bytes ++ bytes)

variable {byte : UInt8} {bytes others rest : List UInt8} {entry : Entry} {start offset : Nat}
  {entries more : List (Nat × Entry)}

theorem Entry.length_bytes (h : entry.Fits) : entry.bytes.length = entry.size := by
  cases entry with
  | instruction op operands => exact length_instructionBytes h
  | unknown byte => rfl

theorem Entry.size_pos (entry : Entry) : 0 < entry.size := by
  cases entry with
  | instruction op operands => exact Nat.lt_of_lt_of_le Nat.one_pos (Nat.le_add_right 1 _)
  | unknown byte => exact Nat.one_pos

theorem add_of_fits (code : Code) (h : entry.Fits) :
    code.add entry = .ok ⟨code.bytes ++ entry.bytes⟩ := by
  cases entry with
  | instruction op operands =>
      have appended : code.append op operands =
          (⟨code.bytes ++ instructionBytes op operands⟩, .ok code.size) :=
        append_eq_ok.mpr ⟨h, rfl, rfl⟩
      rw [add, appended]
      rfl
  | unknown byte => simp [add, Entry.bytes]

/-- What has been read has the bytes it was read from. -/
theorem bytes_of_readEntry (h : readEntry byte bytes = some (entry, rest)) :
    entry.Fits ∧ entry.bytes ++ rest = byte :: bytes := by
  cases entry with
  | instruction op operands => exact instructionBytes_of_readEntry h
  | unknown other =>
      obtain ⟨rfl, missing⟩ := readEntry_unknown h
      rw [readEntry, missing] at h
      cases h
      exact ⟨missing, rfl⟩

/-- Decoding finds a piece in its bytes and goes on behind it. -/
theorem decodeBytes_bytes (h : entry.Fits) (offset : Nat) (rest : List UInt8) :
    decodeBytes offset (entry.bytes ++ rest) =
      { decodeBytes (offset + entry.size) rest with
        entries := (offset, entry) :: (decodeBytes (offset + entry.size) rest).entries } := by
  cases entry with
  | instruction op operands => exact decodeBytes_instructionBytes h offset rest
  | unknown byte =>
      have read : readEntry byte rest = some (.unknown byte, rest) := by rw [readEntry, h]
      rw [Entry.bytes, List.singleton_append, decodeBytes]
      split
      · rename_i broken
        rw [read] at broken
        cases broken
      · rename_i other behind found
        rw [read] at found
        cases found
        rfl

namespace Spells

theorem tiles (h : Spells start entries bytes) : Tiles start entries (start + bytes.length) := by
  induction h with
  | nil start => exact rfl
  | cons fits spells ih =>
      rw [List.length_append, Entry.length_bytes fits, ← Nat.add_assoc]
      exact ⟨rfl, ih⟩

theorem addAll (h : Spells start entries bytes) (code : Code) :
    code.addAll (entries.map Prod.snd) = .ok ⟨code.bytes ++ bytes⟩ := by
  induction h generalizing code with
  | nil start => simp [Code.addAll]
  | @cons start entry more bytes fits spells ih =>
      rw [List.map_cons, Code.addAll, add_of_fits code fits]
      apply (ih ⟨code.bytes ++ entry.bytes⟩).trans
      apply congrArg (Except.ok ∘ Code.mk)
      apply Array.ext'
      simp

theorem append (h : Spells start entries bytes) (next : Spells (start + bytes.length) more others) :
    Spells start (entries ++ more) (bytes ++ others) := by
  induction h with
  | nil start => exact next
  | cons fits spells ih =>
      rw [List.cons_append, List.append_assoc]
      apply Spells.cons fits
      apply ih
      rw [List.length_append, Entry.length_bytes fits, ← Nat.add_assoc] at next
      exact next

/-- Pieces start within the bytes. -/
theorem within (h : Spells start entries bytes) (mem : (offset, entry) ∈ entries) :
    start ≤ offset ∧ offset < start + bytes.length := by
  induction h with
  | nil start => cases mem
  | @cons start first more bytes fits spells ih =>
      rw [List.length_append, Entry.length_bytes fits]
      have positive := first.size_pos
      cases mem with
      | head => omega
      | tail _ mem =>
          have inside := ih mem
          omega

/-- Where a piece stands among others, its bytes stand among theirs. -/
theorem split {front : List (Nat × Entry)}
    (h : Spells start (front ++ (offset, entry) :: more) bytes) :
    ∃ before behind, bytes = before ++ (entry.bytes ++ behind) ∧ offset = start + before.length ∧
      entry.Fits ∧ Spells start front before ∧ Spells (offset + entry.size) more behind := by
  induction front generalizing start bytes with
  | nil =>
      cases h with
      | cons fits spells => exact ⟨[], _, rfl, rfl, fits, .nil _, spells⟩
  | cons first front ih =>
      cases h with
      | cons firstFits spells =>
          obtain ⟨before, behind, rfl, place, fits, left, right⟩ := ih spells
          refine ⟨_ ++ before, behind, by rw [List.append_assoc], ?_, fits, .cons firstFits left, right⟩
          rw [place, List.length_append, Entry.length_bytes firstFits, Nat.add_assoc]

/-- Decoding finds pieces in their bytes. -/
theorem decodeBytes (h : Spells start entries bytes) :
    decodeBytes start bytes = ⟨entries, false⟩ := by
  induction h with
  | nil start => rw [Code.decodeBytes]
  | cons fits spells ih => rw [decodeBytes_bytes fits, ih]

end Spells

/-- Operands are missing exactly where there are too few bytes for them. -/
theorem readOperands_eq_none {kinds : List OperandKind} :
    readOperands kinds bytes = none ↔ bytes.length < OperandKind.widths kinds := by
  induction kinds generalizing bytes with
  | nil => simp [readOperands, OperandKind.widths]
  | cons kind kinds ih =>
      rw [OperandKind.widths]
      cases kind with
      | u8 =>
          rw [OperandKind.width]
          cases bytes with
          | nil => exact iff_of_true rfl (by rw [List.length_nil]; omega)
          | cons byte bytes =>
              rw [readOperands, Option.map_eq_none_iff, ih, List.length_cons]
              omega
      | i16 =>
          rw [OperandKind.width]
          rcases bytes with _ | ⟨high, _ | ⟨low, bytes⟩⟩
          · exact iff_of_true rfl (by rw [List.length_nil]; omega)
          · exact iff_of_true rfl (by rw [List.length_singleton]; omega)
          · rw [readOperands, Option.map_eq_none_iff, ih, List.length_cons, List.length_cons]
            omega

theorem readEntry_eq_none :
    readEntry byte bytes = none ↔
      ∃ op, Opcode.ofByte? byte = some op ∧ bytes.length + 1 < op.size := by
  unfold readEntry
  split
  · rename_i missing
    simp [missing]
  · rename_i op found
    simp only [Option.map_eq_none_iff, readOperands_eq_none, found, Option.some.injEq,
      exists_eq_left', Opcode.size]
    omega

/-- Reading splits bytes into those of the pieces and a tail. The tail is empty, or starts an
instruction that it is too short for. -/
theorem decodeBytes_splits (offset : Nat) (all : List UInt8) :
    ∃ bytes tail, bytes ++ tail = all ∧ Spells offset (decodeBytes offset all).entries bytes ∧
      if (decodeBytes offset all).truncated then
        ∃ byte more, tail = byte :: more ∧ readEntry byte more = none
      else tail = [] := by
  fun_induction decodeBytes offset all with
  | case1 offset => exact ⟨[], [], rfl, .nil offset, rfl⟩
  | case2 offset byte more broken => exact ⟨[], byte :: more, rfl, .nil offset, byte, more, rfl, broken⟩
  | case3 offset byte more entry rest read shorter following ih =>
      obtain ⟨fits, same⟩ := bytes_of_readEntry read
      obtain ⟨bytes, tail, split, spells, ending⟩ := ih
      refine ⟨entry.bytes ++ bytes, tail, ?_, .cons fits spells, ending⟩
      rw [List.append_assoc, split, same]

/-- The code is too short at an offset where no entry can be read from what is left of it. -/
theorem incomplete_iff {code : Code} {offset : Nat} {tail : List UInt8}
    (h : code.bytes.toList.drop offset = tail) :
    code.Incomplete offset ↔ ∃ byte more, tail = byte :: more ∧ readEntry byte more = none := by
  have length : tail.length = code.size - offset := by rw [← h, List.length_drop]; rfl
  have first : code.bytes[offset]? = tail.head? := by
    rw [← h, List.head?_drop, Array.getElem?_toList]
  unfold Incomplete
  rw [first, ← length]
  cases tail with
  | nil => simp
  | cons byte more => simp [readEntry_eq_none, and_assoc]

/-- Decoding bytes from any offset within them on covers them up to the end, or up to an
instruction that is cut short. -/
theorem decode_covers (code : Code) {start : Nat} (h : start ≤ code.size) :
    ∃ stop, (code.decode start).Covers code start stop := by
  obtain ⟨bytes, tail, split, spells, ending⟩ :=
    decodeBytes_splits start (code.bytes.toList.drop start)
  rw [← decode] at spells ending
  generalize code.decode start = found at spells ending
  have length : bytes.length + tail.length = code.size - start := by
    rw [← List.length_append, split, List.length_drop]
    rfl
  have between : code.bytes.extract start (start + bytes.length) = bytes.toArray := by
    apply Array.ext'
    rw [Array.toList_extract, List.extract_eq_take_drop, Nat.add_sub_cancel_left, ← split,
      List.take_left]
  have behind : code.bytes.toList.drop (start + bytes.length) = tail := by
    rw [← List.drop_drop, ← split, List.drop_left]
  refine ⟨start + bytes.length, by omega, by omega, spells.tiles, ?_, ?_, ?_⟩
  · rw [spells.addAll, between]
    simp [empty]
  · cases broken : found.truncated with
    | true =>
        rw [broken] at ending
        obtain ⟨byte, more, rfl, -⟩ := ending
        rw [List.length_cons] at length
        exact iff_of_false nofun (by omega)
    | false =>
        rw [broken] at ending
        subst ending
        rw [List.length_nil] at length
        exact iff_of_true rfl (by omega)
  · rw [incomplete_iff behind]
    cases broken : found.truncated with
    | true =>
        rw [broken] at ending
        exact iff_of_true rfl ending
    | false =>
        rw [broken] at ending
        subst ending
        exact iff_of_false nofun nofun

/-- A constant, an unknown byte and a jump that is cut short. -/
theorem decode_covers_cutShort :
    1 ≤ size ⟨#[1, 12, 200, 255, 22, 0]⟩ ∧
      ∃ stop, (decode ⟨#[1, 12, 200, 255, 22, 0]⟩ 1).Covers ⟨#[1, 12, 200, 255, 22, 0]⟩ 1 stop :=
  ⟨by decide, decode_covers ⟨#[1, 12, 200, 255, 22, 0]⟩ (by decide)⟩

end StackScript.Code
