/-
# Patched code reads back

Instructions are appended, and the jumps among them are patched at any time afterwards and as often
as wanted. Whatever the order of these calls, decoding finds the instructions again that have been
appended, in their order and at the offsets that appending gave. Each has its own operands, except
that a jump has the last distance that it was patched with and that fits.
-/

import Mathlib.Data.List.Forall2
import StackScript.Proofs.Code.Tiling

namespace StackScript

/-- Is a number in the range of a form of operands? -/
def OperandKind.Holds : OperandKind → Int → Prop
  | u8, value => 0 ≤ value ∧ value ≤ 255
  | i16, value => -32768 ≤ value ∧ value ≤ 32767

instance (kind : OperandKind) (value : Int) : Decidable (kind.Holds value) :=
  match kind with
  | .u8 => inferInstanceAs (Decidable (0 ≤ value ∧ value ≤ 255))
  | .i16 => inferInstanceAs (Decidable (-32768 ≤ value ∧ value ≤ 32767))

namespace Code

/-- Are operands in the ranges that an opcode has for them? -/
def Suits (op : Opcode) (operands : List Int) : Prop :=
  List.Forall₂ OperandKind.Holds op.operands operands

/-- Patches a jump. Patching fails before it writes anything: code for which it fails stays as it
is. -/
def repatch (code : Code) (offset : Nat) (distance : Int) : Code × Except Fault Unit :=
  match code.patch offset distance with
  | .ok later => (later, .ok ())
  | .error fault => (code, .error fault)

/-- A call that changes code, and what it answers. -/
inductive Call where
  | append (op : Opcode) (operands : List Int) (answer : Except Fault Nat)
  | patch (offset : Nat) (distance : Int) (answer : Except Fault Unit)

/-- Has a jump been appended at an offset? -/
def GaveJump (calls : List Call) (offset : Nat) : Prop :=
  ∃ op operands, op.isJump ∧ .append op operands (.ok offset) ∈ calls

/-- Calls in their order and the code they lead to: instructions are appended with operands in
their ranges, and jumps are patched at the offsets they were given, with any distance. -/
inductive History : List Call → Code → Prop
  | nothing : History [] empty
  | append {calls : List Call} {code : Code} {op : Opcode} {operands : List Int} :
      History calls code → Suits op operands →
        History (calls ++ [.append op operands (code.append op operands).2])
          (code.append op operands).1
  | patch {calls : List Call} {code : Code} {offset : Nat} {distance : Int} :
      History calls code → GaveJump calls offset →
        History (calls ++ [.patch offset distance (code.repatch offset distance).2])
          (code.repatch offset distance).1

/-- The distance that a call gives to the jump at an offset, if it fits. -/
def Call.distance? (offset : Nat) : Call → Option Int
  | append _ _ _ => none
  | patch other distance _ =>
    if other = offset ∧ OperandKind.i16.Holds distance then some distance else none

/-- The last distance that fits among those given to the jump at an offset. -/
def lastDistance? (calls : List Call) (offset : Nat) : Option Int :=
  (calls.filterMap (Call.distance? offset)).getLast?

/-- The instruction that a call has appended, in the light of all calls. -/
def Call.entry? (calls : List Call) : Call → Option (Nat × Entry)
  | append op operands (.ok offset) =>
    let patched := if op.isJump then lastDistance? calls offset else none
    some (offset, .instruction op (patched.elim operands fun distance => [distance]))
  | _ => none

/-- The instructions that calls have appended, with their offsets. -/
def written (calls : List Call) : List (Nat × Entry) := calls.filterMap (Call.entry? calls)

/-- Decoding gives back what calls have written, and no call fails for another reason than a
distance out of range, which changes nothing. -/
structure ReadsBack (calls : List Call) (code : Code) : Prop where
  appended : ∀ op operands answer, .append op operands answer ∈ calls →
    ∃ offset, answer = .ok offset
  patched : ∀ offset distance answer, .patch offset distance answer ∈ calls →
    answer = if OperandKind.i16.Holds distance then .ok () else .error .jumpRange
  refused : ∀ offset distance, GaveJump calls offset → ¬ OperandKind.i16.Holds distance →
    code.repatch offset distance = (code, .error .jumpRange)
  whole : code.decode 0 = ⟨written calls, false⟩
  onward : ∀ k offset entry, (written calls)[k]? = some (offset, entry) →
    code.decode offset = ⟨(written calls).drop k, false⟩

theorem isWord_iff (value : Int) : isWord value ↔ OperandKind.i16.Holds value := by
  simp only [isWord, Bool.and_eq_true, decide_eq_true_eq, OperandKind.Holds]
  omega

theorem operandBytes_of_holds {kind : OperandKind} {value : Int} (h : kind.Holds value) :
    ∃ bytes, operandBytes kind value = .ok bytes := by
  cases kind with
  | u8 =>
      have byte : 0 ≤ value ∧ value < 0x100 := ⟨h.1, Int.lt_of_le_sub_one h.2⟩
      exact ⟨[UInt8.ofNat value.toNat], by simp [operandBytes, byte]⟩
  | i16 => exact ⟨wordBytes value, by rw [operandBytes, if_pos ((isWord_iff value).mpr h)]⟩

/-- Operands in their ranges can be written. -/
theorem fits_of_suits {op : Opcode} {operands : List Int} (h : Suits op operands) :
    Fits op operands := by
  unfold Suits at h
  rw [Fits, ← h.length_eq]
  generalize op.operands = kinds at h
  induction h with
  | nil => exact ⟨rfl, rfl⟩
  | cons holds _ ih =>
      obtain ⟨bytes, found⟩ := operandBytes_of_holds holds
      rw [operandsBytes, found]
      exact ⟨rfl, ih.2⟩

variable {calls : List Call} {code : Code} {op : Opcode} {operands : List Int} {offset : Nat}
  {distance : Int}

/-- A jump has one operand, of two bytes. -/
theorem operands_of_isJump (jump : op.isJump) : op.operands = [.i16] := by
  cases op <;> first | rfl | cases jump

theorem suits_jump (jump : op.isJump) :
    Suits op operands ↔ ∃ distance, operands = [distance] ∧ OperandKind.i16.Holds distance := by
  rw [Suits, operands_of_isJump jump, List.forall₂_cons_left_iff]
  simp [and_comm]

/-- The bytes of a jump whose distance fits. -/
theorem instructionBytes_jump (jump : op.isJump) (fits : OperandKind.i16.Holds distance) :
    instructionBytes op [distance] = op.byte :: wordBytes distance := by
  rw [instructionBytes, operands_of_isJump jump]
  simp [operandsBytes, operandBytes, (isWord_iff distance).mpr fits]

/-- Patching writes a jump again, with the new distance, where that fits. -/
theorem patch_jump {before behind : List UInt8} {old : Int} (jump : op.isJump)
    (held : OperandKind.i16.Holds old)
    (h : code.bytes.toList = before ++ (instructionBytes op [old] ++ behind)) :
    code.patch before.length distance =
      if OperandKind.i16.Holds distance then
        .ok ⟨(before ++ (instructionBytes op [distance] ++ behind)).toArray⟩
      else .error .jumpRange := by
  rw [instructionBytes_jump jump held] at h
  have byte : code.bytes[before.length]? = some op.byte := by
    rw [← Array.getElem?_toList, h]
    simp
  have isJumpByte : isJumpByte op.byte = true := by
    rw [Code.isJumpByte, Opcode.ofByte?_byte]
    exact jump
  simp only [patch, byte, isJumpByte, ← isWord_iff]
  by_cases fits : isWord distance
  · rw [instructionBytes_jump jump ((isWord_iff distance).mp fits)]
    have whole : code.bytes.extract (before.length + 3) code.size = behind.toArray := by
      apply Array.ext'
      rw [Array.toList_extract, h, List.extract_eq_take_drop, List.drop_length_add_append,
        List.take_of_length_le]
      · rfl
      · simp only [List.length_drop, size, ← Array.length_toList, h, List.length_append]
        omega
    have front : code.bytes.extract 0 (before.length + 1) = (before ++ [op.byte]).toArray := by
      apply Array.ext'
      rw [Array.toList_extract, h, List.extract_eq_take_drop, List.drop_zero, Nat.sub_zero,
        List.take_length_add_append]
      rfl
    simp [fits, front, whole]
  · simp [fits]

theorem lastDistance?_append (answer : Except Fault Nat) :
    lastDistance? (calls ++ [.append op operands answer]) offset = lastDistance? calls offset := by
  simp [lastDistance?, Call.distance?]

theorem lastDistance?_patch (other : Nat) (answer : Except Fault Unit) :
    lastDistance? (calls ++ [.patch other distance answer]) offset =
      if other = offset ∧ OperandKind.i16.Holds distance then some distance
      else lastDistance? calls offset := by
  rw [lastDistance?, List.filterMap_append]
  by_cases given : other = offset ∧ OperandKind.i16.Holds distance
  · simp [Call.distance?, given]
  · simp only [List.filterMap_cons, List.filterMap_nil, Call.distance?, if_neg given,
      List.append_nil]
    rfl

theorem of_lastDistance? (h : lastDistance? calls offset = some distance) :
    OperandKind.i16.Holds distance ∧ ∃ answer, .patch offset distance answer ∈ calls := by
  obtain ⟨call, mem, given⟩ := List.mem_filterMap.mp (List.mem_of_getLast? h)
  cases call with
  | append op operands answer => cases given
  | patch other given_distance answer =>
      rw [Call.distance?] at given
      split at given
      · rename_i fits
        obtain ⟨rfl, held⟩ := fits
        cases given
        exact ⟨held, answer, mem⟩
      · cases given

/-- What is written depends on the calls that patch by the distances they leave alone. -/
theorem entry?_congr {others : List Call}
    (h : ∀ offset, lastDistance? calls offset = lastDistance? others offset) :
    Call.entry? calls = Call.entry? others := by
  funext call
  unfold Call.entry?
  simp only [h]

/-- An instruction after a jump at an offset has got a distance. -/
def redirect (offset : Nat) (distance : Int) : Nat × Entry → Nat × Entry
  | (other, .instruction op operands) =>
    (other, .instruction op (if op.isJump ∧ offset = other then [distance] else operands))
  | piece => piece

theorem redirect_of_ne {piece : Nat × Entry} (h : offset ≠ piece.1) :
    redirect offset distance piece = piece := by
  obtain ⟨other, op | byte⟩ := piece <;> simp_all [redirect]

theorem map_redirect {entries : List (Nat × Entry)} (h : ∀ piece ∈ entries, offset ≠ piece.1) :
    entries.map (redirect offset distance) = entries :=
  (List.map_congr_left fun piece mem => redirect_of_ne (h piece mem)).trans (List.map_id _)

/-- Patching a jump changes what is written at its offset. -/
theorem written_patch (held : OperandKind.i16.Holds distance) (answer : Except Fault Unit) :
    written (calls ++ [.patch offset distance answer]) =
      (written calls).map (redirect offset distance) := by
  rw [written, List.filterMap_append, written, List.map_filterMap]
  have none_written : [Call.patch offset distance answer].filterMap
      (Call.entry? (calls ++ [.patch offset distance answer])) = [] := rfl
  rw [none_written, List.append_nil]
  apply List.filterMap_congr
  intro call _
  cases call with
  | patch other distance answer => rfl
  | append op operands answer =>
      cases answer with
      | error fault => rfl
      | ok other =>
          simp only [Call.entry?, lastDistance?_patch, held, and_true, Option.map_some, redirect]
          by_cases jump : op.isJump <;> by_cases same : offset = other <;> simp [jump, same]

theorem written_append_patch (held : ¬ OperandKind.i16.Holds distance) (answer : Except Fault Unit) :
    written (calls ++ [.patch offset distance answer]) = written calls := by
  have same : Call.entry? (calls ++ [.patch offset distance answer]) = Call.entry? calls := by
    apply entry?_congr
    intro other
    rw [lastDistance?_patch, if_neg (by simp [held])]
  rw [written, same, List.filterMap_append]
  exact List.append_nil _

/-- Appending adds what is appended, where no jump has been patched there. -/
theorem written_append (fresh : lastDistance? calls offset = none) :
    written (calls ++ [.append op operands (.ok offset)]) =
      written calls ++ [(offset, .instruction op operands)] := by
  have same : Call.entry? (calls ++ [.append op operands (.ok offset)]) = Call.entry? calls :=
    entry?_congr fun _ => lastDistance?_append _
  rw [written, same, List.filterMap_append, written]
  simp [Call.entry?, fresh]

/-- What is known of code while calls are made: their instructions stand in its bytes, and only
jumps among them have been patched. -/
structure Kept (calls : List Call) (code : Code) : Prop where
  appended : ∀ op operands answer, .append op operands answer ∈ calls →
    Suits op operands ∧ ∃ offset, answer = .ok offset
  patched : ∀ offset distance answer, .patch offset distance answer ∈ calls →
    GaveJump calls offset ∧
      answer = if OperandKind.i16.Holds distance then .ok () else .error .jumpRange
  spells : Spells 0 (written calls) code.bytes.toList

/-- A jump stands among the instructions, with a distance that fits. -/
theorem Kept.jump (h : Kept calls code) (given : GaveJump calls offset) :
    ∃ op distance, op.isJump ∧ OperandKind.i16.Holds distance ∧
      (offset, .instruction op [distance]) ∈ written calls := by
  obtain ⟨op, operands, jump, mem⟩ := given
  obtain ⟨suits, -⟩ := h.appended op operands _ mem
  obtain ⟨own, rfl, held⟩ := (suits_jump jump).mp suits
  have entry : Call.entry? calls (.append op [own] (.ok offset)) =
      some (offset, .instruction op [(lastDistance? calls offset).getD own]) := by
    rw [Call.entry?, if_pos jump]
    cases lastDistance? calls offset <;> rfl
  refine ⟨op, (lastDistance? calls offset).getD own, jump, ?_, List.mem_filterMap.mpr ⟨_, mem, entry⟩⟩
  cases last : lastDistance? calls offset with
  | none => exact held
  | some distance => exact (of_lastDistance? last).1

/-- No distance has been given behind the end of the code. -/
theorem Kept.fresh (h : Kept calls code) : lastDistance? calls code.size = none := by
  cases last : lastDistance? calls code.size with
  | none => rfl
  | some distance =>
      obtain ⟨-, answer, mem⟩ := of_lastDistance? last
      obtain ⟨op, distance, -, -, stands⟩ := h.jump (h.patched _ _ _ mem).1
      have inside := (h.spells.within stands).2
      rw [Nat.zero_add] at inside
      exact absurd inside (Nat.lt_irrefl _)

theorem Kept.append (h : Kept calls code) (suits : Suits op operands) :
    Kept (calls ++ [.append op operands (code.append op operands).2])
      (code.append op operands).1 := by
  have fits := fits_of_suits suits
  have appended : code.append op operands =
      (⟨code.bytes ++ instructionBytes op operands⟩, .ok code.size) :=
    append_eq_ok.mpr ⟨fits, rfl, rfl⟩
  rw [appended]
  constructor
  · intro op operands answer mem
    rcases List.mem_append.mp mem with mem | mem
    · exact h.appended op operands answer mem
    · cases List.mem_singleton.mp mem
      exact ⟨suits, code.size, rfl⟩
  · intro offset distance answer mem
    rcases List.mem_append.mp mem with mem | mem
    · obtain ⟨⟨op, operands, jump, gave⟩, answered⟩ := h.patched offset distance answer mem
      exact ⟨⟨op, operands, jump, List.mem_append_left _ gave⟩, answered⟩
    · cases List.mem_singleton.mp mem
  · rw [written_append h.fresh]
    have last : Spells code.size [(code.size, .instruction op operands)]
        (instructionBytes op operands ++ []) := .cons fits (.nil _)
    rw [List.append_nil] at last
    have both : Spells 0 (written calls ++ [(code.size, .instruction op operands)])
        (code.bytes.toList ++ instructionBytes op operands) := by
      apply h.spells.append
      rw [Nat.zero_add]
      exact last
    simpa using both

/-- Where a jump has been appended, its bytes stand between those of the other instructions. -/
theorem Kept.locate (h : Kept calls code) (given : GaveJump calls offset) :
    ∃ op old front back before behind, op.isJump ∧ OperandKind.i16.Holds old ∧
      written calls = front ++ (offset, .instruction op [old]) :: back ∧
      code.bytes.toList = before ++ (instructionBytes op [old] ++ behind) ∧
      offset = before.length ∧ Spells 0 front before ∧ Spells (offset + op.size) back behind := by
  obtain ⟨op, old, jump, held, mem⟩ := h.jump given
  obtain ⟨front, back, split⟩ := List.append_of_mem mem
  have spells := h.spells
  rw [split] at spells
  obtain ⟨before, behind, bytes, place, -, left, right⟩ := spells.split
  rw [Nat.zero_add] at place
  exact ⟨op, old, front, back, before, behind, jump, held, split, bytes, place, left, right⟩

/-- A distance out of range is refused. -/
theorem Kept.refused (h : Kept calls code) (given : GaveJump calls offset)
    (wide : ¬ OperandKind.i16.Holds distance) :
    code.repatch offset distance = (code, .error .jumpRange) := by
  obtain ⟨op, old, front, back, before, behind, jump, held, -, bytes, rfl, -, -⟩ := h.locate given
  rw [repatch, patch_jump jump held bytes, if_neg wide]

/-- A jump among other pieces has the bytes of the new distance. -/
theorem Spells.redirected {start : Nat} {front back : List (Nat × Entry)} {before behind : List UInt8}
    {old : Int} (left : Spells start front before) (right : Spells (offset + op.size) back behind)
    (place : offset = start + before.length) (jump : op.isJump)
    (fits : OperandKind.i16.Holds distance) :
    Spells start ((front ++ (offset, .instruction op [old]) :: back).map (redirect offset distance))
      (before ++ (instructionBytes op [distance] ++ behind)) := by
  have front_same : front.map (redirect offset distance) = front := by
    apply map_redirect
    intro piece mem same
    have inside := (left.within mem).2
    omega
  have back_same : back.map (redirect offset distance) = back := by
    apply map_redirect
    intro piece mem same
    have inside := (right.within mem).1
    have positive := Entry.size_pos (.instruction op [old])
    rw [Entry.size] at positive
    omega
  have here : redirect offset distance (offset, .instruction op [old]) =
      (offset, .instruction op [distance]) := by
    rw [redirect, if_pos ⟨jump, rfl⟩]
  rw [List.map_append, List.map_cons, front_same, back_same, here]
  apply left.append
  rw [← place]
  exact .cons (fits_of_suits ((suits_jump jump).mpr ⟨distance, rfl, fits⟩)) right

/-- A distance in range takes the place of the one before, and nothing else changes. -/
theorem Kept.redirected (h : Kept calls code) (given : GaveJump calls offset)
    (fits : OperandKind.i16.Holds distance) :
    ∃ later, code.repatch offset distance = (later, .ok ()) ∧
      Spells 0 ((written calls).map (redirect offset distance)) later.bytes.toList := by
  obtain ⟨op, old, front, back, before, behind, jump, held, split, bytes, place, left, right⟩ :=
    h.locate given
  refine ⟨⟨(before ++ (instructionBytes op [distance] ++ behind)).toArray⟩, ?_, ?_⟩
  · rw [repatch, place, patch_jump jump held bytes, if_pos fits]
  · rw [split]
    exact left.redirected right (place.trans (Nat.zero_add _).symm) jump fits

theorem Kept.patch (h : Kept calls code) (given : GaveJump calls offset) :
    Kept (calls ++ [.patch offset distance (code.repatch offset distance).2])
        (code.repatch offset distance).1 := by
  constructor
  · intro op operands answer mem
    apply h.appended op operands answer
    simpa using mem
  · intro other own answer mem
    rcases List.mem_append.mp mem with mem | mem
    · obtain ⟨⟨op, operands, jump, gave⟩, answered⟩ := h.patched other own answer mem
      exact ⟨⟨op, operands, jump, List.mem_append_left _ gave⟩, answered⟩
    · cases List.mem_singleton.mp mem
      constructor
      · obtain ⟨op, operands, jump, gave⟩ := given
        exact ⟨op, operands, jump, List.mem_append_left _ gave⟩
      · split
        · rename_i fits
          obtain ⟨later, patched, -⟩ := h.redirected given fits
          rw [patched]
        · rename_i wide
          rw [h.refused given wide]
  · by_cases fits : OperandKind.i16.Holds distance
    · obtain ⟨later, patched, spells⟩ := h.redirected given fits
      rw [written_patch fits, patched]
      exact spells
    · rw [written_append_patch fits, h.refused given fits]
      exact h.spells

theorem History.kept (h : History calls code) : Kept calls code := by
  induction h with
  | nothing => exact ⟨nofun, nofun, .nil 0⟩
  | append _ suits ih => exact ih.append suits
  | patch _ given ih => exact ih.patch given

/-- Decoding from where an instruction starts finds it and all that follow. -/
theorem Spells.decode_drop {entries : List (Nat × Entry)} (h : Spells 0 entries code.bytes.toList)
    {k : Nat} {entry : Entry} (found : entries[k]? = some (offset, entry)) :
    code.decode offset = ⟨entries.drop k, false⟩ := by
  obtain ⟨bound, here⟩ := List.getElem?_eq_some_iff.mp found
  have rest : entries.drop k = (offset, entry) :: entries.drop (k + 1) := by
    rw [List.drop_eq_getElem_cons bound, here]
  rw [← List.take_append_drop k entries, rest] at h
  obtain ⟨before, behind, bytes, place, fits, -, right⟩ := h.split
  have tail : code.bytes.toList.drop offset = entry.bytes ++ behind := by
    rw [bytes, place, Nat.zero_add, List.drop_left]
  rw [decode, tail, rest]
  exact (Spells.cons fits right).decodeBytes

/-- Decoding undoes appending and patching, in whatever order these have been called. -/
theorem decode_history (h : History calls code) : ReadsBack calls code := by
  have kept := h.kept
  constructor
  · exact fun op operands answer mem => (kept.appended op operands answer mem).2
  · exact fun offset distance answer mem => (kept.patched offset distance answer mem).2
  · exact fun offset distance given wide => kept.refused given wide
  · exact kept.spells.decodeBytes
  · exact fun k offset entry found => kept.spells.decode_drop found

/-- A jump and a constant; then the jump is patched, and a distance out of range is refused. -/
def patchedTwice : List Call :=
  [.append .jmp [-1] (.ok 0), .append .const [7] (.ok 3), .patch 0 2 (.ok ()),
    .patch 0 40000 (.error .jumpRange)]

theorem decode_history_patchedTwice :
    History patchedTwice ⟨#[22, 0, 2, 12, 7]⟩ ∧ ReadsBack patchedTwice ⟨#[22, 0, 2, 12, 7]⟩ := by
  have jump : History (patchedTwice.take 1) ⟨#[22, 255, 255]⟩ :=
    @History.append [] empty .jmp [-1] .nothing (.cons (by decide) .nil)
  have constant : History (patchedTwice.take 2) ⟨#[22, 255, 255, 12, 7]⟩ :=
    @History.append _ _ .const [7] jump (.cons (by decide) .nil)
  have patched : History (patchedTwice.take 3) ⟨#[22, 0, 2, 12, 7]⟩ :=
    @History.patch _ _ 0 2 constant ⟨.jmp, [-1], rfl, by simp [patchedTwice]⟩
  have refused : History patchedTwice ⟨#[22, 0, 2, 12, 7]⟩ :=
    @History.patch _ _ 0 40000 patched ⟨.jmp, [-1], rfl, by simp [patchedTwice]⟩
  exact ⟨refused, decode_history refused⟩

end Code

end StackScript
