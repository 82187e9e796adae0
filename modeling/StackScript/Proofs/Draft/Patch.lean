/-
# Patching jumps

A jump is written before its target is known and patched later. When it is
patched, lines have been added behind it. The result is the same as if the
distance had been known from the start, because added lines look at the length
of the code before them and not at its bytes.
-/

import StackScript.Proofs.Draft.Assembly

namespace StackScript.Chunk

variable {chunk later final : Chunk} {line : Line} {lines : List Line}

/-- Identifiers are found by the pools alone. -/
theorem identify_withCode {instr : Instr} {operands : List Int}
    (h : chunk.identify instr = some (later, operands)) (code : Code) :
    { chunk with code }.identify instr = some ({ later with code }, operands) := by
  cases instr with
  | plain | deepSet | deepGet | jmp | jz =>
      obtain ⟨rfl, rfl⟩ := Prod.mk.inj (Option.some.inj h)
      rfl
  | const | str | setGlobal | getGlobal | func | invoke =>
      obtain ⟨⟨pool, id⟩, interned, same⟩ := Option.map_eq_some_iff.mp h
      obtain ⟨rfl, rfl⟩ := Prod.mk.inj same
      exact Option.map_eq_some_iff.mpr ⟨⟨pool, id⟩, interned, rfl⟩

/-- Added lines come to the same bytes behind any other code of the same length. -/
theorem addLines_withCode (h : chunk.addLines lines = some later) :
    ∃ added : List UInt8, later.code.bytes = chunk.code.bytes ++ added ∧
      ∀ code : Code, code.size = chunk.size →
        { chunk with code }.addLines lines =
          some { later with code := ⟨code.bytes ++ added⟩ } := by
  induction lines generalizing chunk with
  | nil =>
      obtain rfl := Option.some.inj h
      exact ⟨[], by simp, fun code _ => by simp⟩
  | cons line lines ih =>
      rw [addLines_cons, Option.bind_eq_some_iff] at h
      obtain ⟨next, addedLine, rest⟩ := h
      obtain ⟨named, operands, identified, fits, rfl⟩ := addLine_eq_some.mp addedLine
      obtain ⟨-, -, sameCode, -⟩ := identify_eq_some identified
      obtain ⟨added, bytes, other⟩ := ih rest
      have namedSize : named.size = chunk.size := by rw [size, sameCode, size]
      refine ⟨Code.instructionBytes line.instr.op operands ++ added, ?_, ?_⟩
      · rw [bytes, sameCode]
        apply Array.toList_inj.mp
        simp
      · intro code length
        have first := addLine_eq_some.mpr
          ⟨_, operands, identify_withCode identified code, fits, rfl⟩
        have sameLength : named.code.size = code.size := namedSize.trans length.symm
        have second := other ⟨code.bytes ++ Code.instructionBytes line.instr.op operands⟩ (by
          simp only [size, Code.size, ← Array.length_toList] at sameLength ⊢
          simp [sameLength])
        rw [addLines_cons, first, Option.bind_some]
        simp only [size, sameLength] at second ⊢
        rw [second]
        simp only [Option.some.injEq, mk.injEq, and_true, Code.mk.injEq]
        apply Array.toList_inj.mp
        simp

/-- What patching a jump amounts to: the distance fits, and takes the place of
the two bytes behind the opcode. -/
theorem patch_eq_ok {place : Option Location} {offset : Nat} {distance : Int}
    (h : chunk.patch place offset distance = .ok later) :
    Code.isWord distance ∧
      later =
        { chunk with
          code := ⟨chunk.code.bytes.extract 0 (offset + 1) ++ Code.wordBytes distance ++
            chunk.code.bytes.extract (offset + 3) chunk.code.size⟩ } := by
  unfold patch at h
  split at h
  · rename_i code patched
    unfold Code.patch at patched
    split at patched
    · cases patched
    · split at patched
      · cases patched
      · split at patched
        · cases patched
        · rename_i fits
          rw [Bool.not_eq_true, Bool.not_eq_false'] at fits
          exact ⟨fits, by rw [← Except.ok.inj h, ← Except.ok.inj patched]⟩
  · cases h
  · cases h

/-- A jump with a distance that fits can be added. -/
theorem addLine_jump {jump : Int → Instr} (isJump : jump = .jmp ∨ jump = .jz)
    {place : Option Location} {mark : Mark} {distance : Int} (fits : Code.isWord distance) :
    chunk.addLine ⟨place, mark, jump distance⟩ =
      some
        { chunk with
          code := ⟨chunk.code.bytes ++ (jump distance).op.byte :: Code.wordBytes distance⟩
          places := (place.map fun place => (chunk.size, place)).toList ++ chunk.places } := by
  apply addLine_eq_some.mpr
  refine ⟨chunk, [distance], ?_, ?_, ?_⟩
  · rcases isJump with rfl | rfl <;> rfl
  · rcases isJump with rfl | rfl <;>
      simp [Code.Fits, Instr.op, Opcode.operands, Code.operandsBytes, Code.operandBytes, fits]
  · rcases isJump with rfl | rfl <;>
      simp [Code.instructionBytes, Instr.op, Opcode.operands, Code.operandsBytes,
        Code.operandBytes, fits]

/-- A jump that is patched after lines have been added behind it might as well
have been written with its distance. -/
theorem addLines_patch {jump : Int → Instr} (isJump : jump = .jmp ∨ jump = .jz)
    {place : Option Location} {mark : Mark} {unknown distance : Int} {mention : Option Location}
    (h : chunk.addLines (⟨place, mark, jump unknown⟩ :: lines) = some later)
    (patched : later.patch mention chunk.size distance = .ok final) :
    chunk.addLines (⟨place, mark, jump distance⟩ :: lines) = some final := by
  rw [addLines_cons, Option.bind_eq_some_iff] at h
  obtain ⟨next, added, rest⟩ := h
  obtain ⟨fits, rfl⟩ := patch_eq_ok patched
  have opcode : (jump unknown).op = (jump distance).op := by
    rcases isJump with rfl | rfl <;> rfl
  have written : Code.isWord unknown := by
    obtain ⟨named, operands, identified, unknownFits, -⟩ := addLine_eq_some.mp added
    have same : operands = [unknown] := by
      rcases isJump with rfl | rfl <;> exact (Prod.mk.inj (Option.some.inj identified)).2.symm
    subst same
    have encoded : (Code.operandsBytes [.i16] [unknown]).2 = none := by
      rcases isJump with rfl | rfl <;> exact unknownFits.2
    obtain ⟨bytes, found, -⟩ := Code.operandsBytes_cons encoded
    rw [Code.operandBytes] at found
    split at found
    · assumption
    · cases found
  rw [addLine_jump isJump written] at added
  obtain rfl := Option.some.inj added
  obtain ⟨suffix, bytes, other⟩ := addLines_withCode rest
  have settled := other
    ⟨chunk.code.bytes ++ (jump distance).op.byte :: Code.wordBytes distance⟩ (by
      simp [size, Code.size, ← Array.length_toList])
  rw [addLines_cons, addLine_jump isJump fits, Option.bind_some]
  simp only [] at settled ⊢
  rw [settled, bytes]
  simp only [Option.some.injEq, mk.injEq, and_true, Code.mk.injEq]
  have behind : later.code.bytes.size - (chunk.code.bytes.size + 3) = suffix.length := by
    simp only [bytes, ← Array.length_toList, Array.toList_appendList, List.length_append,
      List.length_cons, Code.length_wordBytes]
    omega
  apply Array.toList_inj.mp
  have gone : (Code.wordBytes unknown).drop 2 = [] := rfl
  simp [behind, size, Code.size, opcode, List.take_append, List.drop_append,
    List.take_of_length_le, List.drop_of_length_le, gone]

end StackScript.Chunk
