/-
# Relocation

The code of a statement depends on the chunk that it is added to in no way but one: the chunk
decides where the code starts and which identifiers the names and numbers in it are given. Two
chunks with different pasts, refused statements included, therefore get the same instructions
for it, apart from the start of a function and from the identifiers, which lead to the same
names and numbers.
-/

import StackScript.Proofs.Draft.Moved
import StackScript.Proofs.Lowering.Numbers

namespace StackScript

open Line (extent placed located AllUnsigned)

namespace Chunk

variable {chunk first second : Chunk} {lines : List Line} {offset : Nat}

/-- Operands that mean the same for an instruction in two chunks, in the second of which the
code starts so many bytes later. -/
inductive SameOperands (first second : Chunk) (distance : Int) :
    Opcode → List Int → List Int → Prop
  | number {id id' : Int} {value : Float} : first.constants.get? id = some value →
      second.constants.get? id' = some value →
        SameOperands first second distance .const [id] [id']
  | name {op : Opcode} {id id' : Int} {value : String} : op ∈ [.str, .setGlobal, .getGlobal] →
      first.strings.get? id = some value → second.strings.get? id' = some value →
        SameOperands first second distance op [id] [id']
  | call {id id' count : Int} {callee : String} : first.strings.get? id = some callee →
      second.strings.get? id' = some callee →
        SameOperands first second distance .invoke [id, count] [id', count]
  | definition {id id' arity start : Int} {name : String} : first.strings.get? id = some name →
      second.strings.get? id' = some name →
        SameOperands first second distance .func [id, arity, start] [id', arity, start + distance]
  | other {op : Opcode} {operands : List Int} :
      op ∉ [.const, .str, .setGlobal, .getGlobal, .invoke, .func] →
        SameOperands first second distance op operands operands

/-- Entries of two chunks that are the same instruction, made for the same place, in the second
chunk so many bytes later. -/
structure Corresponds (first second : Chunk) (distance : Int) (entry other : Nat × Code.Entry) :
    Prop where
  offset : (other.1 : Int) = entry.1 + distance
  place : ∃ place, first.locate entry.1 = some place ∧ second.locate other.1 = some place
  operands : ∃ op operands operands', entry.2 = .instruction op operands ∧
    other.2 = .instruction op operands' ∧ SameOperands first second distance op operands operands'

/-- A line is found again by its place. -/
theorem Assembled.locate_eq (h : chunk.Assembled lines) {line : Line} {place : Location}
    (mem : (offset, line) ∈ placed 0 lines) (made : line.place = some place) :
    chunk.locate offset = some place := by
  have found : (chunk.places.find? fun entry => (entry.1 : Int) == offset).isSome := by
    rw [List.find?_isSome]
    refine ⟨(offset, place), ?_, beq_self_eq_true _⟩
    rw [h.places, List.mem_reverse, Line.mem_located]
    exact ⟨line, mem, made⟩
  obtain ⟨⟨start, place'⟩, found⟩ := Option.isSome_iff_exists.mp found
  have here : (start : Int) = offset :=
    eq_of_beq (List.find?_some (p := fun entry : Nat × Location => (entry.1 : Int) == offset) found)
  obtain rfl : start = offset := Int.ofNat_inj.mp here
  have listed := List.mem_of_find?_eq_some found
  rw [h.places, List.mem_reverse, Line.mem_located] at listed
  obtain ⟨line', mem', made'⟩ := listed
  obtain rfl := Line.placed_unique mem mem'
  rw [locate, found, Option.map_some, ← made', made]

/-- A chunk whose numbers have no sign gives back the very number that a line names. -/
theorem ConstantsUnsigned.number_eq (constants : chunk.ConstantsUnsigned) {id : Nat}
    {entry value : Float} (found : chunk.constants.get? id = some entry)
    (unsigned : Number.Unsigned value) (equal : entry == value ∨ entry = value) :
    chunk.constants.get? id = some value := by
  rcases equal with equal | rfl
  · rw [found, (constants entry (Pool.mem_of_get? found)).eq_of_beq unsigned equal]
  · exact found

/-- What an instruction means, moved to two places, the operands say in each of two chunks. -/
theorem sameOperands_of_resolves {instr : Instr} {near far : Nat} {operands operands' : List Int}
    (constants : first.ConstantsUnsigned) (constants' : second.ConstantsUnsigned)
    (named : ∀ value, instr = .const value → Number.Unsigned value)
    (resolves : first.Resolves (instr.moved near) operands)
    (resolves' : second.Resolves (instr.moved far) operands') :
    SameOperands first second (far - near) instr.op operands operands' := by
  cases instr with
  | plain op bare =>
      obtain rfl : operands = [] := resolves
      obtain rfl : operands' = [] := resolves'
      refine .other fun mem => ?_
      simp only [Instr.op, List.mem_cons, List.not_mem_nil, or_false] at mem
      rcases mem with rfl | rfl | rfl | rfl | rfl | rfl <;> cases bare
  | const value =>
      obtain ⟨id, entry, rfl, found, equal⟩ := resolves
      obtain ⟨id', entry', rfl, found', equal'⟩ := resolves'
      exact .number (constants.number_eq found (named value rfl) equal)
        (constants'.number_eq found' (named value rfl) equal')
  | str | setGlobal | getGlobal =>
      obtain ⟨id, rfl, found⟩ := resolves
      obtain ⟨id', rfl, found'⟩ := resolves'
      exact .name (by simp [Instr.op]) found found'
  | deepSet | deepGet | jmp | jz =>
      obtain rfl : operands = [_] := resolves
      obtain rfl : operands' = [_] := resolves'
      exact .other (by simp [Instr.op])
  | func name arity start =>
      obtain ⟨id, rfl, found⟩ := resolves
      obtain ⟨id', rfl, found'⟩ := resolves'
      have shifted : ((start + far : Nat) : Int) = (start + near : Nat) + (far - near : Int) := by
        omega
      rw [shifted]
      exact .definition found found'
  | invoke callee count =>
      obtain ⟨id, rfl, found⟩ := resolves
      obtain ⟨id', rfl, found'⟩ := resolves'
      exact .call found found'

/-- An entry is the instruction of a line, so many bytes behind where the line stands, and was
made for the same place. -/
structure FoundAs (chunk : Chunk) (distance : Nat) (p : Nat × Line) (entry : Nat × Code.Entry) :
    Prop where
  offset : entry.1 = p.1 + distance
  denotes : chunk.Denotes (p.2.moved distance) entry.2
  place : ∃ place, p.2.place = some place ∧ chunk.locate entry.1 = some place

theorem FoundAs.corresponds {near far : Nat} {p : Nat × Line} {entry other : Nat × Code.Entry}
    (h : first.FoundAs near p entry) (h' : second.FoundAs far p other)
    (constants : first.ConstantsUnsigned) (constants' : second.ConstantsUnsigned)
    (named : ∀ value, p.2.instr = .const value → Number.Unsigned value) :
    Corresponds first second (far - near) entry other := by
  constructor
  · have := h.offset
    have := h'.offset
    omega
  · obtain ⟨place, made, located⟩ := h.place
    obtain ⟨place', made', located'⟩ := h'.place
    obtain rfl := Option.some.inj (made.symm.trans made')
    exact ⟨place, located, located'⟩
  · obtain ⟨operands, is, resolves⟩ := h.denotes
    obtain ⟨operands', is', resolves'⟩ := h'.denotes
    rw [Line.instr_moved, Instr.op_moved] at is is'
    exact ⟨p.2.instr.op, operands, operands', is, is',
      sameOperands_of_resolves constants constants' named resolves resolves'⟩

/-- The entries of two lists correspond when they are found for the same lines. -/
theorem corresponds_of_found {near far : Nat} {ps : List (Nat × Line)}
    {entries others : List (Nat × Code.Entry)}
    (constants : first.ConstantsUnsigned) (constants' : second.ConstantsUnsigned)
    (named : ∀ p ∈ ps, ∀ value, p.2.instr = .const value → Number.Unsigned value)
    (h : List.Forall₂ (first.FoundAs near) ps entries)
    (h' : List.Forall₂ (second.FoundAs far) ps others) :
    List.Forall₂ (Corresponds first second (far - near)) entries others := by
  induction h generalizing others with
  | nil =>
      cases h'
      exact .nil
  | cons found _ ih =>
      cases h' with
      | cons found' rest' =>
          refine .cons (found.corresponds found' constants constants' ?_) (ih ?_ rest')
          · exact named _ List.mem_cons_self
          · exact fun p mem => named p (List.mem_cons_of_mem _ mem)

/-- What decoding finds of a statement that has been accepted is its draft, moved to where the
chunk ended. -/
theorem Assembled.found_of_added {body : List Stmt} {later : Chunk} {limit bytes : Nat}
    {st : Stmt} (legal : listLegal false body) (h : chunk.Assembled (listCode 0 .top body))
    (added : chunk.addStatement limit st = (later, .ok bytes)) :
    bytes = extent (st.code 0 .top) ∧ (later.code.decode chunk.size).truncated = false ∧
      List.Forall₂ (later.FoundAs chunk.size) (placed 0 (st.code 0 .top))
        (later.code.decode chunk.size).entries := by
  have moved : st.code chunk.size .top = (st.code 0 .top).map (Line.moved chunk.size) := by
    rw [← st.code_moved 0 .top, Nat.zero_add]
    rfl
  obtain ⟨legal', whole, size⟩ := h.accepted legal added
  rcases addStatement_cases h.roomy limit st with
    ⟨found, same, lines, -⟩ | ⟨grown, diagnostic, -, same⟩
  · obtain ⟨rfl, counted⟩ := Prod.mk.inj (same.symm.trans added)
    obtain ⟨-, shown, length, -⟩ := addLines_spec lines
    have row : listCode 0 .top (body ++ [st]) =
        listCode 0 .top body ++ st.code chunk.size .top := by
      rw [listCode_append, h.size_eq]
      simp [listCode]
    have within : ∀ p ∈ placed chunk.size (st.code chunk.size .top),
        p ∈ placed 0 (listCode 0 .top (body ++ [st])) := by
      intro p mem
      rw [row, Line.placed_append, Nat.zero_add, ← h.size_eq]
      exact List.mem_append_right _ mem
    have follows := (List.forall₂_and_left (placed chunk.size (st.code chunk.size .top)) _).mpr
      ⟨fun _ => id, (decode_shown shown length).2⟩
    have shifted : placed chunk.size (st.code chunk.size .top) =
        (placed 0 (st.code 0 .top)).map fun p => (p.1 + chunk.size, p.2.moved chunk.size) := by
      rw [← Line.placed_moved, Nat.zero_add, ← moved]
    refine ⟨?_, (decode_shown shown length).1, ?_⟩
    · rw [← Except.ok.inj counted, moved, Line.extent_moved]
    · rw [shifted, List.forall₂_map_left_iff] at follows
      refine follows.imp ?_
      rintro ⟨offset, line⟩ entry ⟨mem, at', denotes⟩
      rw [← shifted] at mem
      obtain ⟨place, made⟩ := Option.isSome_iff_exists.mp (place_isSome legal' (within _ mem))
      exact ⟨at'.symm, denotes, place, made, at' ▸ whole.locate_eq (within _ mem) made⟩
  · cases (Prod.mk.inj (same.symm.trans added)).2

/-- The code of a statement does not depend on the chunk that it is added to, nor on what was
added to it or refused before: two chunks get as many bytes, and instructions that correspond
one by one. -/
theorem Filled.code_relocated {chunk' later later' : Chunk} {poolSize poolSize' : Nat}
    {lowerer next lowerer' next' : Lowerer} {limit limit' bytes bytes' : Nat} {st : Stmt}
    (small : poolSize ≤ maxPoolSize) (small' : poolSize' ≤ maxPoolSize)
    (filled : chunk.Filled Stmt.IsRead poolSize) (filled' : chunk'.Filled Stmt.IsRead poolSize')
    (used : lowerer.Used) (used' : lowerer'.Used) (read : st.IsRead)
    (added : lowerer.add limit chunk st = (next, later, .ok bytes))
    (added' : lowerer'.add limit' chunk' st = (next', later', .ok bytes')) :
    bytes = bytes' ∧ (later.code.decode chunk.size).truncated = false ∧
      (later'.code.decode chunk'.size).truncated = false ∧
      List.Forall₂ (Corresponds later later' (chunk'.size - chunk.size))
        (later.code.decode chunk.size).entries (later'.code.decode chunk'.size).entries := by
  obtain ⟨body, legal, assembled⟩ := filled.assembled small
  obtain ⟨body', legal', assembled'⟩ := filled'.assembled small'
  obtain ⟨counted, complete, found⟩ :=
    assembled.found_of_added legal (used.addStatement_eq added)
  obtain ⟨counted', complete', found'⟩ :=
    assembled'.found_of_added legal' (used'.addStatement_eq added')
  have constants := (filled.add used read added).constantsUnsigned
  have constants' := (filled'.add used' read added').constantsUnsigned
  refine ⟨counted.trans counted'.symm, complete, complete', ?_⟩
  refine corresponds_of_found constants constants' ?_ found found'
  intro p mem value is
  exact st.code_unsigned read.unsigned 0 .top p.2 (Line.mem_of_mem_placed mem) value is

private theorem ok_of_toOption {ε α : Type} {outcome : Except ε α} {value : α}
    (h : outcome.toOption = some value) : outcome = .ok value := by
  cases outcome with
  | error failure => cases h
  | ok found => exact congrArg Except.ok (Option.some.inj h)

/-- The text of a program that defines a function behind another statement. -/
def halving : String := "print 7; fn half(x) \x7b return x / 2; \x7d"

/-- How many bytes are added for the second of two statements alone, for the first, and for the
second behind the first. -/
def bytesOfTwo : List Stmt → List (Option Nat)
  | [print, half] =>
    [((empty 256).addStatement 10 half).2.toOption,
      ((empty 2).addStatement 10 print).2.toOption,
      (((empty 2).addStatement 10 print).1.addStatement 10 half).2.toOption]
  | _ => []

/-- The definition is added to an empty chunk, and to a smaller one behind the other statement. -/
theorem code_relocated_halving :
    ∃ (print half : Stmt) (near start far : Chunk),
      Syntax.program "halving" halving = .ok [print, half] ∧
      ({} : Lowerer).add 10 (empty 256) half = ({}, near, .ok 13) ∧
      ({} : Lowerer).add 10 (empty 2) print = ({}, start, .ok 3) ∧
      ({} : Lowerer).add 10 start half = ({}, far, .ok 13) ∧
      List.Forall₂ (Corresponds near far (start.size - (empty 256).size))
        (near.code.decode (empty 256).size).entries (far.code.decode start.size).entries := by
  have accepted : (Syntax.program "halving" halving).toOption.map bytesOfTwo =
      some [some 13, some 3, some 13] := by decide +kernel
  obtain ⟨program, found, sizes⟩ := Option.map_eq_some_iff.mp accepted
  have read := ok_of_toOption found
  unfold bytesOfTwo at sizes
  split at sizes
  · rename_i print half
    obtain ⟨near, start, far⟩ : _ ∧ _ ∧ _ := by simpa using sizes
    have added := Lowerer.add_of_bytes near
    have before := Lowerer.add_of_bytes start
    have added' := Lowerer.add_of_bytes far
    have isRead (st : Stmt) (mem : st ∈ [print, half]) : st.IsRead := ⟨_, _, _, read, mem⟩
    have relocated := Filled.code_relocated (by decide) (by decide) .empty
      (.add .empty .new (isRead print (by simp)) before) .new .new (isRead half (by simp))
      added added'
    exact ⟨print, half, _, _, _, read, added, before, added', relocated.2.2.2⟩
  · cases sizes

end Chunk

end StackScript
