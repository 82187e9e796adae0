/-
# Assembling drafts

A draft becomes code line by line: the names in a line are given identifiers,
and its bytes go to the end of the chunk. A chunk only ever grows by this, so
that the lines that it shows stay where they are and keep their meaning.
-/

import StackScript.Proofs.Code.Encoding
import StackScript.Proofs.Draft.Line

namespace StackScript

open Line (extent placed located)

namespace Pool

variable {α : Type} [BEq α] {pool later : Pool α} {value : α} {id : Nat}

/-- A pool holds no more than it has room for, and its identifiers are bytes. -/
def Roomy (pool : Pool α) : Prop := pool.size ≤ pool.capacity ∧ pool.capacity ≤ Chunk.maxPoolSize

/-- What an identifier is handed out for stays in the pool, and the identifier
leads to it or to an equal entry. -/
theorem intern?_eq_some (h : pool.intern? value = some (later, id)) :
    pool.entries.toList <+: later.entries.toList ∧ later.capacity = pool.capacity ∧
      ∃ entry, later.get? id = some entry ∧ (entry == value ∨ entry = value) := by
  unfold intern? at h
  split at h
  · rename_i found same
    obtain ⟨rfl, rfl⟩ := Prod.mk.inj (Option.some.inj h)
    obtain ⟨bound, equal, -⟩ := Array.findIdx?_eq_some_iff_getElem.mp same
    exact ⟨List.prefix_refl _, rfl, _, by simp [get?, bound], .inl equal⟩
  · split at h
    · cases h
    · obtain ⟨rfl, rfl⟩ := Prod.mk.inj (Option.some.inj h)
      exact ⟨by simp, rfl, value, by simp [get?, size], .inr rfl⟩

/-- A pool takes in nothing but what is asked for. -/
theorem mem_of_intern? (h : pool.intern? value = some (later, id)) :
    ∀ entry ∈ later.entries.toList, entry ∈ pool.entries.toList ∨ entry = value := by
  intro entry mem
  unfold intern? at h
  split at h
  · obtain ⟨rfl, -⟩ := Prod.mk.inj (Option.some.inj h)
    exact .inl mem
  · split at h
    · cases h
    · obtain ⟨rfl, -⟩ := Prod.mk.inj (Option.some.inj h)
      simpa using mem

/-- Identifiers of a roomy pool are bytes. -/
theorem Roomy.intern? (roomy : pool.Roomy) (h : pool.intern? value = some (later, id)) :
    later.Roomy ∧ id < Chunk.maxPoolSize := by
  obtain ⟨fits, bytes⟩ := roomy
  unfold Pool.intern? at h
  split at h
  · rename_i found same
    obtain ⟨rfl, rfl⟩ := Prod.mk.inj (Option.some.inj h)
    obtain ⟨bound, -, -⟩ := Array.findIdx?_eq_some_iff_getElem.mp same
    refine ⟨⟨fits, bytes⟩, ?_⟩
    unfold size at fits
    omega
  · split at h
    · cases h
    · obtain ⟨rfl, rfl⟩ := Prod.mk.inj (Option.some.inj h)
      simp only [Roomy, size, Array.size_push] at *
      omega

omit [BEq α] in
theorem lt_size_of_get? {id : Nat} (found : pool.get? id = some value) : id < pool.size := by
  rw [get?, if_pos (Int.natCast_nonneg id)] at found
  exact (Array.getElem?_eq_some_iff.mp found).1

omit [BEq α] in
/-- Entries stay where they are when a pool grows. -/
theorem get?_of_prefix {id : Int} (h : pool.entries.toList <+: later.entries.toList)
    (found : pool.get? id = some value) : later.get? id = some value := by
  unfold get? at found ⊢
  split at found
  · rename_i nonneg
    rw [if_pos nonneg]
    rw [← Array.getElem?_toList] at found ⊢
    obtain ⟨bound, same⟩ := List.getElem?_eq_some_iff.mp found
    exact List.getElem?_eq_some_iff.mpr
      ⟨Nat.lt_of_lt_of_le bound h.length_le, (h.getElem bound).symm.trans same⟩
  · cases found

end Pool

namespace Chunk

/-- Both pools of a chunk are roomy. -/
structure Roomy (chunk : Chunk) : Prop where
  constants : chunk.constants.Roomy
  strings : chunk.strings.Roomy

theorem roomy_empty {poolSize : Nat} (h : poolSize ≤ maxPoolSize) : (empty poolSize).Roomy :=
  ⟨⟨Nat.zero_le _, h⟩, ⟨Nat.zero_le _, h⟩⟩

/-- What a later chunk has in common with the one that it grew from. -/
structure Extends (chunk later : Chunk) : Prop where
  code : chunk.code.bytes.toList <+: later.code.bytes.toList
  constants : chunk.constants.entries.toList <+: later.constants.entries.toList
  constantRoom : later.constants.capacity = chunk.constants.capacity
  strings : chunk.strings.entries.toList <+: later.strings.entries.toList
  stringRoom : later.strings.capacity = chunk.strings.capacity
  places : ∃ added, later.places = added ++ chunk.places ∧ ∀ entry ∈ added, chunk.size ≤ entry.1
  roomy : chunk.Roomy → later.Roomy

theorem Extends.refl (chunk : Chunk) : chunk.Extends chunk :=
  ⟨List.prefix_refl _, List.prefix_refl _, rfl, List.prefix_refl _, rfl, ⟨[], rfl, by simp⟩, id⟩

theorem Extends.size_le {chunk later : Chunk} (h : chunk.Extends later) :
    chunk.size ≤ later.size := by
  simpa [size, Code.size] using h.code.length_le

theorem Extends.trans {first second third : Chunk} (h : first.Extends second)
    (h' : second.Extends third) : first.Extends third where
  code := h.code.trans h'.code
  constants := h.constants.trans h'.constants
  constantRoom := h'.constantRoom.trans h.constantRoom
  strings := h.strings.trans h'.strings
  stringRoom := h'.stringRoom.trans h.stringRoom
  places := by
    obtain ⟨added, same, later⟩ := h.places
    obtain ⟨added', same', later'⟩ := h'.places
    refine ⟨added' ++ added, by rw [same', same, List.append_assoc], ?_⟩
    intro entry mem
    rcases List.mem_append.mp mem with mem | mem
    · exact Nat.le_trans h.size_le (later' entry mem)
    · exact later entry mem
  roomy := h'.roomy ∘ h.roomy

/-- The operands that an instruction of a draft has in a chunk. Equal numbers
share an entry of the pool, so that the entry need not be the number itself. -/
def Resolves (chunk : Chunk) : Instr → List Int → Prop
  | .plain _ _, operands => operands = []
  | .const value, operands => ∃ (id : Nat) (entry : Float), operands = [(id : Int)] ∧
      chunk.constants.get? id = some entry ∧ (entry == value ∨ entry = value)
  | .str value, operands | .setGlobal value, operands | .getGlobal value, operands =>
    ∃ id : Nat, operands = [(id : Int)] ∧ chunk.strings.get? id = some value
  | .deepSet slot, operands | .deepGet slot, operands => operands = [(slot : Int)]
  | .jmp distance, operands | .jz distance, operands => operands = [distance]
  | .func name arity start, operands =>
    ∃ id : Nat, operands = [(id : Int), (arity : Int), (start : Int)] ∧
      chunk.strings.get? id = some name
  | .invoke name count, operands =>
    ∃ id : Nat, operands = [(id : Int), (count : Int)] ∧ chunk.strings.get? id = some name

/-- A chunk has the line of a draft at an offset. -/
def Shows (chunk : Chunk) (offset : Nat) (line : Line) : Prop :=
  ∃ operands, chunk.Resolves line.instr operands ∧ Code.Fits line.instr.op operands ∧
    Code.instructionBytes line.instr.op operands <+: chunk.code.bytes.toList.drop offset

/-- Gives identifiers to the names in an instruction. -/
def identify (chunk : Chunk) : Instr → Option (Chunk × List Int)
  | .plain _ _ => some (chunk, [])
  | .const value => (chunk.constants.intern? value).map fun (constants, id) =>
      ({ chunk with constants }, [(id : Int)])
  | .str value | .setGlobal value | .getGlobal value =>
    (chunk.strings.intern? value).map fun (strings, id) => ({ chunk with strings }, [(id : Int)])
  | .deepSet slot | .deepGet slot => some (chunk, [(slot : Int)])
  | .jmp distance | .jz distance => some (chunk, [distance])
  | .func name arity start => (chunk.strings.intern? name).map fun (strings, id) =>
      ({ chunk with strings }, [(id : Int), (arity : Int), (start : Int)])
  | .invoke name count => (chunk.strings.intern? name).map fun (strings, id) =>
      ({ chunk with strings }, [(id : Int), (count : Int)])

/-- Adds a line of a draft to the end of a chunk. -/
def addLine (chunk : Chunk) (line : Line) : Option Chunk :=
  match chunk.identify line.instr with
  | none => none
  | some (chunk, operands) =>
    match chunk.append line.place line.instr.op operands with
    | (later, .ok _) => some later
    | (_, .error _) => none

/-- Adds the lines of a draft. -/
def addLines (chunk : Chunk) : List Line → Option Chunk
  | [] => some chunk
  | line :: lines => (chunk.addLine line).bind fun later => later.addLines lines

@[simp] theorem addLines_nil (chunk : Chunk) : chunk.addLines [] = some chunk := rfl

theorem addLines_cons (chunk : Chunk) (line : Line) (lines : List Line) :
    chunk.addLines (line :: lines) =
      (chunk.addLine line).bind fun later => later.addLines lines := rfl

theorem addLines_append (chunk : Chunk) (lines more : List Line) :
    chunk.addLines (lines ++ more) =
      (chunk.addLines lines).bind fun later => later.addLines more := by
  induction lines generalizing chunk with
  | nil => simp
  | cons line lines ih =>
      rw [List.cons_append, addLines_cons, addLines_cons]
      cases chunk.addLine line with
      | none => rfl
      | some later => exact ih later

theorem addLines_singleton (chunk : Chunk) (line : Line) :
    chunk.addLines [line] = chunk.addLine line := by
  rw [addLines_cons]
  cases chunk.addLine line <;> rfl

/-- Appending succeeds exactly when the operands fit. The code, and the places
if the instruction has one, grow by one entry. -/
theorem append_eq_ok {chunk later : Chunk} {place : Option Location} {op : Opcode}
    {operands : List Int} {offset : Nat} :
    chunk.append place op operands = (later, .ok offset) ↔
      Code.Fits op operands ∧ offset = chunk.size ∧
        later =
          { chunk with
            code := ⟨chunk.code.bytes ++ Code.instructionBytes op operands⟩
            places := (place.map fun place => (chunk.size, place)).toList ++ chunk.places } := by
  obtain ⟨code, constants, strings, places⟩ := chunk
  generalize appended : code.append op operands = result
  obtain ⟨⟨bytes⟩, outcome⟩ := result
  cases outcome with
  | error fault =>
      have failed : ¬ Code.Fits op operands := by
        intro fits
        have fine : code.append op operands =
            (⟨code.bytes ++ Code.instructionBytes op operands⟩, .ok _) :=
          Code.append_eq_ok.mpr ⟨fits, rfl, rfl⟩
        rw [appended] at fine
        cases fine
      simp [append, appended, failed]
  | ok found =>
      obtain ⟨fits, rfl, rfl⟩ := Code.append_eq_ok.mp appended
      cases place <;> simp [append, appended, mark, size, fits, and_comm, eq_comm]

/-- Identifiers are found without a change to the code, and they mean the names
that they were found for. -/
theorem identify_eq_some {chunk later : Chunk} {instr : Instr} {operands : List Int}
    (h : chunk.identify instr = some (later, operands)) :
    chunk.Extends later ∧ later.Resolves instr operands ∧ later.code = chunk.code ∧
      later.places = chunk.places := by
  have unchanged : chunk.Extends chunk := .refl chunk
  have numbered {constants : Pool Float} {value : Float} {id : Nat}
      (interned : chunk.constants.intern? value = some (constants, id)) :
      chunk.Extends { chunk with constants } :=
    { unchanged with
      constants := (Pool.intern?_eq_some interned).1
      constantRoom := (Pool.intern?_eq_some interned).2.1
      roomy := fun roomy => { roomy with constants := (roomy.constants.intern? interned).1 } }
  have named {strings : Pool String} {value : String} {id : Nat}
      (interned : chunk.strings.intern? value = some (strings, id)) :
      chunk.Extends { chunk with strings } ∧ strings.get? id = some value := by
    obtain ⟨kept, room, entry, found, same⟩ := Pool.intern?_eq_some interned
    refine ⟨{ unchanged with
      strings := kept
      stringRoom := room
      roomy := fun roomy => { roomy with strings := (roomy.strings.intern? interned).1 } }, ?_⟩
    rw [found, Option.some.injEq]
    rcases same with same | same
    · exact eq_of_beq same
    · exact same
  cases instr with
  | plain | deepSet | deepGet | jmp | jz =>
      obtain ⟨rfl, rfl⟩ := Prod.mk.inj (Option.some.inj h)
      exact ⟨unchanged, rfl, rfl, rfl⟩
  | const value =>
      obtain ⟨⟨constants, id⟩, interned, same⟩ := Option.map_eq_some_iff.mp h
      obtain ⟨rfl, rfl⟩ := Prod.mk.inj same
      obtain ⟨-, -, entry, found, equal⟩ := Pool.intern?_eq_some interned
      exact ⟨numbered interned, ⟨id, entry, rfl, found, equal⟩, rfl, rfl⟩
  | str | setGlobal | getGlobal | func | invoke =>
      obtain ⟨⟨strings, id⟩, interned, same⟩ := Option.map_eq_some_iff.mp h
      obtain ⟨rfl, rfl⟩ := Prod.mk.inj same
      exact ⟨(named interned).1, ⟨id, rfl, (named interned).2⟩, rfl, rfl⟩

/-- The meaning of operands does not change when a chunk grows. -/
theorem Resolves.mono {chunk later : Chunk} {instr : Instr} {operands : List Int}
    (h : chunk.Resolves instr operands) (grown : chunk.Extends later) :
    later.Resolves instr operands := by
  cases instr with
  | plain | deepSet | deepGet | jmp | jz => exact h
  | const value =>
      obtain ⟨id, entry, same, found, equal⟩ := h
      exact ⟨id, entry, same, Pool.get?_of_prefix grown.constants found, equal⟩
  | str | setGlobal | getGlobal | func | invoke =>
      obtain ⟨id, same, found⟩ := h
      exact ⟨id, same, Pool.get?_of_prefix grown.strings found⟩

/-- Lines stay where they are when a chunk grows. -/
theorem Shows.mono {chunk later : Chunk} {offset : Nat} {line : Line}
    (h : chunk.Shows offset line) (grown : chunk.Extends later) : later.Shows offset line := by
  obtain ⟨operands, resolved, fits, shown⟩ := h
  refine ⟨operands, resolved.mono grown, fits, shown.trans ?_⟩
  obtain ⟨more, same⟩ := grown.code
  rw [← same, List.drop_append]
  exact List.prefix_append _ _

/-- What it means that a line is added. -/
theorem addLine_eq_some {chunk later : Chunk} {line : Line} :
    chunk.addLine line = some later ↔
      ∃ named operands, chunk.identify line.instr = some (named, operands) ∧
        Code.Fits line.instr.op operands ∧
        later =
          { named with
            code := ⟨named.code.bytes ++ Code.instructionBytes line.instr.op operands⟩
            places := (line.place.map fun place => (named.size, place)).toList ++
              named.places } := by
  unfold addLine
  cases chunk.identify line.instr with
  | none => simp
  | some found =>
      obtain ⟨named, operands⟩ := found
      simp only [Option.some.injEq, Prod.mk.injEq]
      generalize appended : named.append line.place line.instr.op operands = result
      obtain ⟨written, outcome⟩ := result
      cases outcome with
      | error fault =>
          constructor
          · rintro ⟨⟩
          · rintro ⟨_, _, ⟨rfl, rfl⟩, fits, same⟩
            have := append_eq_ok.mpr ⟨fits, rfl, same⟩
            rw [appended] at this
            cases this
      | ok offset =>
          obtain ⟨fits, -, rfl⟩ := append_eq_ok.mp appended
          constructor
          · rintro ⟨⟩
            exact ⟨named, operands, ⟨rfl, rfl⟩, fits, rfl⟩
          · rintro ⟨_, _, ⟨rfl, rfl⟩, -, rfl⟩
            rfl

/-- An added line is shown at the end of what was there before. -/
theorem addLine_spec {chunk later : Chunk} {line : Line} (h : chunk.addLine line = some later) :
    chunk.Extends later ∧ later.Shows chunk.size line ∧ later.size = chunk.size + line.size ∧
      later.places =
        (line.place.map fun place => (chunk.size, place)).toList ++ chunk.places := by
  obtain ⟨named, operands, identified, fits, rfl⟩ := addLine_eq_some.mp h
  obtain ⟨grown, resolved, code, places⟩ := identify_eq_some identified
  have same : named.size = chunk.size := by rw [size, code, size]
  have written : named.Extends
      { named with
        code := ⟨named.code.bytes ++ Code.instructionBytes line.instr.op operands⟩
        places := (line.place.map fun place => (named.size, place)).toList ++ named.places } :=
    { Extends.refl named with
      code := by simp
      places := ⟨_, rfl, by cases line.place <;> simp⟩
      roomy := fun roomy => ⟨roomy.constants, roomy.strings⟩ }
  refine ⟨grown.trans written, ⟨operands, resolved.mono written, fits, ?_⟩, ?_, ?_⟩
  · simp [code, size, Code.size]
  · rw [← same, Line.size, ← Code.length_instructionBytes fits]
    simp [size, Code.size, ← Array.length_toList]
  · simp [same, places]

/-- The lines of a draft are shown one behind the other. -/
theorem addLines_spec {chunk later : Chunk} {lines : List Line}
    (h : chunk.addLines lines = some later) :
    chunk.Extends later ∧ (∀ p ∈ placed chunk.size lines, later.Shows p.1 p.2) ∧
      later.size = chunk.size + extent lines ∧
      later.places = (located chunk.size lines).reverse ++ chunk.places := by
  induction lines generalizing chunk with
  | nil =>
      obtain rfl := Option.some.inj h
      exact ⟨.refl chunk, by simp, by simp, by simp [located]⟩
  | cons line lines ih =>
      rw [addLines_cons, Option.bind_eq_some_iff] at h
      obtain ⟨next, added, rest⟩ := h
      obtain ⟨grown, shown, length, places⟩ := addLine_spec added
      obtain ⟨grown', shown', length', places'⟩ := ih rest
      rw [length] at shown' length' places'
      refine ⟨grown.trans grown', ?_, ?_, ?_⟩
      · intro p mem
        rw [Line.placed_cons, List.mem_cons] at mem
        rcases mem with rfl | mem
        · exact shown.mono grown'
        · exact shown' p mem
      · rw [length', Line.extent_cons, Nat.add_assoc]
      · rw [places', places, located]
        cases line.place <;> simp

end Chunk

end StackScript
