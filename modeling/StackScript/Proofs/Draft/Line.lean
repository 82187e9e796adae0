/-
# Lines of a draft

A draft is code before identifiers are chosen: its instructions name numbers,
strings and variables themselves. Every line also carries a mark, which says to
which function body the line belongs and how many values lie above the start of
the frame when control reaches it. The machine sees neither; the marks are what
the safety of code is stated with.
-/

import StackScript.Chunk.Basic

namespace StackScript

/-- An instruction whose operands mean what they say. Only an opcode without
operands can stand alone. -/
inductive Instr where
  | plain (op : Opcode) (bare : op.operands = [])
  | const (value : Float)
  | str (value : String)
  | setGlobal (name : String)
  | getGlobal (name : String)
  | deepSet (slot : Nat)
  | deepGet (slot : Nat)
  | jmp (distance : Int)
  | jz (distance : Int)
  | func (name : String) (arity start : Nat)
  | invoke (name : String) (count : Nat)

namespace Instr

/-- The opcode that an instruction is written with. -/
def op : Instr → Opcode
  | plain op _ => op
  | const _ => .const
  | str _ => .str
  | setGlobal _ => .setGlobal
  | getGlobal _ => .getGlobal
  | deepSet _ => .deepSet
  | deepGet _ => .deepGet
  | jmp _ => .jmp
  | jz _ => .jz
  | func _ _ _ => .func
  | invoke _ _ => .invoke

/-- An opcode without operands leaves nothing to say. -/
theorem eq_plain {instr : Instr} {op : Opcode} (bare : op.operands = []) (h : instr.op = op) :
    ∃ bare, instr = plain op bare := by
  subst h
  cases instr with
  | plain op _ => exact ⟨bare, rfl⟩
  | _ => cases bare

theorem eq_invoke {instr : Instr} (h : instr.op = .invoke) :
    ∃ name count, instr = invoke name count := by
  cases instr with
  | invoke name count => exact ⟨name, count, rfl⟩
  | plain op bare =>
      obtain rfl : op = .invoke := h
      cases bare
  | _ => cases h

end Instr

/-- Where control is: the start of the function body at hand, if there is one,
and the number of values above the start of the frame. -/
structure Mark where
  home : Option Nat
  height : Nat
deriving DecidableEq, Repr

/-- One line of a draft. -/
structure Line where
  place : Option Location
  mark : Mark
  instr : Instr

namespace Line

/-- The number of bytes that a line takes up. -/
def size (line : Line) : Nat := line.instr.op.size

/-- The number of bytes that several lines take up. -/
def extent : List Line → Nat
  | [] => 0
  | line :: lines => line.size + extent lines

/-- The lines with their offsets, the first of which is given. -/
def placed (offset : Nat) : List Line → List (Nat × Line)
  | [] => []
  | line :: lines => (offset, line) :: placed (offset + line.size) lines

/-- The places that the lines were made for, each with the offset of its line. -/
def located (offset : Nat) : List Line → List (Nat × Location)
  | [] => []
  | line :: lines =>
    (line.place.map fun place => (offset, place)).toList ++ located (offset + line.size) lines

variable {line : Line} {lines more : List Line} {offset : Nat}

@[simp] theorem extent_nil : extent [] = 0 := rfl

@[simp] theorem extent_cons : extent (line :: lines) = line.size + extent lines := rfl

@[simp] theorem extent_append : extent (lines ++ more) = extent lines + extent more := by
  induction lines with
  | nil => simp
  | cons line lines ih => simp [ih, Nat.add_assoc]

@[simp] theorem placed_nil : placed offset [] = [] := rfl

@[simp] theorem placed_cons :
    placed offset (line :: lines) = (offset, line) :: placed (offset + line.size) lines := rfl

@[simp] theorem placed_append :
    placed offset (lines ++ more) =
      placed offset lines ++ placed (offset + extent lines) more := by
  induction lines generalizing offset with
  | nil => simp
  | cons line lines ih => simp [ih, Nat.add_assoc]

@[simp] theorem located_append :
    located offset (lines ++ more) =
      located offset lines ++ located (offset + extent lines) more := by
  induction lines generalizing offset with
  | nil => simp [located]
  | cons line lines ih => simp [located, ih, Nat.add_assoc]

/-- No line is empty: its opcode takes up a byte. -/
theorem size_pos (line : Line) : 0 < line.size := by
  unfold size Opcode.size
  omega

/-- Lines lie between the start of the first and the end of the last. -/
theorem bounds_of_mem_placed {start : Nat} (h : (offset, line) ∈ placed start lines) :
    start ≤ offset ∧ offset + line.size ≤ start + extent lines := by
  induction lines generalizing start with
  | nil => simp at h
  | cons first rest ih =>
      rw [placed_cons, List.mem_cons] at h
      rw [extent_cons]
      rcases h with h | h
      · obtain ⟨rfl, rfl⟩ := Prod.mk.inj h
        omega
      · have := ih h
        omega

/-- Every placed line is one of the lines. -/
theorem mem_of_mem_placed {start : Nat} (h : (offset, line) ∈ placed start lines) :
    line ∈ lines := by
  induction lines generalizing start with
  | nil => simp at h
  | cons first rest ih =>
      rw [placed_cons, List.mem_cons] at h
      rcases h with h | h
      · obtain ⟨rfl, rfl⟩ := Prod.mk.inj h
        exact List.mem_cons_self
      · exact List.mem_cons_of_mem first (ih h)

/-- No two lines share an offset. -/
theorem placed_unique {start : Nat} {other : Line} (h : (offset, line) ∈ placed start lines)
    (h' : (offset, other) ∈ placed start lines) : line = other := by
  induction lines generalizing start with
  | nil => simp at h
  | cons first rest ih =>
      rw [placed_cons, List.mem_cons] at h h'
      have later {found : Line} (hmem : (offset, found) ∈ placed (start + first.size) rest) :
          start < offset :=
        Nat.lt_of_lt_of_le (Nat.lt_add_of_pos_right first.size_pos)
          (bounds_of_mem_placed hmem).1
      rcases h with h | h <;> rcases h' with h' | h'
      · exact (Prod.mk.inj h).2.trans (Prod.mk.inj h').2.symm
      · have := later h'
        have := (Prod.mk.inj h).1
        omega
      · have := later h
        have := (Prod.mk.inj h').1
        omega
      · exact ih h h'

/-- No line starts within another. -/
theorem placed_apart {start later : Nat} {other : Line} (h : (offset, line) ∈ placed start lines)
    (h' : (later, other) ∈ placed start lines) (behind : offset < later) :
    offset + line.size ≤ later := by
  induction lines generalizing start with
  | nil => simp at h
  | cons first rest ih =>
      rw [placed_cons, List.mem_cons] at h h'
      rcases h with h | h <;> rcases h' with h' | h'
      · have := (Prod.mk.inj h).1
        have := (Prod.mk.inj h').1
        omega
      · obtain ⟨rfl, rfl⟩ := Prod.mk.inj h
        exact (bounds_of_mem_placed h').1
      · have := (bounds_of_mem_placed h).1
        have := (Prod.mk.inj h').1
        omega
      · exact ih h h'

/-- The places of lines are found at their offsets. -/
theorem mem_located {start : Nat} {place : Location} :
    (offset, place) ∈ located start lines ↔
      ∃ line, (offset, line) ∈ placed start lines ∧ line.place = some place := by
  induction lines generalizing start with
  | nil => simp [located]
  | cons first rest ih =>
      rw [located, List.mem_append, ih, placed_cons]
      cases found : first.place <;> simp [found, or_and_right, exists_or, eq_comm, and_assoc]

end Line

end StackScript
