/-
# Blocks of names

A scope keeps one row of names and remembers at which slots the blocks start. What it means is a
stack of blocks, the innermost first, each with the names that it has declared itself, the last one
first. A name is sought in all the blocks, but declared only once in each.
-/

import StackScript.Chunk.Scope

namespace StackScript

/-- The blocks around a place in a function, the innermost first, each with the names that it has
declared, the last one first. -/
abbrev Blocks : Type := List (List String)

namespace Blocks

/-- The number of names in all the blocks. -/
def size (blocks : Blocks) : Nat := blocks.flatten.length

/-- The blocks after a declaration in the innermost one. -/
def declare (name : String) : Blocks → Blocks
  | [] => []
  | inner :: outer => (name :: inner) :: outer

/-- The slots at which the blocks start. -/
def starts : Blocks → List Nat
  | [] => []
  | _ :: outer => size outer :: starts outer

end Blocks

namespace Scope

variable {scope : Scope} {blocks outer : Blocks} {inner : List String}

/-- A scope is what it has to be for the given blocks. -/
structure Shows (scope : Scope) (blocks : Blocks) : Prop where
  names : scope.names = blocks.flatten
  starts : scope.base :: scope.outer = blocks.starts
  room : scope.size ≤ scope.capacity

namespace Shows

/-- At the beginning of a function there is one block, without names. -/
theorem initial (capacity : Nat) : Shows { capacity } [[]] := ⟨rfl, rfl, Nat.zero_le _⟩

theorem size_eq (h : scope.Shows blocks) : scope.size = blocks.size := congrArg List.length h.names

theorem base_eq (h : scope.Shows (inner :: outer)) : scope.base = outer.size :=
  (List.cons.inj h.starts).1

/-- The names that the innermost block has declared are those above its first slot. -/
theorem innermost_eq (h : scope.Shows (inner :: outer)) : scope.innermost = inner := by
  have count : scope.size - scope.base = inner.length := by
    rw [h.size_eq, h.base_eq]
    simp [Blocks.size]
  rw [innermost, count, h.names]
  simp

/-- A scope with room for a name shows the blocks with the name in the innermost one. -/
theorem push (h : scope.Shows blocks) (room : scope.size < scope.capacity) (name : String) :
    Shows { scope with names := name :: scope.names } (blocks.declare name) := by
  obtain ⟨names, starts, -⟩ := h
  cases blocks with
  | nil => cases starts
  | cons inner outer => exact ⟨congrArg (name :: ·) names, starts, room⟩

theorem enter (h : scope.Shows blocks) : scope.enter.Shows ([] :: blocks) := by
  refine ⟨h.names, ?_, h.room⟩
  show scope.size :: scope.base :: scope.outer = blocks.size :: blocks.starts
  rw [h.size_eq, h.starts]

/-- The end of a block gives back the scope of the blocks around it. -/
theorem leave (h : scope.Shows (inner :: blocks)) (around : blocks ≠ []) :
    scope.leave.Shows blocks := by
  obtain ⟨base, outer⟩ := List.cons.inj h.starts
  have kept : scope.names.drop (scope.size - scope.base) = blocks.flatten := by
    rw [h.size_eq, base, h.names]
    simp [Blocks.size]
  cases blocks with
  | nil => exact absurd rfl around
  | cons next further =>
      have left : scope.leave =
          { scope with
            names := scope.names.drop (scope.size - scope.base)
            base := Blocks.size further
            outer := Blocks.starts further } := by
        rw [Scope.leave, outer]
        rfl
      rw [left]
      refine ⟨kept, rfl, ?_⟩
      refine Nat.le_trans ?_ h.room
      simp only [Scope.size, List.length_drop]
      omega

end Shows

end Scope

end StackScript
