/-
# The stack of a running program

While a program runs, its stack is made of the values of the calls that have not
returned. Each call has its return address below its values and its frame just
above that address, and the call that it came from goes on where the address
says. What lies below some point is left alone: this floor is the bottom of the
stack for a program as a whole, and the frame of a call for the time that the
call takes.
-/

import StackScript.Proofs.Draft.Marks
import StackScript.Proofs.Machine.Effects

namespace StackScript

open Line (extent placed Reaches Closed)

/-- A value that a program can come to: no function that the program does not define, and
no return address, unless it may have been given some that stray about. -/
def Value.Known (lines : List Line) (strays : Prop) : Value → Prop
  | .pointer _ => strays
  | .function callee =>
    ∃ (offset : Nat) (line : Line) (arity start : Nat), (offset, line) ∈ placed 0 lines ∧
      line.instr = .func callee.name arity start ∧ callee.arity = arity ∧ callee.start = start
  | _ => True

/-- What is below the part of the stack that is looked at, and the function whose
values lie directly above it. Return addresses may be found among the values only where
they `stray`, which no program lets them do by itself. -/
structure Floor where
  stack : List Value
  frames : List Nat
  home : Option Nat
  strays : Prop := False

/-- The floor of a program: nothing. -/
def Floor.ground : Floor := { stack := [], frames := [], home := none }

/-- The frame of a call starts directly above its floor. -/
def Floor.Anchored (floor : Floor) : Prop :=
  floor.home.isSome → ∃ frames, floor.frames = frames ++ [floor.stack.length]

theorem Floor.anchored_ground : ground.Anchored := fun inside => nomatch inside

/-- A stack and its frames at a place in the code with the given mark. -/
inductive Stacked (lines : List Line) (floor : Floor) : Mark → List Value → List Nat → Prop
  | base {values : List Value} :
      (∀ value ∈ values, value.Known lines floor.strays) →
        Stacked lines floor ⟨floor.home, values.length⟩ (floor.stack ++ values) floor.frames
  | call {caller : Mark} {below values : List Value} {frames : List Nat} {offset start : Nat}
      {line : Line} {name : String} {count : Nat} :
      Stacked lines floor caller below frames → (offset, line) ∈ placed 0 lines →
        line.instr = .invoke name count → line.mark = ⟨caller.home, caller.height + count⟩ →
        (∀ value ∈ values, value.Known lines floor.strays) →
          Stacked lines floor ⟨some start, values.length⟩
            (below ++ .pointer (offset + 2 : Nat) :: values) (frames ++ [below.length + 1])

namespace Stacked

variable {lines : List Line} {floor : Floor} {mark : Mark} {stack : List Value}
  {frames : List Nat}

/-- The values of the innermost call lie on top, where its frame starts, and may be
exchanged for any others. -/
theorem innermost (h : Stacked lines floor mark stack frames) (anchored : floor.Anchored) :
    ∃ below values, stack = below ++ values ∧ values.length = mark.height ∧
      (∀ value ∈ values, value.Known lines floor.strays) ∧
      (mark.home.isSome → ∃ earlier, frames = earlier ++ [below.length]) ∧
      floor.stack <+: below ∧ floor.frames <+: frames ∧
      ∀ others : List Value, (∀ value ∈ others, value.Known lines floor.strays) →
        Stacked lines floor ⟨mark.home, others.length⟩ (below ++ others) frames := by
  induction h with
  | base known =>
      exact ⟨_, _, rfl, rfl, known, anchored, List.prefix_refl _, List.prefix_refl _,
        fun others => .base⟩
  | call outer mem isInvoke sameMark known ih =>
      rename_i caller below values frames offset start line name count
      obtain ⟨lower, upper, rfl, -, -, -, onStack, onFrames, -⟩ := ih
      refine ⟨lower ++ upper ++ [.pointer (offset + 2 : Nat)], values, by simp, rfl, known, ?_,
        ?_, ?_, ?_⟩
      · exact fun _ => ⟨frames, by simp [Nat.add_assoc]⟩
      · rw [List.append_assoc]
        exact onStack.trans (List.prefix_append _ _)
      · exact onFrames.trans (List.prefix_append _ _)
      · intro others known'
        have called : Stacked lines floor ⟨some start, others.length⟩ _ _ :=
          .call outer mem isInvoke sameMark known'
        simpa using called

/-- Some values may be taken off the stack, and others put in their place. -/
theorem take (h : Stacked lines floor mark stack frames) (anchored : floor.Anchored)
    {count : Nat} (enough : count ≤ mark.height) :
    ∃ kept taken, stack = kept ++ taken ∧ taken.length = count ∧
      (∀ value ∈ taken, value.Known lines floor.strays) ∧ floor.stack <+: kept ∧
      floor.frames <+: frames ∧
      ∀ others : List Value, (∀ value ∈ others, value.Known lines floor.strays) →
        Stacked lines floor ⟨mark.home, mark.height - count + others.length⟩ (kept ++ others)
          frames := by
  obtain ⟨below, values, rfl, length, known, -, onStack, onFrames, exchange⟩ := h.innermost anchored
  refine ⟨below ++ values.take (mark.height - count), values.drop (mark.height - count), by simp,
    ?_, ?_, ?_, onFrames, ?_⟩
  · rw [List.length_drop, length]
    omega
  · exact fun value mem => known value (List.mem_of_mem_drop mem)
  · exact onStack.trans (List.prefix_append _ _)
  · intro others known'
    have exchanged := exchange (values.take (mark.height - count) ++ others) (by
      intro value mem
      rcases List.mem_append.mp mem with mem | mem
      · exact known value (List.mem_of_mem_take mem)
      · exact known' value mem)
    have same : (values.take (mark.height - count) ++ others).length =
        mark.height - count + others.length := by
      rw [List.length_append, List.length_take, length, Nat.min_eq_left (Nat.sub_le _ _)]
    rw [same] at exchanged
    simpa using exchanged

/-- Outside of all functions nothing but the values above the floor is there. -/
theorem outside (h : Stacked lines floor mark stack frames) (outside : mark.home = none)
    (empty : mark.height = 0) :
    floor.home = none ∧ stack = floor.stack ∧ frames = floor.frames := by
  cases h with
  | base known =>
      rename_i values
      obtain rfl : values = [] := List.eq_nil_of_length_eq_zero empty
      exact ⟨outside, by simp, rfl⟩
  | call => cases outside

end Stacked

end StackScript
