/-
# Safety

A machine that has loaded a program comes to sound states only, until it is
halted. So it is always at the beginning of an instruction, no step finds fault
with the code itself, and a run that ends well ends at the last instruction with
nothing left on the stack.
-/

import StackScript.Proofs.Lowering.Layout
import StackScript.Proofs.Lowering.Whole
import StackScript.Proofs.Machine.Keeping
import StackScript.Proofs.Machine.Soundness

namespace StackScript

/-- The instruction to stop has no operands. -/
theorem Chunk.Assembled.has_exit {chunk : Chunk} {lines : List Line} {offset : Nat} {line : Line}
    (h : chunk.Assembled lines) (mem : (offset, line) ∈ Line.placed 0 lines)
    (isExit : line.instr.op = .exit) : chunk.Has offset .exit [] := by
  obtain ⟨operands, found, resolves⟩ := h.mem_of_line mem
  obtain ⟨bare, same⟩ := Instr.eq_plain rfl isExit
  rw [same] at found resolves
  obtain rfl : operands = [] := resolves
  exact found

namespace Machine

/-- The state after a number of steps. -/
def after (m : Machine) : Nat → Machine
  | 0 => m
  | count + 1 => (m.after count).step.1

/-- A halted machine stays as it is. -/
theorem step_halted {m : Machine} (halted : m.halted) : m.step = (m, .ok false) := by
  rw [step, if_pos halted]

variable {chunk : Chunk} {lines : List Line} {m : Machine}

theorem Bounded.after (h : m.Bounded) (count : Nat) : (m.after count).Bounded := by
  induction count with
  | zero => exact h
  | succ count ih => exact ih.step

/-- A machine on its way through a program from the beginning: it has come to a line
or is halted. -/
def Steady (chunk : Chunk) (lines : List Line) (floor : Floor) (m : Machine) : Prop :=
  m.halted ∨ ∃ offset line, Sound chunk lines floor offset line m

/-- A loaded program is at its first line. -/
theorem sound_load (runs : chunk.Runs lines) (stackLimit frameLimit : Nat) :
    ∃ line, Sound chunk lines .ground 0 line ((Machine.new stackLimit frameLimit).load chunk) := by
  obtain ⟨line, listed, mark⟩ := runs.starts
  refine ⟨line, rfl, rfl, rfl, rfl, listed, ?_, ?_, Nat.zero_le _⟩
  · rw [mark]
    have empty : Stacked lines .ground ⟨none, ([] : List Value).length⟩ _ _ := .base (by simp)
    exact empty
  · intro name value found
    rw [Globals.find?] at found
    simp [load, new, Globals.empty] at found

theorem steady_load (runs : chunk.Runs lines) (stackLimit frameLimit : Nat) :
    Steady chunk lines .ground ((Machine.new stackLimit frameLimit).load chunk) :=
  .inr ⟨0, sound_load runs stackLimit frameLimit⟩

/-- From the beginning of a program on, no step returns to below the floor. -/
theorem Sound.step_outside {floor : Floor} {offset : Nat} {line : Line}
    (h : Sound chunk lines floor offset line m) (runs : chunk.Runs lines)
    (outside : floor.home = none) : Proceeds chunk lines floor line m.step := by
  have anchored : floor.Anchored := fun inside => by simp [outside] at inside
  rcases h.step runs.assembled runs.closed anchored with proceeds | returning
  · exact proceeds
  · have inside := returning.inside
    simp [outside] at inside

/-- A step keeps the chunk, and remembers where its instruction began. -/
theorem Sound.during {floor : Floor} {offset : Nat} {line : Line}
    (h : Sound chunk lines floor offset line m) (assembled : chunk.Assembled lines)
    (bounded : m.Bounded) : During { m with offset := offset } 0 m.step.1 := by
  obtain ⟨instr, -, faces⟩ := h.faces assembled
  obtain ⟨began, during, here⟩ := bounded.during_step m.steps
  obtain rfl : began = offset := (here h.running (by simp [faces.current?])).trans h.ip
  exact during

theorem Steady.step {floor : Floor} (h : Steady chunk lines floor m) (runs : chunk.Runs lines)
    (outside : floor.home = none) : Steady chunk lines floor m.step.1 := by
  rcases h with halted | ⟨offset, line, sound⟩
  · rw [step_halted halted]
    exact .inl halted
  · have proceeds := sound.step_outside runs outside
    generalize m.step = result at proceeds
    obtain ⟨later, outcome⟩ := result
    match outcome with
    | .ok true => exact .inr proceeds
    | .ok false => exact .inl proceeds.2.2.1
    | .error fault => exact .inl proceeds.2.1

theorem Steady.after {floor : Floor} (h : Steady chunk lines floor m) (runs : chunk.Runs lines)
    (outside : floor.home = none) (count : Nat) : Steady chunk lines floor (m.after count) := by
  induction count with
  | zero => exact h
  | succ count ih => exact ih.step runs outside

/-- No fault of a program is the fault of its code. -/
theorem Steady.benign {floor : Floor} (h : Steady chunk lines floor m) (runs : chunk.Runs lines)
    (outside : floor.home = none) {fault : Fault} (failed : m.step.2 = .error fault) :
    fault.isMalformed = false := by
  rcases h with halted | ⟨offset, line, sound⟩
  · rw [step_halted halted] at failed
    cases failed
  · have proceeds := sound.step_outside runs outside
    rw [show m.step = (m.step.1, .error fault) from Prod.ext rfl failed] at proceeds
    exact proceeds.1

/-- What can be said of a state of a program, and of the step that comes next. -/
structure Orderly (chunk : Chunk) (m : Machine) : Prop where
  /-- The machine is at the beginning of an instruction. -/
  listed : m.halted = false → ∃ offset : Nat, m.ip = offset ∧ chunk.Lists offset
  /-- No fault is the fault of the code. -/
  benign : ∀ fault, m.step.2 = .error fault → fault.isMalformed = false
  /-- The program ends by the instruction for it, with nothing left. -/
  ends : m.halted = false → m.step.2 = .ok false →
    (∃ offset : Nat, m.ip = offset ∧ chunk.Has offset .exit []) ∧
      m.step.1.halted ∧ m.step.1.stack = #[] ∧ m.step.1.frames = #[]

theorem Steady.orderly (h : Steady chunk lines .ground m) (runs : chunk.Runs lines) :
    m.Orderly chunk := by
  have benign (fault : Fault) (failed : m.step.2 = .error fault) : fault.isMalformed = false :=
    h.benign runs rfl failed
  rcases h with halted | ⟨offset, line, sound⟩
  · refine ⟨?_, benign, ?_⟩
    · intro running
      simp [halted] at running
    · intro running
      simp [halted] at running
  · have proceeds := sound.step_outside runs rfl
    refine ⟨?_, benign, ?_⟩
    · intro _
      exact ⟨offset, sound.ip, runs.assembled.lists_iff.mpr ⟨line, sound.listed⟩⟩
    · intro _ stopped
      rw [show m.step = (m.step.1, .ok false) from Prod.ext rfl stopped] at proceeds
      obtain ⟨isExit, -, halted, stack, frames⟩ := proceeds
      refine ⟨⟨offset, sound.ip, ?_⟩, halted, Array.toList_inj.mp stack,
        Array.toList_inj.mp frames⟩
      exact runs.assembled.has_exit sound.listed isExit

end Machine

/-- A program never trips over its own code: whatever was added to the chunk before,
and whatever limits the machine has, every state that it comes to is orderly. -/
theorem Chunk.Built.states_orderly {poolSize limit bytes : Nat} {chunk whole : Chunk}
    {ranges : List (Nat × Nat)} {program : List Node} (small : poolSize ≤ Chunk.maxPoolSize)
    (built : Chunk.Built poolSize chunk ranges)
    (added : chunk.addProgram limit program = (whole, .ok bytes))
    (stackLimit frameLimit count : Nat) :
    (((Machine.new stackLimit frameLimit).load whole).after count).Orderly whole := by
  obtain ⟨lines, runs⟩ := built.runs small added
  exact ((Machine.steady_load runs stackLimit frameLimit).after runs rfl count).orderly runs

/-- A program that defines a function and prints the result of a call. -/
def Node.callIdentity : List Node :=
  [.statement .identity, .statement (.print default (.call default "same" [.literal default .null]))]

theorem Chunk.states_orderly_identity :
    ∃ whole, (Chunk.empty 256).addProgram 10 Node.callIdentity = (whole, .ok 16) ∧
      (((Machine.new 4 4).load whole).after 3).Orderly whole := by
  have added : (Chunk.empty 256).addProgram 10 Node.callIdentity =
      (((Chunk.empty 256).addProgram 10 Node.callIdentity).1, .ok 16) :=
    Chunk.eq_ok_of_bytes (by decide +kernel)
  exact ⟨_, added, Chunk.Built.states_orderly (by decide) .empty added 4 4 3⟩

end StackScript
