/-
# The console

The console runs a machine in batches, and prints after each batch what has come together. What
it does in the end is the same as if the machine had been run in one piece: the output of the
whole run is printed, in some number of pieces, and then the outcome of the run is reported.
-/

import Mathlib
import StackScript.Console
import StackScript.Proofs.Machine.Output

namespace StackScript

/-- The fault that a run has come to, if any. -/
def Machine.RunEnd.fault? : Machine.RunEnd → Option Fault
  | .failed fault => some fault
  | _ => none

namespace Console

variable {console : Console} {m after : Machine} {made count : Nat} {ending : Machine.RunEnd}

/-- Prints pieces of text one after the other. -/
def printAll (console : Console) (pieces : List String) : IO Unit := pieces.forM console.print

theorem printAll_append (pieces more : List String) :
    console.printAll (pieces ++ more) = (do
      console.printAll pieces
      console.printAll more) := List.forM_append

/-- The console goes on as long as there is another batch. -/
theorem finish_eq (console : Console) (m : Machine) :
    console.finish m = console.advance m >>= fun
      | .inl after => console.finish after
      | .inr ended => pure ended := by
  rw [finish, repeatM_eq_of_monadTail, repeatM.body]
  apply bind_congr
  intro next
  cases next <;> rfl

/-- What the console does with one batch. -/
theorem finish_batch (run : m.runFor 0 batch = (after, made, ending)) :
    ∃ pieces, String.join pieces = after.printed ∧ console.finish m = (do
      console.printAll pieces
      match ending with
      | .counted => console.finish after.flush
      | ended => return (after.flush, ended.fault?)) := by
  by_cases quiet : after.output.isEmpty
  · refine ⟨[], ?_, ?_⟩
    · simp [Machine.printed, Array.isEmpty_iff.mp quiet]
    · rw [finish_eq, advance, run]
      simp only [quiet]
      cases ending <;> rfl
  · refine ⟨[after.printed], ?_, ?_⟩
    · simp
    · rw [finish_eq, advance, run]
      simp only [quiet]
      cases ending <;> simp [printAll, Machine.RunEnd.fault?]

/-- Two runs of a machine that both come to an end come to the same end. -/
theorem runFor_eq_of_ended {more : Nat} (ended : (m.runFor 0 count).2.2 ≠ .counted)
    (ended' : (m.runFor 0 more).2.2 ≠ .counted) : m.runFor 0 count = m.runFor 0 more := by
  rcases Nat.le_total count more with le | le
  · obtain ⟨rest, rfl⟩ := Nat.exists_eq_add_of_le le
    exact (Machine.runFor_of_ended ended rest).symm
  · obtain ⟨rest, rfl⟩ := Nat.exists_eq_add_of_le le
    exact Machine.runFor_of_ended ended' rest

/-- A run that comes to an end after its first batch is longer than the batch. -/
theorem batch_lt (ended : (m.runFor 0 count).2.2 ≠ .counted)
    (counted : (m.runFor 0 batch).2.2 = .counted) : batch < count := by
  by_contra shorter
  obtain ⟨rest, sum⟩ := Nat.exists_eq_add_of_le (Nat.not_lt.mp shorter)
  apply ended
  rw [← Machine.runFor_of_ended ended rest, ← sum]
  exact counted

/-- Left to the console, one machine comes to another. All that this one has printed is printed, in
some number of pieces, and the fault is handed over. -/
def Finishes (console : Console) (m after : Machine) (fault? : Option Fault) : Prop :=
  ∃ pieces, String.join pieces = after.printed ∧ console.finish m = (do
    console.printAll pieces
    return (after.flush, fault?))

theorem finishes_of_ended (run : m.runFor 0 batch = (after, made, ending))
    (ended : ending ≠ .counted) : console.Finishes m after ending.fault? := by
  obtain ⟨pieces, joined, same⟩ := @finish_batch console _ _ _ _ run
  refine ⟨pieces, joined, ?_⟩
  rw [same]
  cases ending with
  | counted => exact absurd rfl ended
  | halted => rfl
  | failed fault => rfl

/-- What the first batch has printed comes before all that is printed later. -/
theorem finishes_of_counted {fault? : Option Fault} {later : Machine}
    (run : m.runFor 0 batch = (later, made, .counted))
    (onward : console.Finishes later.flush after fault?) :
    console.Finishes m (after.preceded later.output) fault? := by
  obtain ⟨pieces, joined, same⟩ := @finish_batch console _ _ _ _ run
  obtain ⟨others, joined', same'⟩ := onward
  refine ⟨pieces ++ others, ?_, ?_⟩
  · rw [String.join_append, joined, joined', Machine.printed_preceded]
    rfl
  · rw [same, printAll_append, bind_assoc]
    simp only [same']
    rfl

/-- Where the run of a machine comes to an end, the console prints all of its output and nothing
else. -/
theorem finishes (run : m.runFor 0 count = (after, made, ending)) (ended : ending ≠ .counted) :
    console.Finishes m after ending.fault? := by
  have whole : (m.runFor 0 count).2.2 ≠ .counted := by
    rw [run]
    exact ended
  induction count using Nat.strongRecOn generalizing m after made with
  | _ count ih =>
    cases first : m.runFor 0 batch with
    | mk later rest =>
      obtain ⟨steps, stop⟩ := rest
      by_cases counted : stop = .counted
      · subst counted
        have longer : batch < count := batch_lt whole (by rw [first])
        obtain ⟨rest, rfl⟩ := Nat.exists_eq_add_of_le (Nat.le_of_lt longer)
        have smaller : rest < batch + rest := Nat.lt_add_of_pos_left (by decide)
        rw [Machine.runFor_interrupted first] at run
        cases run
        exact finishes_of_counted first (ih rest smaller rfl ended)
      · have same : m.runFor 0 count = m.runFor 0 batch := by
          apply runFor_eq_of_ended whole
          rw [first]
          exact counted
        rw [run] at same
        exact finishes_of_ended same.symm ended

end Console

end StackScript
