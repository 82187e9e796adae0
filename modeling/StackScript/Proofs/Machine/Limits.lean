/-
# Limits

Where a program gets to does not depend on the limits of the machine, as long as
none is exceeded. Steps are therefore looked at under all limits at once: such a
step leads to the same state under each of them, unless a limit leaves no room for
what is on the stack already.
-/

import StackScript.Machine.Run
import StackScript.Proofs.Machine.Effects

namespace StackScript

namespace Machine

/-- The same state under other limits. -/
def limited (m : Machine) (stackLimit frameLimit : Nat) : Machine :=
  { m with stackLimit, frameLimit }

/-- The next step exceeds a limit. -/
def Overflows (m : Machine) : Prop :=
  ∃ later fault, m.step = (later, .error fault) ∧
    (fault = .stackOverflow ∨ fault = .frameOverflow) ∧ later.output = m.output

/-- A step under all limits. -/
structure Moves (m later : Machine) : Prop where
  printed : m.output.toList <+: later.output.toList
  steps : ∀ stackLimit frameLimit,
    (m.limited stackLimit frameLimit).step = (later.limited stackLimit frameLimit, .ok true) ∨
      (m.limited stackLimit frameLimit).Overflows ∧
        (stackLimit ≤ m.stack.size ∨ frameLimit ≤ m.frames.size)

/-- Several steps under all limits. -/
inductive Goes : Nat → Machine → Machine → Prop
  | refl (m : Machine) : Goes 0 m m
  | cons {count : Nat} {m mid later : Machine} :
      Moves m mid → Goes count mid later → Goes (count + 1) m later

/-- A run has come to its end because a limit was exceeded. By then it has printed no
more than it should. -/
structure Overflown (run : Machine × Nat × RunEnd) (output : List String) : Prop where
  ending : run.2.2 = .failed .stackOverflow ∨ run.2.2 = .failed .frameOverflow
  printed : run.1.output.toList <+: output

theorem runFor_of_step {m later : Machine} (h : m.step = (later, .ok true)) (made count : Nat) :
    m.runFor made (count + 1) = later.runFor (made + 1) count := by
  rw [runFor, h]

theorem Overflows.overflown {m : Machine} (h : m.Overflows) {output : List String}
    (printed : m.output.toList <+: output) (made count : Nat) :
    Overflown (m.runFor made (count + 1)) output := by
  obtain ⟨later, fault, failed, which, same⟩ := h
  rw [runFor, failed]
  constructor
  · rcases which with rfl | rfl
    · exact .inl rfl
    · exact .inr rfl
  · rw [← same] at printed
    exact printed

namespace Goes

variable {m mid later : Machine} {first second count : Nat}

theorem single (h : Moves m later) : Goes 1 m later := .cons h (.refl later)

theorem trans (h : Goes first m mid) (h' : Goes second mid later) :
    Goes (first + second) m later := by
  induction h with
  | refl m => exact (Nat.zero_add second).symm ▸ h'
  | cons moves _ ih =>
      rw [Nat.add_right_comm]
      exact .cons moves (ih h')

theorem printed (h : Goes count m later) : m.output.toList <+: later.output.toList := by
  induction h with
  | refl m => exact List.prefix_refl _
  | cons moves _ ih => exact moves.printed.trans ih

/-- Steps can be made in two parts. -/
theorem split (h : Goes (first + second) m later) :
    ∃ mid, Goes first m mid ∧ Goes second mid later := by
  induction first generalizing m with
  | zero =>
      rw [Nat.zero_add] at h
      exact ⟨m, .refl m, h⟩
  | succ first ih =>
      rw [Nat.add_right_comm] at h
      cases h with
      | cons moves rest =>
          obtain ⟨mid, start, goes⟩ := ih rest
          exact ⟨mid, .cons moves start, goes⟩

/-- Under any limits, a run makes all of the steps or exceeds a limit on the way. -/
theorem runFor (h : Goes count m later) {output : List String}
    (final : later.output.toList <+: output) (stackLimit frameLimit made more : Nat) :
    (m.limited stackLimit frameLimit).runFor made (more + count) =
        (later.limited stackLimit frameLimit).runFor (made + count) more ∨
      Overflown ((m.limited stackLimit frameLimit).runFor made (more + count)) output := by
  induction h generalizing made with
  | refl m => exact .inl rfl
  | cons moves rest ih =>
      rename_i count m mid later
      rcases moves.steps stackLimit frameLimit with stepped | ⟨overflows, -⟩
      · rw [← Nat.add_assoc, runFor_of_step stepped, Nat.add_comm count, ← Nat.add_assoc made]
        exact ih final (made + 1)
      · exact .inr (overflows.overflown ((moves.printed.trans rest.printed).trans final) _ _)

/-- Under limits that are large enough, a run makes all of the steps. -/
theorem runFor_of_large (h : Goes count m later) :
    ∃ bound, ∀ stackLimit frameLimit, bound ≤ stackLimit → bound ≤ frameLimit → ∀ made more,
      (m.limited stackLimit frameLimit).runFor made (more + count) =
        (later.limited stackLimit frameLimit).runFor (made + count) more := by
  induction h with
  | refl m => exact ⟨0, fun _ _ _ _ _ _ => rfl⟩
  | cons moves rest ih =>
      rename_i count m mid later
      obtain ⟨bound, large⟩ := ih
      refine ⟨max bound (max m.stack.size m.frames.size + 1), ?_⟩
      intro stackLimit frameLimit stackLarge frameLarge made more
      rw [Nat.max_le] at stackLarge frameLarge
      rcases moves.steps stackLimit frameLimit with stepped | ⟨-, full⟩
      · rw [← Nat.add_assoc, runFor_of_step stepped, Nat.add_comm count, ← Nat.add_assoc made]
        exact large stackLimit frameLimit stackLarge.1 frameLarge.1 (made + 1) more
      · omega

end Goes

end Machine

end StackScript
