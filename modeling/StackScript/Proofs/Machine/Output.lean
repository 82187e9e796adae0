/-
# What has been printed

A machine never looks at what it has printed. A run can therefore be interrupted at any time to
bring the output to the outside, and goes on as if nothing had been taken away. The run in one
piece and the run in several pieces come to the same end.
-/

import StackScript.Machine.Run
import StackScript.Proofs.Machine.Keeping

namespace StackScript

namespace Machine

theorem flush_preceded (m : Machine) : m.flush.preceded m.output = m := by
  simp [flush, preceded]

theorem printed_preceded (m : Machine) (front : Array String) :
    (m.preceded front).printed = String.join (front.toList.map fun line => line ++ "\n") ++ m.printed := by
  simp [printed, preceded]

end Machine

namespace Exec

/-- The outcome of an action for a machine that has printed something else before. -/
def preceding {α : Type} (front : Array String) :
    EStateM.Result Fault Machine α → EStateM.Result Fault Machine α
  | .ok value later => .ok value (later.preceded front)
  | .error fault later => .error fault (later.preceded front)

/-- An action that takes no notice of what has been printed. -/
def Blind {α : Type} (x : Exec α) : Prop :=
  ∀ m front, x (m.preceded front) = preceding front (x m)

section Rules

variable {α β : Type} {x : Exec α} {f : α → Exec β}

theorem Blind.bind (first : Blind x) (onward : ∀ value, Blind (f value)) : Blind (x >>= f) := by
  intro m front
  cases outcome : x m with
  | ok value later =>
      have same : x (m.preceded front) = .ok value (later.preceded front) := by
        rw [first m front, outcome, preceding]
      rw [bind_of_ok outcome, bind_of_ok same]
      exact onward value later front
  | error fault later =>
      have same : x (m.preceded front) = .error fault (later.preceded front) := by
        rw [first m front, outcome, preceding]
      rw [bind_of_error outcome, bind_of_error same]
      rfl

/-- The state is looked at without regard to the output. -/
theorem Blind.get {f : Machine → Exec β} (same : ∀ m front, f (m.preceded front) = f m)
    (onward : ∀ m, Blind (f m)) : Blind (get >>= f) := by
  intro m front
  rw [bind_get, bind_get, same]
  exact onward m m front

theorem Blind.pure (value : α) : Blind (Pure.pure value : Exec α) := fun _ _ => rfl

theorem Blind.throw (fault : Fault) : Blind (throw fault : Exec α) := fun _ _ => rfl

theorem Blind.modify {change : Machine → Machine}
    (same : ∀ m front, change (m.preceded front) = (change m).preceded front) :
    Blind (modify change) := by
  intro m front
  rw [modify_eq, modify_eq, same]
  rfl

end Rules

theorem push_blind (value : Value) : Blind (push value) := by
  apply Blind.get fun _ _ => rfl
  intro m
  by_cases full : m.stackLimit ≤ m.stack.size
  · rw [if_pos full]
    exact Blind.bind (Blind.throw _) fun _ => Blind.modify fun _ _ => rfl
  · rw [if_neg full]
    exact Blind.modify fun _ _ => rfl

theorem pop_blind : Blind pop := by
  apply Blind.get fun _ _ => rfl
  intro m
  cases m.stack.back? with
  | none => exact Blind.throw _
  | some value => exact Blind.bind (Blind.modify fun _ _ => rfl) fun _ => Blind.pure value

theorem popMany_blind (count : Nat) : Blind (popMany count) := by
  induction count with
  | zero => exact Blind.pure []
  | succ count ih => exact Blind.bind pop_blind fun first => Blind.bind ih fun rest => Blind.pure _

theorem pushMany_blind (values : List Value) : Blind (pushMany values) := by
  induction values with
  | nil => exact Blind.pure ()
  | cons first rest ih => exact Blind.bind (push_blind first) fun _ => ih

theorem enter_blind (count : Nat) (back first : Int) : Blind (enter count back first) := by
  apply Blind.bind (popMany_blind count)
  intro arguments
  apply Blind.bind (push_blind _)
  intro _
  apply Blind.bind (Blind.modify fun _ _ => rfl)
  intro _
  exact Blind.bind (pushMany_blind _) fun _ => Blind.modify fun _ _ => rfl

theorem call_blind (name : String) (count : Nat) : Blind (perform (.invoke name count)) := by
  intro m front
  cases found : m.globals.find? name with
  | none =>
      have found' : (m.preceded front).globals.find? name = none := found
      rw [perform_invoke_missing found, perform_invoke_missing found']
      rfl
  | some value =>
      have found' : (m.preceded front).globals.find? name = some value := found
      by_cases callable : value.kind = .function
      · obtain ⟨function, rfl⟩ : ∃ function, value = .function function := by
          cases value <;> first | exact ⟨_, rfl⟩ | cases callable
        by_cases right : (count : Int) = function.arity
        · by_cases full : m.frameLimit ≤ m.frames.size
          · rw [perform_invoke_frames found right full, perform_invoke_frames found' right full]
            rfl
          · rw [perform_invoke found right (Nat.not_le.mp full),
              perform_invoke found' right (Nat.not_le.mp full)]
            exact enter_blind _ _ _ m front
        · rw [perform_invoke_arity found right, perform_invoke_arity found' right]
          rfl
      · rw [perform_invoke_other found callable, perform_invoke_other found' callable]
        rfl

theorem inherited_blind : Inherited fun x => Blind x where
  pure := Blind.pure
  throw := Blind.throw
  bind := Blind.bind
  get same _ onward := Blind.get same onward
  push := push_blind
  pop := pop_blind
  jumpBy distance := Blind.modify fun _ _ => rfl
  jumpTo target := Blind.modify fun _ _ => rfl
  define name value := Blind.modify fun _ _ => rfl
  record line := Blind.modify fun _ _ => by simp [Machine.preceded]
  store place value := Blind.modify fun _ _ => rfl
  call := call_blind
  leave frame := Blind.modify fun _ _ => rfl
  exit := Blind.modify fun _ _ => rfl

end Exec

namespace Machine

variable {m : Machine}

theorem step_preceded (m : Machine) (front : Array String) :
    (m.preceded front).step = (m.step.1.preceded front, m.step.2) := by
  rw [step, step]
  by_cases halted : m.halted = true
  · rw [if_pos halted, if_pos (show (m.preceded front).halted = true from halted)]
  · rw [if_neg halted, if_neg (show ¬ (m.preceded front).halted = true from halted),
      show (m.preceded front).current? = m.current? from rfl]
    cases m.current? with
    | none => rfl
    | some byte =>
        have blind := Exec.inherited_blind.execute byte { m with offset := m.ip } front
        rw [show ({ m with offset := m.ip } : Machine).preceded front =
          { m.preceded front with offset := (m.preceded front).ip } from rfl] at blind
        dsimp only
        rw [blind]
        cases Exec.execute byte { m with offset := m.ip } with
        | ok value later => rfl
        | error fault later => rfl

/-- A run does not depend on what was printed before. -/
theorem runFor_preceded (m : Machine) (front : Array String) (made count : Nat) :
    (m.preceded front).runFor made count =
      ((m.runFor made count).1.preceded front, (m.runFor made count).2) := by
  induction count generalizing m made with
  | zero => rfl
  | succ count ih =>
      rw [runFor, runFor, step_preceded]
      obtain ⟨later, outcome⟩ := m.step
      match outcome with
      | .error fault => rfl
      | .ok false => rfl
      | .ok true => exact ih later (made + 1)

/-- The number of steps made before is only added to. -/
theorem runFor_made (m : Machine) (made count : Nat) :
    m.runFor made count =
      ((m.runFor 0 count).1, made + (m.runFor 0 count).2.1, (m.runFor 0 count).2.2) := by
  induction count generalizing m made with
  | zero => rfl
  | succ count ih =>
      rw [runFor, runFor]
      obtain ⟨later, outcome⟩ := m.step
      match outcome with
      | .error fault => rfl
      | .ok false => rfl
      | .ok true =>
          simp only [Nat.zero_add]
          rw [ih later (made + 1), ih later 1]
          simp only [Nat.add_assoc]

/-- A run can be made in two parts, unless the first of them comes to the end. -/
theorem runFor_add (m : Machine) (made count more : Nat) :
    m.runFor made (count + more) =
      match m.runFor made count with
      | (later, made, .counted) => later.runFor made more
      | ended => ended := by
  induction count generalizing m made with
  | zero =>
      rw [Nat.zero_add]
      rfl
  | succ count ih =>
      rw [Nat.add_right_comm, runFor, runFor]
      obtain ⟨later, outcome⟩ := m.step
      match outcome with
      | .error fault => rfl
      | .ok false => rfl
      | .ok true => exact ih later (made + 1)

/-- A run that has come to its end stays there. -/
theorem runFor_of_ended {made count : Nat} (ended : (m.runFor made count).2.2 ≠ .counted)
    (more : Nat) : m.runFor made (count + more) = m.runFor made count := by
  rw [runFor_add]
  generalize m.runFor made count = run at ended ⊢
  obtain ⟨later, steps, ending⟩ := run
  cases ending with
  | counted => exact absurd rfl ended
  | halted => rfl
  | failed fault => rfl

/-- A run can be interrupted to take its output away. -/
theorem runFor_interrupted {later : Machine} {steps count : Nat}
    (counted : m.runFor 0 count = (later, steps, .counted)) (more : Nat) :
    m.runFor 0 (count + more) =
      ((later.flush.runFor 0 more).1.preceded later.output,
        steps + (later.flush.runFor 0 more).2.1, (later.flush.runFor 0 more).2.2) := by
  have onward := runFor_preceded later.flush later.output 0 more
  rw [flush_preceded] at onward
  rw [runFor_add, counted]
  dsimp only
  rw [runFor_made, onward]

end Machine

end StackScript
