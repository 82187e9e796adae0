/-
# Wider limits

The limits of a machine say when a run is cut short, and nothing else. Two machines that differ in
their limits only pass through the same states, up to the limits themselves, as long as the
tighter ones are not exceeded. A step that exceeds a limit has printed nothing by then that the
same step does not print under wider limits.

Wider limits are a machine with so much more room. What an instruction does with more room is told
by the actions that it consists of. An action that exceeds a limit in the midst of an instruction
may go on with more room, and print; this is why the judgement also asks that it does not matter
what was printed before.
-/

import StackScript.Proofs.Machine.Limits
import StackScript.Proofs.Machine.Output

namespace StackScript

/-- Does a fault say that a limit is exceeded? -/
def Fault.isOverflow : Fault → Bool
  | stackOverflow | frameOverflow => true
  | _ => false

/-- Did a run end because a limit was exceeded? -/
def Machine.RunEnd.isOverflow : RunEnd → Bool
  | failed fault => fault.isOverflow
  | _ => false

/-- A machine with so much more room for values and frames. -/
def Machine.widened (m : Machine) (stack frames : Nat) : Machine :=
  { m with stackLimit := m.stackLimit + stack, frameLimit := m.frameLimit + frames }

namespace Exec

variable {stack frames : Nat} {m : Machine} {α β : Type}

/-- The state that an action ends in, whether or not it fails. -/
def endState : EStateM.Result Fault Machine α → Machine
  | .ok _ later => later
  | .error _ later => later

/-- The second outcome is the first one with more room, unless the first one exceeds a limit: then
at least as much has been printed in the second one. -/
def Outgrown (stack frames : Nat) :
    EStateM.Result Fault Machine α → EStateM.Result Fault Machine α → Prop
  | .ok value later, wider => wider = .ok value (later.widened stack frames)
  | .error fault later, wider =>
    if fault.isOverflow then later.output.toList <+: (endState wider).output.toList
    else wider = .error fault (later.widened stack frames)

/-- An action that does the same with more room, until it exceeds a limit. -/
structure Widens (stack frames : Nat) (x : Exec α) : Prop where
  blind : Blind x
  outgrown : ∀ m, Outgrown stack frames (x m) (x (m.widened stack frames))

section Rules

variable {x : Exec α} {f : α → Exec β}

/-- An action only adds to what has been printed. -/
theorem Blind.prints (h : Blind x) (m : Machine) :
    m.output.toList <+: (endState (x m)).output.toList := by
  have same := h m.flush m.output
  rw [Machine.flush_preceded] at same
  rw [same]
  cases x m.flush <;> simp [preceding, endState, Machine.preceded]

/-- A limit may be exceeded, since whatever is done with more room only adds to the output. -/
theorem Blind.overflow (h : Blind x) {fault : Fault} (exceeded : fault.isOverflow = true)
    (failed : x m = .error fault m) :
    Outgrown stack frames (x m) (x (m.widened stack frames)) := by
  rw [failed, Outgrown, if_pos exceeded]
  exact h.prints (m.widened stack frames)

theorem Widens.bind (first : Widens stack frames x)
    (onward : ∀ value, Widens stack frames (f value)) : Widens stack frames (x >>= f) where
  blind := first.blind.bind fun value => (onward value).blind
  outgrown := by
    intro m
    have outgrown := first.outgrown m
    cases outcome : x m with
    | ok value later =>
        rw [outcome] at outgrown
        rw [bind_of_ok outcome, bind_of_ok outgrown]
        exact (onward value).outgrown later
    | error fault later =>
        rw [outcome, Outgrown] at outgrown
        rw [bind_of_error outcome, Outgrown]
        by_cases exceeded : fault.isOverflow = true
        · rw [if_pos exceeded] at outgrown ⊢
          -- with more room the second part is still to come, and it can only add to the output
          cases wider : x (m.widened stack frames) with
          | ok value after =>
              rw [wider] at outgrown
              rw [bind_of_ok wider]
              exact outgrown.trans ((onward value).blind.prints after)
          | error fault after =>
              rw [wider] at outgrown
              rw [bind_of_error wider]
              exact outgrown
        · rw [if_neg exceeded] at outgrown ⊢
          exact bind_of_error outgrown

theorem Widens.pure (value : α) : Widens stack frames (Pure.pure value : Exec α) where
  blind := Blind.pure value
  outgrown _ := rfl

theorem Widens.throw (fault : Fault) : Widens stack frames (throw fault : Exec α) where
  blind := Blind.throw fault
  outgrown m := by
    by_cases exceeded : fault.isOverflow = true
    · exact (Blind.throw fault).overflow exceeded rfl
    · rw [throw_eq, throw_eq, Outgrown, if_neg exceeded]

/-- What an action looks at is the same with more room. -/
theorem Widens.get {f : Machine → Exec β} (same : ∀ m front, f (m.preceded front) = f m)
    (same' : ∀ m stackLimit frameLimit, f { m with stackLimit, frameLimit } = f m)
    (onward : ∀ m, Widens stack frames (f m)) : Widens stack frames (get >>= f) where
  blind := Blind.get same fun m => (onward m).blind
  outgrown m := by
    have unseen : f (m.widened stack frames) = f m := same' m _ _
    rw [bind_get, bind_get, unseen]
    exact (onward m).outgrown m

theorem Widens.modify {change : Machine → Machine} (blind : Blind (modify change : Exec Unit))
    (same : ∀ m, change (m.widened stack frames) = (change m).widened stack frames) :
    Widens stack frames (modify change : Exec Unit) where
  blind := blind
  outgrown m := congrArg (EStateM.Result.ok ()) (same m)

end Rules

section Instructions

theorem push_widens (value : Value) : Widens stack frames (push value) where
  blind := push_blind value
  outgrown m := by
    by_cases full : m.stackLimit ≤ m.stack.size
    · have refused : push value m = .error .stackOverflow m := by
        simp only [push, bind_get, full, if_true, bind_throw]
      exact (push_blind value).overflow rfl refused
    · have room : ¬ m.stackLimit + stack ≤ m.stack.size := by omega
      simp only [push, bind_get, Machine.widened, full, room, if_false, modify_eq]
      rfl

theorem pop_widens : Widens stack frames pop where
  blind := pop_blind
  outgrown m := by
    simp only [pop, bind_get, Machine.widened]
    cases m.stack.back? with
    | none => rfl
    | some value => rfl

theorem popMany_widens (count : Nat) : Widens stack frames (popMany count) := by
  induction count with
  | zero => exact Widens.pure []
  | succ count ih =>
      apply Widens.bind pop_widens
      intro first
      exact Widens.bind ih fun rest => Widens.pure (first :: rest)

theorem pushMany_widens (values : List Value) : Widens stack frames (pushMany values) := by
  induction values with
  | nil => exact Widens.pure ()
  | cons first rest ih => exact Widens.bind (push_widens first) fun _ => ih

theorem enter_widens (count : Nat) (back first : Int) :
    Widens stack frames (enter count back first) := by
  apply Widens.bind (popMany_widens count)
  intro arguments
  apply Widens.bind (push_widens _)
  intro _
  apply Widens.bind (Widens.modify (Blind.modify fun _ _ => rfl) fun _ => rfl)
  intro _
  apply Widens.bind (pushMany_widens _)
  intro _
  exact Widens.modify (Blind.modify fun _ _ => rfl) fun _ => rfl

/-- The frames are counted before anything is done: a call that exceeds their limit has changed
nothing yet. -/
theorem call_widens (name : String) (count : Nat) :
    Widens stack frames (perform (.invoke name count)) where
  blind := call_blind name count
  outgrown m := by
    cases found : m.globals.find? name with
    | none =>
        rw [perform_invoke_missing found,
          perform_invoke_missing (m := m.widened stack frames) found]
        rfl
    | some value =>
        by_cases callable : value.kind = .function
        · obtain ⟨function, rfl⟩ : ∃ function, value = .function function := by
            cases value <;> first | exact ⟨_, rfl⟩ | cases callable
          by_cases right : (count : Int) = function.arity
          · by_cases full : m.frameLimit ≤ m.frames.size
            · exact (call_blind name count).overflow rfl (perform_invoke_frames found right full)
            · have room : (m.widened stack frames).frames.size <
                  (m.widened stack frames).frameLimit :=
                Nat.lt_add_right frames (Nat.not_le.mp full)
              rw [perform_invoke found right (Nat.not_le.mp full),
                perform_invoke (m := m.widened stack frames) found right room]
              exact (enter_widens _ _ _).outgrown m
          · rw [perform_invoke_arity found right,
              perform_invoke_arity (m := m.widened stack frames) found right]
            rfl
        · rw [perform_invoke_other found callable,
            perform_invoke_other (m := m.widened stack frames) found callable]
          rfl

/-- Every instruction does the same with more room, until it exceeds a limit. -/
theorem inherited_widens : Inherited fun x => Widens stack frames x where
  pure := Widens.pure
  throw := Widens.throw
  bind := Widens.bind
  get := Widens.get
  push := push_widens
  pop := pop_widens
  jumpBy distance := Widens.modify (inherited_blind.jumpBy distance) fun _ => rfl
  jumpTo target := Widens.modify (inherited_blind.jumpTo target) fun _ => rfl
  define name value := Widens.modify (inherited_blind.define name value) fun _ => rfl
  record line := Widens.modify (inherited_blind.record line) fun _ => rfl
  store place value := Widens.modify (inherited_blind.store place value) fun _ => rfl
  call := call_widens
  leave frame := Widens.modify (inherited_blind.leave frame) fun _ => rfl
  exit := Widens.modify inherited_blind.exit fun _ => rfl

end Instructions

end Exec

namespace Machine

variable {m later last : Machine} {stack frames count : Nat} {seen states : List Machine}
  {ending : RunEnd} {fault : Fault}

/-- What the instruction at hand does with more room. -/
theorem execute_outgrown (m : Machine) (stack frames : Nat) (byte : UInt8) :
    Exec.Outgrown stack frames (Exec.execute byte { m with offset := m.ip })
      (Exec.execute byte { m.widened stack frames with offset := m.ip }) :=
  (Exec.inherited_widens.execute byte).outgrown { m with offset := m.ip }

/-- A step that exceeds no limit is the same with more room. -/
theorem step_widened (stack frames : Nat)
    (within : ∀ fault, m.step.2 = .error fault → fault.isOverflow = false) :
    (m.widened stack frames).step = (m.step.1.widened stack frames, m.step.2) := by
  apply Steps.eq
  have steps := m.steps
  generalize m.step = result at steps within
  cases steps with
  | halted halted => exact .halted halted
  | ended running here => exact .ended running here
  | @done byte later running here outcome =>
      have outgrown := execute_outgrown m stack frames byte
      rw [outcome] at outgrown
      exact .done running here outgrown
  | @failed byte fault later running here outcome =>
      have outgrown := execute_outgrown m stack frames byte
      rw [outcome, Exec.Outgrown, within fault rfl] at outgrown
      exact .failed (m := m.widened stack frames) running here outgrown

/-- A step only adds to what has been printed. -/
theorem output_step (m : Machine) : m.output.toList <+: m.step.1.output.toList := by
  have steps := m.steps
  generalize m.step = result at steps
  cases steps with
  | halted | ended => exact List.prefix_rfl
  | @done byte later _ _ outcome =>
      have prints := (Exec.inherited_blind.execute byte).prints { m with offset := m.ip }
      rwa [outcome] at prints
  | @failed byte fault later _ _ outcome =>
      have prints := (Exec.inherited_blind.execute byte).prints { m with offset := m.ip }
      rwa [outcome] at prints

/-- A step that exceeds a limit has printed nothing that it does not print with more room. -/
theorem output_step_widened (stack frames : Nat) (failed : m.step = (later, .error fault))
    (exceeded : fault.isOverflow = true) :
    later.output.toList <+: (m.widened stack frames).step.1.output.toList := by
  have steps := m.steps
  rw [failed] at steps
  cases steps with
  | @failed byte _ later running here outcome =>
      have outgrown := execute_outgrown m stack frames byte
      rw [outcome, Exec.Outgrown, if_pos exceeded] at outgrown
      cases wider : Exec.execute byte { m.widened stack frames with offset := m.ip } with
      | ok value after =>
          rw [wider] at outgrown
          rw [Steps.eq (.done (m := m.widened stack frames) running here wider)]
          exact outgrown
      | error fault after =>
          rw [wider] at outgrown
          rw [Steps.eq (.failed (m := m.widened stack frames) running here wider)]
          exact outgrown

section Walks

/-- A counted run with another form of each state. -/
def along (form : Machine → Machine) : Machine × List Machine × RunEnd →
    Machine × List Machine × RunEnd
  | (last, states, ending) => (form last, states.map form, ending)

theorem walkFrom_of_error (failed : m.step = (later, .error fault)) :
    m.walkFrom seen (count + 1) = (later, seen, .failed fault) := by
  rw [walkFrom, failed]

theorem walkFrom_of_halt (halts : m.step = (later, .ok false)) :
    m.walkFrom seen (count + 1) = (later, later :: seen, .halted) := by
  rw [walkFrom, halts]

theorem walkFrom_of_ok (goesOn : m.step = (later, .ok true)) :
    m.walkFrom seen (count + 1) = later.walkFrom (later :: seen) count := by
  rw [walkFrom, goesOn]

/-- A run that exceeds no limit is the same with more room, state by state. -/
theorem walkFrom_widened (within : (m.walkFrom seen count).2.2.isOverflow = false) :
    (m.widened stack frames).walkFrom (seen.map fun m => m.widened stack frames) count =
      along (fun m => m.widened stack frames) (m.walkFrom seen count) := by
  induction count generalizing m seen with
  | zero => rfl
  | succ count ih =>
      have same : (∀ fault, m.step.2 = .error fault → fault.isOverflow = false) →
          (m.widened stack frames).step = (m.step.1.widened stack frames, m.step.2) :=
        step_widened stack frames
      rcases stepped : m.step with ⟨later, fault | _ | _⟩ <;> rw [stepped] at same
      · rw [walkFrom_of_error stepped] at within ⊢
        rw [walkFrom_of_error (same fun other failed => Except.error.inj failed ▸ within)]
        rfl
      · rw [walkFrom_of_halt stepped, walkFrom_of_halt (same nofun)]
        rfl
      · rw [walkFrom_of_ok stepped] at within ⊢
        rw [walkFrom_of_ok (same nofun)]
        exact ih within

/-- A run only adds to what has been printed. -/
theorem output_walkFrom (m : Machine) (seen : List Machine) (count : Nat) :
    m.output.toList <+: (m.walkFrom seen count).1.output.toList := by
  induction count generalizing m seen with
  | zero => exact List.prefix_rfl
  | succ count ih =>
      have prints := m.output_step
      rcases stepped : m.step with ⟨later, fault | _ | _⟩ <;> rw [stepped] at prints
      · rw [walkFrom_of_error stepped]
        exact prints
      · rw [walkFrom_of_halt stepped]
        exact prints
      · rw [walkFrom_of_ok stepped]
        exact prints.trans (ih later _)

/-- A run prints at least what its first step prints. -/
theorem output_walkFrom_succ (m : Machine) (seen : List Machine) (count : Nat) :
    m.step.1.output.toList <+: (m.walkFrom seen (count + 1)).1.output.toList := by
  rcases stepped : m.step with ⟨later, fault | _ | _⟩
  · simp only [walkFrom_of_error stepped, List.prefix_rfl]
  · simp only [walkFrom_of_halt stepped, List.prefix_rfl]
  · rw [walkFrom_of_ok stepped]
    exact later.output_walkFrom _ _

/-- A run that exceeds a limit has printed nothing that it does not print with more room. -/
theorem output_walkFrom_widened (exceeded : (m.walkFrom seen count).2.2.isOverflow = true)
    (seen' : List Machine) (more : Nat) :
    (m.walkFrom seen count).1.output.toList <+:
      ((m.widened stack frames).walkFrom seen' (count + more)).1.output.toList := by
  induction count generalizing m seen seen' with
  | zero => cases exceeded
  | succ count ih =>
      rw [Nat.add_right_comm]
      rcases stepped : m.step with ⟨later, fault | _ | _⟩
      · rw [walkFrom_of_error stepped] at exceeded ⊢
        exact (output_step_widened stack frames stepped exceeded).trans
          (output_walkFrom_succ _ seen' _)
      · rw [walkFrom_of_halt stepped] at exceeded
        cases exceeded
      · have same := step_widened (m := m) stack frames (by simp [stepped])
        rw [stepped] at same
        rw [walkFrom_of_ok stepped] at exceeded ⊢
        rw [walkFrom_of_ok same]
        exact ih exceeded _

/-- A run that has come to its end stays there. -/
theorem walkFrom_of_ended (ended : (m.walkFrom seen count).2.2 ≠ .counted) (more : Nat) :
    m.walkFrom seen (count + more) = m.walkFrom seen count := by
  induction count generalizing m seen with
  | zero => exact absurd rfl ended
  | succ count ih =>
      rw [Nat.add_right_comm]
      rcases stepped : m.step with ⟨later, fault | _ | _⟩
      · rw [walkFrom_of_error stepped, walkFrom_of_error stepped]
      · rw [walkFrom_of_halt stepped, walkFrom_of_halt stepped]
      · rw [walkFrom_of_ok stepped] at ended
        rw [walkFrom_of_ok stepped, walkFrom_of_ok stepped]
        exact ih ended

end Walks

/-- A state apart from the limits. -/
def unlimited (m : Machine) : Machine := m.limited 0 0

/-- The run of a machine goes on for as long as the run of another one, through the same states, and
only a limit can make it go on for longer. -/
structure Outlasts (wide tight : Machine) : Prop where
  /-- As long as no limit is exceeded, both are in the same state after each step, and both halt or
  fail at the same step, in the same way. -/
  same : ∀ count, (tight.walk count).2.2.isOverflow = false →
    along unlimited (wide.walk count) = along unlimited (tight.walk count)
  /-- Where the one comes to an end of another kind, the other one does not go on either. -/
  ended : ∀ count, (tight.walk count).2.2.isOverflow = false → (tight.walk count).2.2 ≠ .counted →
    ∀ more, along unlimited (wide.walk (count + more)) = along unlimited (tight.walk count)
  /-- Where the one exceeds a limit, the other one has printed all that the one has printed. -/
  printed : ∀ count, (tight.walk count).2.2.isOverflow = true →
    ∀ more, (tight.walk count).1.output.toList <+: (wide.walk (count + more)).1.output.toList

theorem walk_widened (stack frames : Nat) (within : (m.walk count).2.2.isOverflow = false) :
    (m.widened stack frames).walk count =
      along (fun m => m.widened stack frames) (m.walk count) := by
  have same := @walkFrom_widened m stack frames count [] within
  rw [List.map_nil] at same
  rw [walk, walk, same]
  simp [along]

theorem walk_of_ended (ended : (m.walk count).2.2 ≠ .counted) (more : Nat) :
    m.walk (count + more) = m.walk count := by
  rw [walk, walk, walkFrom_of_ended ended more]

/-- More room makes no other difference than that a run may go on for longer. -/
theorem outlasts_widened (m : Machine) (stack frames : Nat) :
    (m.widened stack frames).Outlasts m := by
  have same (count : Nat) (within : (m.walk count).2.2.isOverflow = false) :
      along unlimited ((m.widened stack frames).walk count) =
        along unlimited (m.walk count) := by
    rw [walk_widened stack frames within]
    simp [along, unlimited, limited, widened]
  constructor
  case same => exact same
  case ended =>
    intro count within ended more
    have stays : ((m.widened stack frames).walk count).2.2 ≠ .counted := by
      rw [walk_widened stack frames within]
      exact ended
    rw [walk_of_ended stays more, same count within]
  case printed =>
    intro count exceeded more
    exact output_walkFrom_widened exceeded [] more

/-- Limits only cut runs short: whatever the chunk and the machine are that it is loaded into, a run
under wider limits outlasts the run under tighter ones. Any numbers may be given as limits; a
negative one leaves no room, as zero does. -/
theorem load_outlasts (m : Machine) (chunk : Chunk) {stack frames stack' frames' : Int}
    (stackWider : stack ≤ stack') (framesWider : frames ≤ frames') :
    ((m.load chunk).limited stack'.toNat frames'.toNat).Outlasts
      ((m.load chunk).limited stack.toNat frames.toNat) := by
  have room : (m.load chunk).limited stack'.toNat frames'.toNat =
      ((m.load chunk).limited stack.toNat frames.toNat).widened
        (stack'.toNat - stack.toNat) (frames'.toNat - frames.toNat) := by
    simp only [limited, widened, Nat.add_sub_cancel' (Int.toNat_le_toNat stackWider),
      Nat.add_sub_cancel' (Int.toNat_le_toNat framesWider)]
  rw [room]
  exact outlasts_widened _ _ _

/-- Code that prints a value, and prints another one from a stack of two. -/
def printsTwice : Chunk := { Chunk.empty 4 with code := ⟨#[14, 1, 14, 15, 1]⟩ }

/-- With room for one value, it comes to print only the first one. -/
theorem load_outlasts_printsTwice :
    (1 : Int) ≤ 2 ∧ (-3 : Int) ≤ 0 ∧
      ((((Machine.new 0 0).load printsTwice).limited 1 0).walk 9).2.2 = .failed .stackOverflow ∧
      ((((Machine.new 0 0).load printsTwice).limited 2 0).walk 9).2.2 = .halted ∧
      (((Machine.new 0 0).load printsTwice).limited (2 : Int).toNat (0 : Int).toNat).Outlasts
        (((Machine.new 0 0).load printsTwice).limited (1 : Int).toNat (-3 : Int).toNat) :=
  ⟨by decide, by decide, by decide +kernel, by decide +kernel,
    load_outlasts (Machine.new 0 0) printsTwice (by decide) (by decide)⟩

end Machine

end StackScript
