/-
# What instructions keep

Whatever bytes are run, the stack and the frames keep to the limits of the machine, and a frame
starts above a return address. No instruction changes what belongs to the run as a whole: the
chunk, the code, the limits, and the offset at which the instruction began. All of this holds in
the middle of an instruction as well, so that a fault finds it intact.
-/

import StackScript.Proofs.Machine.Instructions

namespace StackScript

namespace Machine

/-- The stack and the frames keep to the limits. A frame has its return address below it, which
needs a place on the stack. -/
structure Bounded (m : Machine) : Prop where
  stack : m.stack.size ≤ m.stackLimit
  frames : m.frames.size ≤ m.frameLimit
  starts : ∀ frame ∈ m.frames, 1 ≤ frame ∧ frame ≤ m.stackLimit

/-- A state that an instruction can come to which was begun in the state `start`, with room for
some more frames. -/
structure During (start : Machine) (room : Nat) (m : Machine) : Prop extends Bounded m where
  room : m.frames.size + room ≤ m.frameLimit
  chunk : m.chunk = start.chunk
  code : m.code = start.code
  offset : m.offset = start.offset
  stackLimit : m.stackLimit = start.stackLimit
  frameLimit : m.frameLimit = start.frameLimit

theorem Bounded.during {m : Machine} (h : m.Bounded) : During m 0 m :=
  ⟨h, h.frames, rfl, rfl, rfl, rfl, rfl⟩

end Machine

open Machine (During)

namespace Exec

/-- The state at the end of an action, or where it failed. -/
def Ends {α : Type} (always post : Machine → Prop) : EStateM.Result Fault Machine α → Prop
  | .ok _ later => post later
  | .error _ later => always later

@[simp] theorem ends_ok {α : Type} {always post : Machine → Prop} {value : α} {later : Machine} :
    Ends always post (.ok value later) ↔ post later := Iff.rfl

@[simp] theorem ends_error {α : Type} {always post : Machine → Prop} {fault : Fault}
    {later : Machine} : Ends always post (.error fault later : EStateM.Result Fault Machine α) ↔
      always later := Iff.rfl

/-- An action that is begun in a state with `pre` ends in one with `post`. A fault leaves a state
with `always` behind. -/
def Leads {α : Type} (always pre : Machine → Prop) (x : Exec α) (post : Machine → Prop) : Prop :=
  ∀ m, pre m → Ends always post (x m)

/-- An action keeps a property, also where it fails. -/
abbrev Keeps {α : Type} (always : Machine → Prop) (x : Exec α) : Prop :=
  Leads always always x always

section Rules

variable {α β : Type} {always pre mid post : Machine → Prop} {x : Exec α} {f : α → Exec β}

theorem Leads.bind (first : Leads always pre x mid)
    (onward : ∀ value, Leads always mid (f value) post) : Leads always pre (x >>= f) post := by
  intro m h
  have middle := first m h
  cases outcome : x m with
  | ok value later =>
      rw [outcome] at middle
      rw [bind_of_ok outcome]
      exact onward value later middle
  | error fault later =>
      rw [outcome] at middle
      rw [bind_of_error outcome]
      exact middle

theorem Leads.mono {always' : Machine → Prop} (h : Leads always pre x post)
    (failed : ∀ m, always m → always' m) : Leads always' pre x post := by
  intro m start
  have ends := h m start
  cases outcome : x m with
  | ok value later =>
      rw [outcome] at ends
      exact ends
  | error fault later =>
      rw [outcome] at ends
      exact failed later ends

theorem Keeps.bind (first : Keeps always x) (onward : ∀ value, Keeps always (f value)) :
    Keeps always (x >>= f) := Leads.bind first onward

theorem Keeps.pure (value : α) : Keeps always (Pure.pure value : Exec α) := fun _ h => h

theorem Keeps.throw (fault : Fault) : Keeps always (throw fault : Exec α) := fun _ h => h

theorem Keeps.modify {change : Machine → Machine} (h : ∀ m, always m → always (change m)) :
    Keeps always (modify change) := h

end Rules

section Stack

variable {start : Machine} {room : Nat}

theorem push_keeps (value : Value) : Keeps (During start room) (push value) := by
  intro m h
  by_cases full : m.stackLimit ≤ m.stack.size
  · simpa [push, full] using h
  · have within : m.stack.size + 1 ≤ m.stackLimit := by omega
    simp only [push, bind_get, full, if_false, modify_eq]
    exact { h with stack := by simpa using within }

theorem pop_keeps : Keeps (During start room) pop := by
  intro m h
  simp only [pop, bind_get]
  cases m.stack.back? with
  | none => exact h
  | some value =>
      have smaller : m.stack.pop.size ≤ m.stackLimit := by
        have := h.stack
        rw [Array.size_pop]
        omega
      exact { h with stack := smaller }

theorem popMany_keeps (count : Nat) : Keeps (During start room) (popMany count) := by
  induction count with
  | zero => exact Keeps.pure []
  | succ count ih =>
      apply Keeps.bind pop_keeps
      intro first
      exact Keeps.bind ih fun rest => Keeps.pure (first :: rest)

theorem pushMany_keeps (values : List Value) : Keeps (During start room) (pushMany values) := by
  induction values with
  | nil => exact Keeps.pure ()
  | cons first rest ih => exact Keeps.bind (push_keeps first) fun _ => ih

end Stack

section Instructions

variable {start : Machine}

/-- The frame of a call starts just above the return address, which has been put on the stack
before. -/
theorem frame_leads (back : Int) (onward : Unit → Exec Unit)
    (h : ∀ value, Keeps (During start 0) (onward value)) :
    Leads (During start 0) (During start 1) (push (.pointer back) >>= fun _ =>
      modify (fun machine => { machine with frames := machine.frames.push machine.stack.size }) >>=
        onward) (During start 0) := by
  intro m entering
  by_cases full : m.stackLimit ≤ m.stack.size
  · rw [bind_of_error (by simp only [push, bind_get, full, if_true, bind_throw] :
      push (.pointer back) m = .error .stackOverflow m)]
    exact { entering with room := entering.frames }
  · have pushed : push (.pointer back) m =
        .ok () { m with stack := m.stack.push (.pointer back) } := by
      simp only [push, bind_get, full, if_false, modify_eq]
    rw [bind_of_ok pushed, bind_modify]
    apply h ()
    have within : m.stack.size + 1 ≤ m.stackLimit := by omega
    have room := entering.room
    constructor
    · constructor
      · simpa using within
      · simpa using room
      · intro frame mem
        rcases Array.mem_push.mp mem with old | rfl
        · exact entering.starts frame old
        · simpa using within
    · simpa using room
    · exact entering.chunk
    · exact entering.code
    · exact entering.offset
    · exact entering.stackLimit
    · exact entering.frameLimit

theorem enter_leads (count : Nat) (back first : Int) :
    Leads (During start 0) (During start 1) (enter count back first) (During start 0) := by
  apply Leads.bind ((popMany_keeps count).mono fun m h => { h with room := h.frames })
  intro arguments
  apply frame_leads back
  intro _
  apply Keeps.bind (pushMany_keeps _)
  exact fun _ => Keeps.modify fun _ h => { h with }

theorem call_keeps (name : String) (count : Nat) :
    Keeps (During start 0) (perform (.invoke name count)) := by
  intro m h
  cases found : m.globals.find? name with
  | none =>
      rw [perform_invoke_missing found]
      exact h
  | some value =>
      by_cases callable : value.kind = .function
      · obtain ⟨function, rfl⟩ : ∃ function, value = .function function := by
          cases value <;> first | exact ⟨_, rfl⟩ | cases callable
        by_cases right : (count : Int) = function.arity
        · by_cases full : m.frameLimit ≤ m.frames.size
          · rw [perform_invoke_frames found right full]
            exact h
          · rw [perform_invoke found right (Nat.not_le.mp full)]
            exact enter_leads _ _ _ m { h with room := Nat.not_le.mp full }
        · rw [perform_invoke_arity found right]
          exact h
      · rw [perform_invoke_other found callable]
        exact h

/-- A return takes the frame away before it looks for the return address. -/
theorem leave_keeps (frame : Nat) : Keeps (During start 0) (modify fun machine =>
    { machine with frames := machine.frames.pop, stack := machine.stack.extract 0 frame }) := by
  apply Keeps.modify
  intro m h
  have stack : (m.stack.extract 0 frame).size ≤ m.stackLimit := by
    have := h.stack
    rw [Array.size_extract]
    omega
  have frames : m.frames.pop.size ≤ m.frameLimit := by
    have := h.frames
    rw [Array.size_pop]
    omega
  have starts : ∀ frame ∈ m.frames.pop, 1 ≤ frame ∧ frame ≤ m.stackLimit := by
    intro other mem
    apply h.starts other
    rw [← Array.mem_toList_iff, Array.toList_pop] at mem
    exact Array.mem_toList_iff.mp (List.dropLast_subset _ mem)
  exact { h with stack, frames, starts, room := frames }

/-- Every instruction keeps to the limits, whether or not it succeeds. -/
theorem inherited_keeps (start : Machine) : Inherited fun x => Keeps (During start 0) x where
  pure := Keeps.pure
  throw := Keeps.throw
  bind := Keeps.bind
  get _ _ onward := fun m h => onward m m h
  push := push_keeps
  pop := pop_keeps
  jumpBy distance := Keeps.modify fun _ h => { h with }
  jumpTo target := Keeps.modify fun _ h => { h with }
  define name value := Keeps.modify fun _ h => { h with }
  record line := Keeps.modify fun _ h => { h with }
  store place value := Keeps.modify fun _ h => { h with stack := by simpa using h.stack }
  call := call_keeps
  leave := leave_keeps
  exit := Keeps.modify fun _ h => { h with }

end Instructions

end Exec

namespace Machine

variable {m : Machine}

theorem bounded_new (stackLimit frameLimit : Nat) : (new stackLimit frameLimit).Bounded :=
  ⟨Nat.zero_le _, Nat.zero_le _, nofun⟩

theorem Bounded.load (h : m.Bounded) (chunk : Chunk) : (m.load chunk).Bounded := { h with }

/-- What a step does: nothing where the machine is halted, an end where the code ends, and one
instruction elsewhere. -/
inductive Steps (m : Machine) : Machine × Except Fault Bool → Prop
  | halted : m.halted = true → Steps m (m, .ok false)
  | ended : m.halted = false → m.current? = none → Steps m ({ m with halted := true }, .ok false)
  | done {byte : UInt8} {later : Machine} : m.halted = false → m.current? = some byte →
      Exec.execute byte { m with offset := m.ip } = .ok () later → Steps m (later, .ok !later.halted)
  | failed {byte : UInt8} {fault : Fault} {later : Machine} : m.halted = false →
      m.current? = some byte → Exec.execute byte { m with offset := m.ip } = .error fault later →
        Steps m ({ later with halted := true }, .error fault)

theorem steps (m : Machine) : m.Steps m.step := by
  rw [step]
  by_cases halted : m.halted = true
  · rw [if_pos halted]
    exact .halted halted
  · have running : m.halted = false := by simpa using halted
    rw [if_neg halted]
    cases here : m.current? with
    | none => exact .ended running here
    | some byte =>
        dsimp only
        cases outcome : Exec.execute byte { m with offset := m.ip } with
        | ok value later => exact .done running here outcome
        | error fault later => exact .failed running here outcome

/-- What a step does is what `step` computes. -/
theorem Steps.eq {result : Machine × Except Fault Bool} (h : m.Steps result) :
    m.step = result := by
  rw [step]
  cases h with
  | halted halted => rw [if_pos halted]
  | ended running here => rw [if_neg (by simp [running]), here]
  | done running here outcome =>
      rw [if_neg (by simp [running]), here]
      simp only [outcome]
  | failed running here outcome =>
      rw [if_neg (by simp [running]), here]
      simp only [outcome]

/-- A step leaves a state of an instruction behind, which began where the instruction pointer was
if there was one. -/
theorem Bounded.during_step (h : m.Bounded) {result : Machine × Except Fault Bool}
    (steps : m.Steps result) : ∃ offset, During { m with offset := offset } 0 result.1 ∧
      (m.halted = false → m.current?.isSome → offset = m.ip) := by
  have started : During { m with offset := m.ip } 0 { m with offset := m.ip } :=
    { h.during with offset := rfl }
  cases steps with
  | halted halted => exact ⟨m.offset, h.during, by simp [halted]⟩
  | ended _ here => exact ⟨m.offset, { h.during with }, by simp [here]⟩
  | @done byte later _ _ outcome =>
      have ends := (Exec.inherited_keeps _).execute byte _ started
      rw [outcome] at ends
      exact ⟨m.ip, ends, fun _ _ => rfl⟩
  | @failed byte fault later _ _ outcome =>
      have ends := (Exec.inherited_keeps _).execute byte _ started
      rw [outcome, Exec.ends_error] at ends
      exact ⟨m.ip, { ends with }, fun _ _ => rfl⟩

theorem Bounded.step (h : m.Bounded) : m.step.1.Bounded := by
  obtain ⟨offset, during, -⟩ := h.during_step m.steps
  exact during.toBounded

end Machine

end StackScript
