/-
# Leftovers of earlier runs

A machine keeps its stack and its frames when another chunk is loaded. A program never looks at
them. Any instruction does the same above leftovers as it does above nothing, unless it finds fault
with the code itself: then it might have found what it missed among the leftovers. No program
comes to such a fault. It may be given global variables of any kind but functions, which would
lead into the midst of its code.
-/

import StackScript.Proofs.Machine.Safety

namespace StackScript

namespace Machine

/-- The machine with leftovers below its stack and its frames, and with so much more room. -/
def above (stack : Array Value) (frames : Array Nat) (m : Machine) : Machine :=
  { m with
    stackLimit := stack.size + m.stackLimit
    frameLimit := frames.size + m.frameLimit
    stack := stack ++ m.stack
    frames := frames ++ m.frames.map (stack.size + ·) }

end Machine

open Machine (above)

namespace Exec

variable {stack : Array Value} {frames : Array Nat} {m : Machine} {α β : Type}

/-- The second outcome is the first one above leftovers, but for a fault of the code. -/
def Lifted (stack : Array Value) (frames : Array Nat) :
    EStateM.Result Fault Machine α → EStateM.Result Fault Machine α → Prop
  | .ok value later, upper => upper = .ok value (later.above stack frames)
  | .error fault later, upper =>
    fault.isMalformed ∨ upper = .error fault (later.above stack frames)

/-- An action does the same above leftovers. -/
def Floats (stack : Array Value) (frames : Array Nat) (x : Exec α) : Prop :=
  ∀ m, Lifted stack frames (x m) (x (m.above stack frames))

section Rules

variable {x y : Exec α} {f g : α → Exec β}

theorem Lifted.bind (first : Lifted stack frames (x m) (y (m.above stack frames)))
    (onward : ∀ value later, x m = .ok value later →
      Lifted stack frames (f value later) (g value (later.above stack frames))) :
    Lifted stack frames ((x >>= f) m) ((y >>= g) (m.above stack frames)) := by
  cases outcome : x m with
  | ok value later =>
      rw [outcome] at first
      rw [bind_of_ok outcome, bind_of_ok first]
      exact onward value later outcome
  | error fault later =>
      rw [outcome] at first
      rw [bind_of_error outcome]
      rcases first with malformed | same
      · exact .inl malformed
      · exact .inr (bind_of_error same)

theorem Floats.bind (first : Floats stack frames x)
    (onward : ∀ value, Floats stack frames (f value)) : Floats stack frames (x >>= f) :=
  fun m => (first m).bind fun value later _ => onward value later

theorem Floats.pure (value : α) : Floats stack frames (Pure.pure value : Exec α) := fun _ => rfl

theorem Floats.throw (fault : Fault) : Floats stack frames (throw fault : Exec α) :=
  fun _ => .inr rfl

/-- What an action looks at is the same above leftovers. -/
theorem Floats.get {f : Machine → Exec β} (same : ∀ m, f (m.above stack frames) = f m)
    (onward : ∀ m, Floats stack frames (f m)) : Floats stack frames (get >>= f) := by
  intro m
  rw [bind_get, bind_get, same]
  exact onward m m

theorem Floats.modify {change : Machine → Machine}
    (same : ∀ m, change (m.above stack frames) = (change m).above stack frames) :
    Floats stack frames (modify change : Exec Unit) :=
  fun m => congrArg (EStateM.Result.ok ()) (same m)

end Rules

section Stack

theorem push_floats (value : Value) : Floats stack frames (push value) := by
  apply Floats.get
  · intro m
    simp [above]
  · intro m
    split
    · exact Floats.bind (Floats.throw _) fun _ => Floats.modify fun _ => by simp [above]
    · exact Floats.modify fun _ => by simp [above]

/-- Without leftovers there would be nothing to take from an empty stack. -/
theorem pop_floats : Floats stack frames pop := by
  intro m
  cases found : m.stack.back? with
  | none =>
      simp only [pop, bind_get, found]
      exact .inl rfl
  | some value =>
      have nonempty : m.stack ≠ #[] := by
        rintro empty
        simp [empty] at found
      simp only [pop, bind_get, above, Array.back?_append, found]
      simp [Lifted, above, nonempty]

theorem popMany_floats (count : Nat) : Floats stack frames (popMany count) := by
  induction count with
  | zero => exact Floats.pure []
  | succ count ih =>
      apply Floats.bind pop_floats
      intro first
      exact Floats.bind ih fun rest => Floats.pure (first :: rest)

theorem pushMany_floats (values : List Value) : Floats stack frames (pushMany values) := by
  induction values with
  | nil => exact Floats.pure ()
  | cons first rest ih => exact Floats.bind (push_floats first) fun _ => ih

end Stack

section Instructions

/-- Slots count from the frame, which lies above the leftovers with the values that it is for. -/
theorem Floats.slot {slot : Nat} {f : Nat → Exec β}
    (onward : ∀ place m, Lifted stack frames (f place m) (f (stack.size + place)
      (m.above stack frames))) : Floats stack frames (position slot >>= f) := by
  intro m
  cases found : m.frames.back? with
  | none =>
      have missing : position slot m = .error (.invalidSlot slot) m := by
        simp only [position, bind_get, found, throw_eq]
      rw [bind_of_error missing]
      exact .inl rfl
  | some frame =>
      have lifted : (m.above stack frames).frames.back? = some (stack.size + frame) := by
        simp [above, found]
      by_cases within : frame + slot < m.stack.size
      · have here : position slot m = .ok (frame + slot) m := by
          simp only [position, bind_get, found, within, if_true, pure_eq]
        have there : position slot (m.above stack frames) =
            .ok (stack.size + (frame + slot)) (m.above stack frames) := by
          have within' : stack.size + (frame + slot) < (m.above stack frames).stack.size := by
            simpa [above] using within
          simp only [position, bind_get, lifted, Nat.add_assoc, within', if_true, pure_eq]
        rw [bind_of_ok here, bind_of_ok there]
        exact onward (frame + slot) m
      · have missing : position slot m = .error (.invalidSlot slot) m := by
          simp only [position, bind_get, found, within, if_false, throw_eq]
        rw [bind_of_error missing]
        exact .inl rfl

theorem jumpBy_floats (distance : Int) : Floats stack frames (jumpBy distance) :=
  Floats.modify fun _ => rfl

theorem define_floats (name : String) (value : Value) : Floats stack frames (define name value) :=
  Floats.modify fun _ => rfl

theorem readByte_floats : Floats stack frames readByte := by
  apply Floats.bind (jumpBy_floats 1)
  intro _
  apply Floats.get fun _ => rfl
  intro m
  by_cases negative : m.ip < 0
  · rw [if_pos negative]
    apply Floats.bind (Floats.throw _)
    intro _
    split
    · exact Floats.throw _
    · exact Floats.pure _
  · rw [if_neg negative]
    split
    · exact Floats.throw _
    · exact Floats.pure _

theorem readDistance_floats : Floats stack frames readDistance :=
  Floats.bind readByte_floats fun _ => Floats.bind readByte_floats fun _ => Floats.pure _

theorem readConstant_floats : Floats stack frames readConstant := by
  apply Floats.bind readByte_floats
  intro id
  apply Floats.get fun _ => rfl
  intro m
  cases m.chunk.bind fun chunk => chunk.constants.get? id.toNat with
  | none => exact Floats.throw _
  | some value => exact Floats.pure value

theorem readString_floats : Floats stack frames readString := by
  apply Floats.bind readByte_floats
  intro id
  apply Floats.get fun _ => rfl
  intro m
  cases m.chunk.bind fun chunk => chunk.strings.get? id.toNat with
  | none => exact Floats.throw _
  | some name => exact Floats.pure name

theorem combine_floats (operator : String) (operation : Float → Float → Value) :
    Floats stack frames (combine operator operation) := by
  apply Floats.bind pop_floats
  intro second
  apply Floats.bind pop_floats
  intro first
  cases first <;> cases second <;> first | exact push_floats _ | exact Floats.throw _

theorem equal_floats : Floats stack frames equal := by
  apply Floats.bind pop_floats
  intro second
  apply Floats.bind pop_floats
  intro first
  cases first <;> cases second <;> first | exact push_floats _ | exact Floats.throw _

theorem not_floats : Floats stack frames not := by
  apply Floats.bind pop_floats
  intro value
  cases value <;> first | exact push_floats _ | exact Floats.throw _

theorem negate_floats : Floats stack frames negate := by
  apply Floats.bind pop_floats
  intro value
  cases value <;> first | exact push_floats _ | exact Floats.throw _

theorem print_floats : Floats stack frames print :=
  Floats.bind pop_floats fun _ => Floats.modify fun _ => rfl

theorem getGlobal_floats : Floats stack frames getGlobal := by
  apply Floats.bind readString_floats
  intro name
  apply Floats.get fun _ => rfl
  intro m
  cases m.globals.find? name with
  | none => exact Floats.throw _
  | some value => exact push_floats value

theorem setLocal_floats : Floats stack frames setLocal := by
  apply Floats.bind readByte_floats
  intro slot
  apply Floats.bind pop_floats
  intro value
  apply Floats.slot
  intro place m
  refine congrArg (EStateM.Result.ok ()) ?_
  simp [above]

theorem getLocal_floats : Floats stack frames getLocal := by
  apply Floats.bind readByte_floats
  intro slot
  apply Floats.slot
  intro place m
  have same : (m.above stack frames).stack[stack.size + place]? = m.stack[place]? := by
    rw [above, Array.getElem?_append_right (Nat.le_add_right _ _), Nat.add_sub_cancel_left]
  rw [bind_get, bind_get, same]
  cases m.stack[place]? with
  | none => exact Floats.throw _ m
  | some value => exact push_floats value m

theorem jumpIfFalse_floats : Floats stack frames jumpIfFalse := by
  apply Floats.bind readDistance_floats
  intro distance
  apply Floats.bind pop_floats
  intro value
  rcases value with _ | truth | _ | _ | _ | _
  case bool =>
    cases truth with
    | true => exact Floats.pure ()
    | false => exact jumpBy_floats distance
  all_goals exact Floats.throw _

/-- A call puts its frame above the leftovers as well. -/
theorem enter_floats (count : Nat) (back start : Int) :
    Floats stack frames (enter count back start) := by
  apply Floats.bind (popMany_floats count)
  intro arguments
  apply Floats.bind (push_floats _)
  intro _
  apply Floats.bind (Floats.modify fun m => by simp [above])
  intro _
  exact Floats.bind (pushMany_floats _) fun _ => Floats.modify fun _ => rfl

theorem call_floats (name : String) (count : Nat) :
    Floats stack frames (perform (.invoke name count)) := by
  intro m
  cases found : m.globals.find? name with
  | none =>
      rw [perform_invoke_missing found, perform_invoke_missing (m := m.above stack frames) found]
      exact .inr rfl
  | some value =>
      by_cases callable : value.kind = .function
      · obtain ⟨function, rfl⟩ : ∃ function, value = .function function := by
          cases value <;> first | exact ⟨_, rfl⟩ | cases callable
        have found' : (m.above stack frames).globals.find? name = some (.function function) := found
        by_cases right : (count : Int) = function.arity
        · by_cases full : m.frameLimit ≤ m.frames.size
          · have full' :
                (m.above stack frames).frameLimit ≤ (m.above stack frames).frames.size := by
              simpa [above] using full
            rw [perform_invoke_frames found right full, perform_invoke_frames found' right full']
            exact .inr rfl
          · have room' :
                (m.above stack frames).frames.size < (m.above stack frames).frameLimit := by
              simpa [above] using full
            rw [perform_invoke found right (Nat.not_le.mp full), perform_invoke found' right room']
            exact enter_floats _ _ _ m
        · rw [perform_invoke_arity found right, perform_invoke_arity found' right]
          exact .inr rfl
      · rw [perform_invoke_other found callable,
          perform_invoke_other (m := m.above stack frames) found callable]
        exact .inr rfl

theorem invoke_floats : Floats stack frames invoke := by
  apply Floats.bind readString_floats
  intro name
  apply Floats.bind readByte_floats
  intro given
  exact call_floats name given.toNat

/-- Without leftovers there would be no frame to return from, or no address to return to. -/
theorem ret_floats : Floats stack frames ret := by
  apply Floats.bind pop_floats
  intro result m
  rw [bind_get, bind_get]
  cases found : m.frames.back? with
  | none => exact .inl rfl
  | some frame =>
      have lifted : (m.above stack frames).frames.back? = some (stack.size + frame) := by
        simp [above, found]
      have nonempty : m.frames ≠ #[] := by
        rintro empty
        simp [empty] at found
      have left : { m.above stack frames with
          frames := (m.above stack frames).frames.pop
          stack := (m.above stack frames).stack.extract 0 (stack.size + frame) } =
          { m with frames := m.frames.pop, stack := m.stack.extract 0 frame }.above stack
            frames := by
        have kept : stack.extract 0 (stack.size + frame) = stack :=
          Array.extract_eq_self_of_le (Nat.le_add_right _ _)
        simp [above, nonempty, kept]
      simp only [lifted, bind_modify, left]
      refine Floats.bind pop_floats ?_ _
      intro back
      cases back with
      | pointer target => exact Floats.bind (push_floats result) fun _ => Floats.modify fun _ => rfl
      | _ => exact Floats.throw _

/-- Whatever the instruction is, it does the same above leftovers. -/
theorem instruction_floats (op : Opcode) : Floats stack frames (instruction op) := by
  cases op with
  | print => exact print_floats
  | add | sub | mul | div | mod | gt | lt => exact combine_floats _ _
  | eq => exact equal_floats
  | not => exact not_floats
  | negate => exact negate_floats
  | const => exact Floats.bind readConstant_floats fun _ => push_floats _
  | str => exact Floats.bind readString_floats fun _ => push_floats _
  | true | false | null => exact push_floats _
  | pop => exact Floats.bind pop_floats fun _ => Floats.pure ()
  | setGlobal =>
      exact Floats.bind readString_floats fun name => Floats.bind pop_floats (define_floats name)
  | getGlobal => exact getGlobal_floats
  | deepSet => exact setLocal_floats
  | deepGet => exact getLocal_floats
  | jmp => exact Floats.bind readDistance_floats jumpBy_floats
  | jz => exact jumpIfFalse_floats
  | func =>
      exact Floats.bind readString_floats fun name => Floats.bind readByte_floats fun _ =>
        Floats.bind readByte_floats fun _ => define_floats name _
  | invoke => exact invoke_floats
  | ret => exact ret_floats
  | exit => exact Floats.modify fun _ => rfl

/-- The machine moves on behind the instruction. -/
theorem execute_floats (byte : UInt8) : Floats stack frames (execute byte) := by
  have onward : Floats stack frames (do
      if !(← MonadState.get).halted then
        Exec.jumpBy 1
        let machine ← MonadState.get
        if machine.ip < 0 || machine.code.size < machine.ip then
          MonadExcept.throw (.outOfRange machine.ip) : Exec Unit) := by
    apply Floats.get fun _ => rfl
    intro m
    cases m.halted with
    | true => exact Floats.pure ()
    | false =>
        apply Floats.bind (jumpBy_floats 1)
        intro _
        apply Floats.get fun _ => rfl
        intro m
        by_cases outside : (m.ip < 0 || m.code.size < m.ip) = true
        · rw [if_pos outside]
          exact Floats.throw _
        · rw [if_neg outside]
          exact Floats.pure ()
  unfold execute
  cases Opcode.ofByte? byte with
  | none =>
      apply Floats.get fun _ => rfl
      exact fun _ => Floats.bind (Floats.throw _) fun _ => onward
  | some op => exact Floats.bind (instruction_floats op) fun _ => onward

end Instructions

end Exec

/-- The floor of a program that finds global variables: return addresses may be among them. -/
def Floor.strewn : Floor := { stack := [], frames := [], home := none, strays := True }

namespace Machine

variable {stack : Array Value} {frames : Array Nat} {m : Machine} {chunk : Chunk}
  {lines : List Line}

/-- A step that finds no fault with the code is the same above leftovers. -/
theorem step_above (stack : Array Value) (frames : Array Nat)
    (benign : ∀ fault, m.step.2 = .error fault → fault.isMalformed = false) :
    (m.above stack frames).step = (m.step.1.above stack frames, m.step.2) := by
  apply Steps.eq
  have steps := m.steps
  generalize m.step = result at steps benign
  cases steps with
  | halted halted => exact .halted halted
  | ended running here => exact .ended running here
  | @done byte later running here outcome =>
      have lifted : Exec.Lifted stack frames (Exec.execute byte { m with offset := m.ip })
          (Exec.execute byte { m.above stack frames with offset := m.ip }) :=
        Exec.execute_floats byte { m with offset := m.ip }
      rw [outcome] at lifted
      exact .done running here lifted
  | @failed byte fault later running here outcome =>
      have lifted : Exec.Lifted stack frames (Exec.execute byte { m with offset := m.ip })
          (Exec.execute byte { m.above stack frames with offset := m.ip }) :=
        Exec.execute_floats byte { m with offset := m.ip }
      rw [outcome] at lifted
      rcases lifted with malformed | same
      · rw [benign fault rfl] at malformed
        cases malformed
      · exact .failed (m := m.above stack frames) running here same

/-- As long as no step finds fault with the code, a run is the same above leftovers. -/
theorem after_above (stack : Array Value) (frames : Array Nat)
    (benign : ∀ count fault, (m.after count).step.2 = .error fault → fault.isMalformed = false)
    (count : Nat) : (m.above stack frames).after count = (m.after count).above stack frames := by
  induction count with
  | zero => rfl
  | succ count ih => rw [after, ih, step_above stack frames (benign count), after]

/-- A program that finds no function among the global variables is at its first line. -/
theorem steady_cleared (runs : chunk.Runs lines) (stack : m.stack = #[]) (frames : m.frames = #[])
    (plain : ∀ name value, m.globals.find? name = some value → value.kind ≠ .function) :
    Steady chunk lines .strewn (m.load chunk) := by
  obtain ⟨line, listed, mark⟩ := runs.starts
  refine .inr ⟨0, line, rfl, rfl, rfl, rfl, listed, ?_, ?_, ?_⟩
  · have empty : Stacked lines .strewn ⟨none, ([] : List Value).length⟩ _ _ := .base (by simp)
    simpa [mark, load, stack, frames, Floor.strewn] using empty
  · intro name value found
    cases value with
    | function function => exact absurd rfl (plain name _ found)
    | _ => trivial
  · simp [load, stack]

/-- The machine without what earlier runs have left, and with only so much room as this leaves. -/
def cleared (m : Machine) : Machine :=
  { m with
    stackLimit := m.stackLimit - m.stack.size
    frameLimit := m.frameLimit - m.frames.size
    stack := #[]
    frames := #[] }

/-- Two runs in lockstep: what can be seen of the two states is the same, but for the leftovers
below the stack and the frames of the first. -/
structure Lockstep (below : Array Value) (earlier : Array Nat) (first second : Machine) : Prop where
  ip : first.ip = second.ip
  output : first.output = second.output
  globals : first.globals = second.globals
  halted : first.halted = second.halted
  stack : first.stack = below ++ second.stack
  frames : first.frames = earlier ++ second.frames.map (below.size + ·)
  /-- The next step has the same outcome, a fault included. -/
  outcome : first.step.2 = second.step.2

end Machine

/-- Leftovers of earlier runs cannot influence a program: whatever lies on the stack and in the
frames of a machine, and whatever its global variables are if none of them is a function, the
program runs on it as it does on a machine without the leftovers. -/
theorem Chunk.Built.leftovers_inert {poolSize limit bytes : Nat} {chunk whole : Chunk}
    {ranges : List (Nat × Nat)} {program : List Node} (small : poolSize ≤ Chunk.maxPoolSize)
    (built : Chunk.Built poolSize chunk ranges)
    (added : chunk.addProgram limit program = (whole, .ok bytes)) (m : Machine)
    (stackFits : m.stack.size ≤ m.stackLimit) (framesFit : m.frames.size ≤ m.frameLimit)
    (plain : ∀ name value, m.globals.find? name = some value → value.kind ≠ .function)
    (count : Nat) :
    Machine.Lockstep m.stack m.frames ((m.load whole).after count)
      ((m.cleared.load whole).after count) := by
  obtain ⟨lines, runs⟩ := built.runs small added
  have steady : Machine.Steady whole lines .strewn (m.cleared.load whole) :=
    Machine.steady_cleared runs rfl rfl plain
  have benign (count : Nat) (fault : Fault)
      (failed : ((m.cleared.load whole).after count).step.2 = .error fault) :
      fault.isMalformed = false :=
    (steady.after runs rfl count).benign runs rfl failed
  have start : m.load whole = (m.cleared.load whole).above m.stack m.frames := by
    simp [Machine.load, Machine.cleared, Machine.above, stackFits, framesFit]
  rw [start, Machine.after_above m.stack m.frames benign count]
  constructor
  case outcome => rw [Machine.step_above m.stack m.frames (benign count)]
  all_goals rfl

/-- A machine that an earlier run has left in the midst of a call, with a return address among its
global variables. -/
def Machine.littered : Machine :=
  { (Machine.new 7 5).define "back" (.pointer 3) with
    stack := #[.bool true, .pointer 40, .null]
    frames := #[2] }

theorem Chunk.leftovers_inert_identity :
    ∃ whole, (Chunk.empty 256).addProgram 10 Node.callIdentity = (whole, .ok 16) ∧
      Machine.littered.stack.size ≤ Machine.littered.stackLimit ∧
      Machine.littered.frames.size ≤ Machine.littered.frameLimit ∧
      (∀ name value, Machine.littered.globals.find? name = some value →
        value.kind ≠ .function) ∧
      Machine.Lockstep Machine.littered.stack Machine.littered.frames
        ((Machine.littered.load whole).after 5)
        ((Machine.littered.cleared.load whole).after 5) := by
  have added : (Chunk.empty 256).addProgram 10 Node.callIdentity =
      (((Chunk.empty 256).addProgram 10 Node.callIdentity).1, .ok 16) :=
    Chunk.eq_ok_of_bytes (by decide +kernel)
  have plain (name : String) (value : Value)
      (found : Machine.littered.globals.find? name = some value) : value.kind ≠ .function := by
    have found' : (Globals.empty.insert "back" (.pointer 3)).find? name = some value := found
    rw [Globals.find?_insert] at found'
    split at found'
    · cases found'
      exact nofun
    · simp [Globals.find?, Globals.empty] at found'
  exact ⟨_, added, by decide, by decide, plain,
    Chunk.Built.leftovers_inert (by decide) .empty added Machine.littered (by decide) (by decide)
      plain 5⟩

end StackScript
