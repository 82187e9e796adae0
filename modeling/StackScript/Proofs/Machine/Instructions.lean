/-
# Properties of all instructions

Instructions are put together from few actions. A property of actions that passes from the parts
to the whole is therefore a property of every instruction, once it is shown for these few. Most of
the actions only work on values, and these are all that an instruction needs which stays within its
call. No instruction looks at what has been printed, and only putting a value on the stack and
calling a function look at the limits; such a property may rely on that.
-/

import StackScript.Proofs.Machine.Effects

namespace StackScript

/-- A machine that has printed something else before. -/
def Machine.preceded (m : Machine) (front : Array String) : Machine :=
  { m with output := front ++ m.output }

/-- Does an instruction lead to another call, or to the end of the run? -/
def Opcode.switches : Opcode → Bool
  | invoke | ret | exit => .true
  | _ => .false

namespace Exec

/-- A property of actions that passes from the parts to the whole, and that the actions have which
work on values. -/
structure Composed (holds : ∀ {α : Type}, Exec α → Prop) : Prop where
  pure {α : Type} (value : α) : holds (Pure.pure value)
  throw {α : Type} (fault : Fault) : holds (throw fault : Exec α)
  bind {α β : Type} {x : Exec α} {f : α → Exec β} :
    holds x → (∀ value, holds (f value)) → holds (x >>= f)
  get {β : Type} {f : Machine → Exec β} : (∀ m front, f (m.preceded front) = f m) →
    (∀ m stackLimit frameLimit, f { m with stackLimit, frameLimit } = f m) →
      (∀ m, holds (f m)) → holds (get >>= f)
  push (value : Value) : holds (push value)
  pop : holds pop
  define (name : String) (value : Value) : holds (define name value)
  record (line : String) : holds (modify fun machine =>
    { machine with output := machine.output.push line } : Exec Unit)
  store (place : Nat) (value : Value) : holds (modify fun machine =>
    { machine with stack := machine.stack.setIfInBounds place value } : Exec Unit)

/-- The same for the actions as well which say where the machine goes on, so that all actions have
the property of which instructions consist. -/
structure Inherited (holds : ∀ {α : Type}, Exec α → Prop) : Prop extends Composed @holds where
  jumpBy (distance : Int) : holds (jumpBy distance)
  jumpTo (target : Int) : holds (modify fun machine => { machine with ip := target } : Exec Unit)
  call (name : String) (count : Nat) : holds (perform (.invoke name count))
  leave (frame : Nat) : holds (modify fun machine =>
    { machine with frames := machine.frames.pop, stack := machine.stack.extract 0 frame } : Exec Unit)
  exit : holds exit

namespace Composed

variable {holds : ∀ {α : Type}, Exec α → Prop} (h : Composed @holds)

include h

theorem position (slot : Nat) : holds (position slot) := by
  apply h.get (fun _ _ => rfl) fun _ _ _ => rfl
  intro m
  cases m.frames.back? with
  | none => exact h.throw _
  | some frame =>
      by_cases within : frame + slot < m.stack.size
      · simp only [within, if_true]
        exact h.pure _
      · simp only [within, if_false]
        exact h.throw _

theorem combine (operator : String) (operation : Float → Float → Value) :
    holds (combine operator operation) := by
  apply h.bind h.pop
  intro second
  apply h.bind h.pop
  intro first
  cases first <;> cases second <;> first | exact h.push _ | exact h.throw _

theorem equal : holds equal := by
  apply h.bind h.pop
  intro second
  apply h.bind h.pop
  intro first
  cases first <;> cases second <;> first | exact h.push _ | exact h.throw _

theorem not : holds not := by
  apply h.bind h.pop
  intro value
  cases value <;> first | exact h.push _ | exact h.throw _

theorem negate : holds negate := by
  apply h.bind h.pop
  intro value
  cases value <;> first | exact h.push _ | exact h.throw _

/-- The value of a global variable is fetched. -/
theorem fetch (name : String) : holds (perform (.getGlobal name)) := by
  apply h.get (fun _ _ => rfl) fun _ _ _ => rfl
  intro m
  cases m.globals.find? name with
  | none => exact h.throw _
  | some value => exact h.push value

/-- The value of a local variable is fetched. -/
theorem fetchLocal (slot : Nat) : holds (perform (.deepGet slot)) := by
  apply h.bind (h.position slot)
  intro place
  apply h.get (fun _ _ => rfl) fun _ _ _ => rfl
  intro m
  cases m.stack[place]? with
  | none => exact h.throw _
  | some value => exact h.push value

/-- A conditional jump, if a jump has the property. -/
theorem jumpIfFalse {distance : Int} (jump : holds (jumpBy distance)) :
    holds (perform (.jz distance)) := by
  apply h.bind h.pop
  intro value
  rcases value with _ | truth | _ | _ | _ | _
  case bool =>
    cases truth with
    | true => exact h.pure ()
    | false => exact jump
  all_goals exact h.throw _

/-- Every instruction that stays within the call, the jumps only if jumping has the property. -/
theorem perform {instr : Instr} (stays : instr.op.switches = false)
    (jump : instr.op.isJump = true → ∀ distance, holds (jumpBy distance)) :
    holds (perform instr) := by
  cases instr with
  | plain op bare =>
      cases op with
      | print => exact h.bind h.pop fun value => h.record value.text
      | add | sub | mul | div | mod | gt | lt => exact h.combine _ _
      | eq => exact h.equal
      | not => exact h.not
      | negate => exact h.negate
      | true | false | null => exact h.push _
      | pop => exact h.bind h.pop fun _ => h.pure ()
      | ret | exit => cases stays
      | _ => cases bare
  | const value => exact h.push _
  | str value => exact h.push _
  | setGlobal name => exact h.bind h.pop fun value => h.define name value
  | getGlobal name => exact h.fetch name
  | deepSet slot =>
      exact h.bind h.pop fun value => h.bind (h.position slot) fun place => h.store place value
  | deepGet slot => exact h.fetchLocal slot
  | jmp distance => exact jump rfl distance
  | jz distance => exact h.jumpIfFalse (jump rfl distance)
  | func name arity start => exact h.define name _
  | invoke name count => cases stays

end Composed

namespace Inherited

variable {holds : ∀ {α : Type}, Exec α → Prop} (h : Inherited @holds)

include h

theorem readByte : holds readByte := by
  apply h.bind (h.jumpBy 1)
  intro _
  apply h.get (fun _ _ => rfl) fun _ _ _ => rfl
  intro m
  by_cases negative : m.ip < 0
  · rw [if_pos negative]
    apply h.bind (h.throw _)
    intro _
    split
    · exact h.throw _
    · exact h.pure _
  · rw [if_neg negative]
    split
    · exact h.throw _
    · exact h.pure _

theorem readDistance : holds readDistance := by
  apply h.bind h.readByte
  intro high
  exact h.bind h.readByte fun low => h.pure _

theorem readConstant : holds readConstant := by
  apply h.bind h.readByte
  intro id
  apply h.get (fun _ _ => rfl) fun _ _ _ => rfl
  intro m
  cases m.chunk.bind fun chunk => chunk.constants.get? id.toNat with
  | none => exact h.throw _
  | some value => exact h.pure value

theorem readString : holds readString := by
  apply h.bind h.readByte
  intro id
  apply h.get (fun _ _ => rfl) fun _ _ _ => rfl
  intro m
  cases m.chunk.bind fun chunk => chunk.strings.get? id.toNat with
  | none => exact h.throw _
  | some name => exact h.pure name

theorem getGlobal : holds getGlobal := h.bind h.readString h.fetch

theorem getLocal : holds getLocal := h.bind h.readByte fun slot => h.fetchLocal slot.toNat

theorem jumpIfFalse : holds jumpIfFalse :=
  h.bind h.readDistance fun distance => h.toComposed.jumpIfFalse (h.jumpBy distance)

theorem invoke : holds invoke := by
  apply h.bind h.readString
  intro name
  apply h.bind h.readByte
  intro given
  exact h.call name given.toNat

theorem ret : holds ret := by
  apply h.bind h.pop
  intro result
  apply h.get (fun _ _ => rfl) fun _ _ _ => rfl
  intro m
  cases m.frames.back? with
  | none => exact h.throw _
  | some frame =>
      apply h.bind (h.leave frame)
      intro _
      apply h.bind h.pop
      intro back
      cases back with
      | pointer target => exact h.bind (h.push result) fun _ => h.jumpTo target
      | _ => exact h.throw _

/-- Whatever the instruction is. -/
theorem instruction (op : Opcode) : holds (instruction op) := by
  cases op with
  | print => exact h.bind h.pop fun value => h.record value.text
  | add | sub | mul | div | mod | gt | lt => exact h.combine _ _
  | eq => exact h.equal
  | not => exact h.not
  | negate => exact h.negate
  | const => exact h.bind h.readConstant fun value => h.push _
  | str => exact h.bind h.readString fun value => h.push _
  | true | false | null => exact h.push _
  | pop => exact h.bind h.pop fun _ => h.pure ()
  | setGlobal => exact h.bind h.readString fun name => h.bind h.pop fun value => h.define name value
  | getGlobal => exact h.getGlobal
  | deepSet =>
      exact h.bind h.readByte fun slot => h.bind h.pop fun value =>
        h.bind (h.position _) fun place => h.store place value
  | deepGet => exact h.getLocal
  | jmp => exact h.bind h.readDistance h.jumpBy
  | jz => exact h.jumpIfFalse
  | func =>
      exact h.bind h.readString fun name => h.bind h.readByte fun arity =>
        h.bind h.readByte fun first => h.define name _
  | invoke => exact h.invoke
  | ret => exact h.ret
  | exit => exact h.exit

/-- The machine moves on behind the instruction. -/
theorem execute (byte : UInt8) : holds (execute byte) := by
  have onward : holds (do
      if !(← MonadState.get).halted then
        Exec.jumpBy 1
        let machine ← MonadState.get
        if machine.ip < 0 || machine.code.size < machine.ip then
          MonadExcept.throw (.outOfRange machine.ip) : Exec Unit) := by
    apply h.get (fun _ _ => rfl) fun _ _ _ => rfl
    intro m
    cases m.halted with
    | true => exact h.pure ()
    | false =>
        apply h.bind (h.jumpBy 1)
        intro _
        apply h.get (fun _ _ => rfl) fun _ _ _ => rfl
        intro m
        by_cases outside : (m.ip < 0 || m.code.size < m.ip) = true
        · rw [if_pos outside]
          exact h.throw _
        · rw [if_neg outside]
          exact h.pure ()
  unfold Exec.execute
  cases Opcode.ofByte? byte with
  | none =>
      apply h.get (fun _ _ => rfl) fun _ _ _ => rfl
      exact fun _ => h.bind (h.throw _) fun _ => onward
  | some op => exact h.bind (h.instruction op) fun _ => onward

end Inherited

end Exec

end StackScript
