/-
# Effects of instructions

The outcome of each instruction, as a function of what lies on the stack. The
stack and the frames are written as lists with their bottom first, so that an
instruction takes values from the end and leaves what is before them alone.
-/

import Mathlib.Data.List.Basic
import Mathlib.Data.List.Induction
import StackScript.Proofs.Machine.Perform

namespace StackScript

namespace Machine

/-- A machine with another stack and other frames. -/
def holding (m : Machine) (stack : List Value) (frames : List Nat) : Machine :=
  { m with stack := stack.toArray, frames := frames.toArray }

variable {m : Machine} {stack : List Value} {frames : List Nat}

@[simp] theorem stack_holding : (m.holding stack frames).stack = stack.toArray := rfl

@[simp] theorem frames_holding : (m.holding stack frames).frames = frames.toArray := rfl

@[simp] theorem stackLimit_holding : (m.holding stack frames).stackLimit = m.stackLimit := rfl

@[simp] theorem frameLimit_holding : (m.holding stack frames).frameLimit = m.frameLimit := rfl

@[simp] theorem globals_holding : (m.holding stack frames).globals = m.globals := rfl

@[simp] theorem chunk_holding : (m.holding stack frames).chunk = m.chunk := rfl

@[simp] theorem code_holding : (m.holding stack frames).code = m.code := rfl

@[simp] theorem ip_holding : (m.holding stack frames).ip = m.ip := rfl

@[simp] theorem halted_holding : (m.holding stack frames).halted = m.halted := rfl

@[simp] theorem output_holding : (m.holding stack frames).output = m.output := rfl

/-- What follows an instruction: the machine moves on, unless it has been stopped
or the instruction has failed. -/
def finish : EStateM.Result Fault Machine Unit → Machine × Except Fault Bool
  | .ok _ after =>
    if after.halted then (after, .ok false)
    else if after.ip + 1 < 0 || after.code.size < after.ip + 1 then
      ({ after with ip := after.ip + 1, halted := true }, .error (.outOfRange (after.ip + 1)))
    else ({ after with ip := after.ip + 1 }, .ok true)
  | .error fault after => ({ after with halted := true }, .error fault)

/-- The machine moves on within its code. -/
theorem finish_ok {after : Machine} (running : after.halted = false) (low : 0 ≤ after.ip + 1)
    (high : after.ip + 1 ≤ after.code.size) :
    finish (.ok () after) = ({ after with ip := after.ip + 1 }, .ok true) := by
  have onward : ¬ (after.ip + 1 < 0 || after.code.size < after.ip + 1) = true := by
    simp only [Bool.or_eq_true, decide_eq_true_eq, not_or]
    omega
  rw [finish, if_neg (by simp [running]), if_neg onward]

/-- A running machine that comes to an instruction. -/
structure Faces (m : Machine) (chunk : Chunk) (offset : Nat) (instr : Instr) : Prop where
  running : m.halted = false
  loaded : m.chunk = some chunk
  code : m.code = chunk.code
  ip : m.ip = offset
  reads : chunk.Reads offset instr

/-- The machine while it performs the instruction at an offset: its operands have
been read. -/
def begun (m : Machine) (offset : Nat) (instr : Instr) : Machine :=
  { m with offset := offset, ip := (offset + (instr.op.size - 1) : Nat) }

theorem begun_eq (h : m.stack.toList = stack) (offset : Nat) (instr : Instr) :
    m.begun offset instr = (m.begun offset instr).holding stack m.frames.toList := by
  rw [← h]
  rfl

theorem begun_ip (offset : Nat) (instr : Instr) :
    (m.begun offset instr).ip + 1 = (offset + instr.op.size : Nat) := by
  have : 0 < instr.op.size := by
    unfold Opcode.size
    omega
  simp only [begun]
  omega

theorem current?_of_drop {offset : Nat} {byte : UInt8} {bytes : List UInt8} (ip : m.ip = offset)
    (here : m.code.bytes.toList.drop offset = byte :: bytes) : m.current? = some byte := by
  have nonneg : ¬ ((offset : Int) < 0) := by omega
  have first : (m.code.bytes.toList.drop offset)[0]? = some byte := by rw [here]; rfl
  rw [current?, ip, if_neg nonneg, Int.toNat_natCast, ← Array.getElem?_toList]
  simpa using first

/-- A step performs the instruction that the code shows where the machine is. -/
theorem step_of_shown {chunk : Chunk} {offset : Nat} {instr : Instr} {operands : List Int}
    (running : m.halted = false) (loaded : m.chunk = some chunk) (ip : m.ip = offset)
    (finds : chunk.Finds instr operands) (fits : Code.Fits instr.op operands)
    (shown : Code.instructionBytes instr.op operands <+: m.code.bytes.toList.drop offset) :
    m.step = finish (Exec.perform instr (m.begun offset instr)) := by
  have present : m.current? = some instr.op.byte := by
    obtain ⟨rest, same⟩ := shown
    exact current?_of_drop ip same.symm
  have performed : Exec.instruction instr.op { m with offset := m.ip } =
      Exec.perform instr (m.begun offset instr) := by
    rw [Exec.instruction_of_shown (m := { m with offset := m.ip }) loaded ip finds fits shown,
      begun, ip]
  have running : ¬ m.halted = true := by simp [running]
  rw [step, if_neg running, present]
  simp only [Exec.execute, Opcode.ofByte?_byte]
  cases outcome : Exec.perform instr (m.begun offset instr) with
  | error fault after =>
      rw [Exec.bind_of_error (performed.trans outcome)]
      rfl
  | ok value after =>
      rw [Exec.bind_of_ok (performed.trans outcome), Exec.bind_get]
      cases stopped : after.halted with
      | true => simp [finish, stopped]
      | false =>
          simp only [Bool.not_false, if_true, Exec.jumpBy, Exec.bind_modify, Exec.bind_get, finish,
            stopped, Bool.false_eq_true, if_false]
          by_cases outside : (after.ip + 1 < 0 || after.code.size < after.ip + 1) = true
          · rw [if_pos outside, if_pos outside]
            rfl
          · rw [if_neg outside, if_neg outside]
            simp

/-- The machine is at the opcode of the instruction. -/
theorem Faces.current? {chunk : Chunk} {offset : Nat} {instr : Instr}
    (h : m.Faces chunk offset instr) : m.current? = some instr.op.byte := by
  obtain ⟨operands, -, -, -, rest, same⟩ := h.reads
  exact current?_of_drop h.ip (h.code ▸ same.symm)

/-- A step performs the instruction that the machine has come to. -/
theorem Faces.step_eq {chunk : Chunk} {offset : Nat} {instr : Instr}
    (h : m.Faces chunk offset instr) :
    m.step = finish (Exec.perform instr (m.begun offset instr)) := by
  obtain ⟨operands, resolves, exact_number, fits, shown⟩ := h.reads
  exact step_of_shown h.running h.loaded h.ip ⟨resolves, exact_number⟩ fits (h.code ▸ shown)

end Machine

/-- The value of a name after a definition. -/
theorem Globals.find?_insert (globals : Globals) (name other : String) (value : Value) :
    (globals.insert name value).find? other =
      if name = other then some value else globals.find? other := by
  simp only [Globals.insert, Globals.find?, Std.TreeMap.getElem?_insert,
    Std.LawfulEqOrd.compare_eq_iff_eq]

/-- The outcome of a calculation with two numbers. -/
def Value.arithmetic (operator : String) (operation : Float → Float → Value) :
    Value → Value → Except Fault Value
  | .number x, .number y => .ok (operation x y)
  | first, second => .error (.incompatibleOperands operator [first.kind, second.kind])

/-- The outcome of a comparison for equality. -/
def Value.equality : Value → Value → Except Fault Value
  | .number x, .number y => .ok (.bool (x == y))
  | .bool x, .bool y => .ok (.bool (x == y))
  | .string x, .string y => .ok (.bool (x == y))
  | .null, .null => .ok (.bool true)
  | first, second => .error (.incompatibleOperands "==" [first.kind, second.kind])

/-- The outcome of a logical negation. -/
def Value.inverted : Value → Except Fault Value
  | .bool value => .ok (.bool (!value))
  | value => .error (.incompatibleOperands "!" [value.kind])

/-- The outcome of an arithmetical negation. -/
def Value.negated : Value → Except Fault Value
  | .number value => .ok (.number (-value))
  | value => .error (.incompatibleOperands "-" [value.kind])

/-- The outcome of asking for a global variable. -/
def Globals.fetch (globals : Globals) (name : String) : Except Fault Value :=
  match globals.find? name with
  | none => .error (.variableNotDefined name)
  | some value => .ok value

/-- What an instruction makes of the two values on top of the stack. -/
def Opcode.binary? : Opcode → Option (Value → Value → Except Fault Value)
  | add => some (Value.arithmetic "+" fun x y => .number (x + y))
  | sub => some (Value.arithmetic "-" fun x y => .number (x - y))
  | mul => some (Value.arithmetic "*" fun x y => .number (x * y))
  | div => some (Value.arithmetic "/" fun x y => .number (x / y))
  | mod => some (Value.arithmetic "%" fun x y => .number (Number.remainder x y))
  | eq => some Value.equality
  | gt => some (Value.arithmetic ">" fun x y => .bool (y < x))
  | lt => some (Value.arithmetic "<" fun x y => .bool (x < y))
  | _ => none

/-- What an instruction makes of the value on top of the stack. -/
def Opcode.unary? : Opcode → Option (Value → Except Fault Value)
  | not => some Value.inverted
  | negate => some Value.negated
  | _ => none

namespace Exec

/-- Puts the outcome of an operation on the stack. -/
def deliver : Except Fault Value → Exec Unit
  | .ok value => push value
  | .error fault => throw fault

variable {m : Machine} {stack : List Value} {frames : List Nat} {value : Value}

theorem pop_holding :
    pop (m.holding (stack ++ [value]) frames) = .ok value (m.holding stack frames) := by
  simp only [pop, bind_get, Machine.stack_holding, List.back?_toArray, List.getLast?_concat,
    bind_modify, pure_eq]
  simp [Machine.holding]

theorem push_holding (room : stack.length < m.stackLimit) :
    push value (m.holding stack frames) = .ok () (m.holding (stack ++ [value]) frames) := by
  have enough : ¬ m.stackLimit ≤ stack.length := Nat.not_le.mpr room
  simp [push, Machine.holding, enough]

theorem push_full (full : m.stackLimit ≤ stack.length) :
    push value (m.holding stack frames) = .error .stackOverflow (m.holding stack frames) := by
  simp [push, Machine.holding, full]

theorem popMany_holding (taken : List Value) :
    popMany taken.length (m.holding (stack ++ taken) frames) =
      .ok taken.reverse (m.holding stack frames) := by
  induction taken using List.reverseRecOn with
  | nil => simp [popMany]
  | append_singleton rest last ih =>
      rw [List.length_append, List.length_singleton, popMany, ← List.append_assoc,
        bind_of_ok pop_holding, bind_of_ok ih]
      simp

theorem pushMany_holding (values : List Value)
    (room : stack.length + values.length ≤ m.stackLimit) :
    pushMany values (m.holding stack frames) = .ok () (m.holding (stack ++ values) frames) := by
  induction values generalizing stack with
  | nil => simp [pushMany]
  | cons first rest ih =>
      rw [List.length_cons] at room
      rw [pushMany, bind_of_ok (push_holding (by omega)), ih (by simp; omega)]
      simp

theorem pushMany_full (values : List Value) (fits : stack.length ≤ m.stackLimit)
    (full : m.stackLimit < stack.length + values.length) :
    ∃ pushed, pushed <+: values ∧
      pushMany values (m.holding stack frames) =
        .error .stackOverflow (m.holding (stack ++ pushed) frames) := by
  induction values generalizing stack with
  | nil => simp at full; omega
  | cons first rest ih =>
      rw [List.length_cons] at full
      by_cases room : stack.length < m.stackLimit
      · obtain ⟨pushed, isPrefix, same⟩ := @ih (stack ++ [first]) (by simp; omega) (by simp; omega)
        refine ⟨first :: pushed, List.cons_prefix_cons.mpr ⟨rfl, isPrefix⟩, ?_⟩
        rw [pushMany, bind_of_ok (push_holding room), same]
        simp
      · refine ⟨[], List.nil_prefix, ?_⟩
        rw [pushMany, bind_of_error (push_full (Nat.not_lt.mp room))]
        simp

theorem combine_holding (operator : String) (operation : Float → Float → Value)
    (first second : Value) :
    combine operator operation (m.holding (stack ++ [first, second]) frames) =
      deliver (Value.arithmetic operator operation first second) (m.holding stack frames) := by
  rw [show stack ++ [first, second] = (stack ++ [first]) ++ [second] by simp, combine,
    bind_of_ok pop_holding, bind_of_ok pop_holding]
  cases first <;> cases second <;> rfl

theorem equal_holding (first second : Value) :
    equal (m.holding (stack ++ [first, second]) frames) =
      deliver (Value.equality first second) (m.holding stack frames) := by
  rw [show stack ++ [first, second] = (stack ++ [first]) ++ [second] by simp, equal,
    bind_of_ok pop_holding, bind_of_ok pop_holding]
  cases first <;> cases second <;> rfl

/-- An operation takes two values and leaves its outcome. -/
theorem perform_binary {op : Opcode} {bare : op.operands = []}
    {operation : Value → Value → Except Fault Value} (h : op.binary? = some operation)
    (first second : Value) :
    perform (.plain op bare) (m.holding (stack ++ [first, second]) frames) =
      deliver (operation first second) (m.holding stack frames) := by
  cases op <;> cases h <;> first | exact combine_holding _ _ first second | exact equal_holding first second

/-- An operation takes one value and leaves its outcome. -/
theorem perform_unary {op : Opcode} {bare : op.operands = []}
    {operation : Value → Except Fault Value} (h : op.unary? = some operation) (value : Value) :
    perform (.plain op bare) (m.holding (stack ++ [value]) frames) =
      deliver (operation value) (m.holding stack frames) := by
  cases op <;> cases h
  · refine (bind_of_ok pop_holding).trans ?_
    cases value <;> rfl
  · refine (bind_of_ok pop_holding).trans ?_
    cases value <;> rfl

theorem perform_pop {bare : Opcode.pop.operands = []} :
    perform (.plain .pop bare) (m.holding (stack ++ [value]) frames) =
      .ok () (m.holding stack frames) :=
  (bind_of_ok pop_holding).trans rfl

theorem perform_print {bare : Opcode.print.operands = []} :
    perform (.plain .print bare) (m.holding (stack ++ [value]) frames) =
      .ok () ({ m with output := m.output.push value.text }.holding stack frames) :=
  (bind_of_ok pop_holding).trans rfl

theorem perform_setGlobal {name : String} :
    perform (.setGlobal name) (m.holding (stack ++ [value]) frames) =
      .ok () ((m.define name value).holding stack frames) :=
  (bind_of_ok pop_holding).trans rfl

theorem perform_func {name : String} {arity start : Nat} :
    perform (.func name arity start) (m.holding stack frames) =
      .ok () ((m.define name (.function { name, arity := arity, start := start })).holding stack
        frames) := rfl

theorem perform_getGlobal {name : String} :
    perform (.getGlobal name) (m.holding stack frames) =
      deliver (m.globals.fetch name) (m.holding stack frames) := by
  simp only [perform, bind_get, Machine.globals_holding, Globals.fetch]
  cases m.globals.find? name <;> rfl

section Locals

variable {below locals : List Value} {slot : Nat}

theorem position_holding (within : slot < locals.length) :
    position slot (m.holding (below ++ locals) (frames ++ [below.length])) =
      .ok (below.length + slot) (m.holding (below ++ locals) (frames ++ [below.length])) := by
  have inside : below.length + slot < below.length + locals.length := by omega
  simp [position, inside]

/-- A local variable is fetched from its slot in the innermost frame. -/
theorem perform_deepGet (within : slot < locals.length) :
    perform (.deepGet slot) (m.holding (below ++ locals) (frames ++ [below.length])) =
      push locals[slot] (m.holding (below ++ locals) (frames ++ [below.length])) := by
  rw [perform, bind_of_ok (position_holding within)]
  simp [within]

/-- A local variable is changed in its slot of the innermost frame. -/
theorem perform_deepSet (within : slot < locals.length) :
    perform (.deepSet slot)
        (m.holding (below ++ locals ++ [value]) (frames ++ [below.length])) =
      .ok () (m.holding (below ++ locals.set slot value) (frames ++ [below.length])) := by
  rw [perform, bind_of_ok pop_holding, bind_of_ok (position_holding within)]
  simp [Machine.holding]

end Locals

theorem perform_jmp {distance : Int} :
    perform (.jmp distance) m = .ok () { m with ip := m.ip + distance } := rfl

theorem perform_jz_true {distance : Int} :
    perform (.jz distance) (m.holding (stack ++ [.bool true]) frames) =
      .ok () (m.holding stack frames) :=
  (bind_of_ok pop_holding).trans rfl

theorem perform_jz_false {distance : Int} :
    perform (.jz distance) (m.holding (stack ++ [.bool false]) frames) =
      .ok () { m.holding stack frames with ip := m.ip + distance } :=
  (bind_of_ok pop_holding).trans rfl

/-- A condition that is no truth value. -/
theorem perform_jz_other {distance : Int} (other : value.kind ≠ .bool) :
    perform (.jz distance) (m.holding (stack ++ [value]) frames) =
      .error (.incompatibleOperands "if" [value.kind]) (m.holding stack frames) := by
  refine (bind_of_ok pop_holding).trans ?_
  cases value with
  | bool value => exact absurd rfl other
  | _ => rfl

theorem perform_exit {bare : Opcode.exit.operands = []} :
    perform (.plain .exit bare) m = .ok () { m with halted := true } := rfl

section Returns

variable {below locals : List Value} {target : Int} {bare : Opcode.ret.operands = []}

/-- A return clears the stack down to the frame, and takes the return address from
below it. -/
theorem perform_ret_eq :
    perform (.plain .ret bare)
        (m.holding (below ++ .pointer target :: locals ++ [value]) (frames ++ [below.length + 1])) =
      (do
        push value
        modify fun machine => { machine with ip := target } : Exec Unit)
          (m.holding below frames) := by
  have cut : { m.holding (below ++ .pointer target :: locals) (frames ++ [below.length + 1]) with
      frames := (frames ++ [below.length + 1]).toArray.pop
      stack := (below ++ .pointer target :: locals).toArray.extract 0 (below.length + 1) } =
        m.holding (below ++ [.pointer target]) frames := by
    simp [Machine.holding, List.take_append, List.take_of_length_le]
  refine (bind_of_ok pop_holding).trans ?_
  simp only [bind_get, Machine.frames_holding, List.back?_toArray, List.getLast?_concat,
    bind_modify, Machine.stack_holding, cut]
  exact (bind_of_ok pop_holding).trans rfl

/-- A call returns to the address below its frame, and leaves its result there. -/
theorem perform_ret (room : below.length < m.stackLimit) :
    perform (.plain .ret bare)
        (m.holding (below ++ .pointer target :: locals ++ [value]) (frames ++ [below.length + 1])) =
      .ok () { m.holding (below ++ [value]) frames with ip := target } := by
  rw [perform_ret_eq, bind_of_ok (push_holding room)]
  rfl

theorem perform_ret_full (full : m.stackLimit ≤ below.length) :
    perform (.plain .ret bare)
        (m.holding (below ++ .pointer target :: locals ++ [value]) (frames ++ [below.length + 1])) =
      .error .stackOverflow (m.holding below frames) := by
  rw [perform_ret_eq, bind_of_error (push_full full)]

end Returns

section Calls

variable {name : String} {count : Nat} {function : Function}

theorem perform_invoke_missing (missing : m.globals.find? name = none) :
    perform (.invoke name count) m = .error (.functionNotDefined name) m := by
  simp only [perform, bind_get, missing, throw_eq]

theorem perform_invoke_other {value : Value} (found : m.globals.find? name = some value)
    (other : value.kind ≠ .function) :
    perform (.invoke name count) m = .error (.notCallable name value.kind) m := by
  simp only [perform, bind_get, found]
  cases value with
  | function function => exact absurd rfl other
  | _ => rfl

theorem perform_invoke_arity (found : m.globals.find? name = some (.function function))
    (wrong : (count : Int) ≠ function.arity) :
    perform (.invoke name count) m = .error (.arityMismatch name function.arity count) m := by
  simp only [perform, bind_get, found, if_pos wrong, bind_throw]

theorem perform_invoke_frames (found : m.globals.find? name = some (.function function))
    (right : (count : Int) = function.arity) (full : m.frameLimit ≤ m.frames.size) :
    perform (.invoke name count) m = .error .frameOverflow m := by
  simp only [perform, bind_get, found, right, ne_eq, not_true_eq_false, if_false, if_pos full,
    bind_throw]

/-- What a call does once nothing speaks against it. -/
def enter (count : Nat) (back start : Int) : Exec Unit := do
  let arguments ← popMany count
  push (.pointer back)
  modify fun machine => { machine with frames := machine.frames.push machine.stack.size }
  pushMany arguments.reverse
  modify fun machine => { machine with ip := start - 1 }

theorem perform_invoke (found : m.globals.find? name = some (.function function))
    (right : (count : Int) = function.arity) (frame : m.frames.size < m.frameLimit) :
    perform (.invoke name count) m = enter count m.ip function.start m := by
  have enough : ¬ m.frameLimit ≤ m.frames.size := Nat.not_le.mpr frame
  simp only [perform, bind_get, found, right, ne_eq, not_true_eq_false, if_false, enough]
  rfl

variable {taken : List Value} {back start : Int}

theorem push_frame (back : Int) :
    { m.holding (stack ++ [.pointer back]) frames with
      frames := (m.holding (stack ++ [.pointer back]) frames).frames.push
        (m.holding (stack ++ [.pointer back]) frames).stack.size } =
      m.holding (stack ++ [.pointer back]) (frames ++ [stack.length + 1]) := by
  simp [Machine.holding]

/-- A call takes the arguments off the stack, and puts them back above the return
address. -/
theorem enter_holding (room : stack.length + taken.length < m.stackLimit) :
    enter taken.length back start (m.holding (stack ++ taken) frames) =
      .ok () { m.holding (stack ++ .pointer back :: taken) (frames ++ [stack.length + 1]) with
        ip := start - 1 } := by
  rw [enter, bind_of_ok (popMany_holding taken), bind_of_ok (push_holding (by omega)),
    bind_modify, push_frame, List.reverse_reverse,
    bind_of_ok (pushMany_holding taken (by simp; omega)), modify_eq, List.append_assoc]
  rfl

/-- Without room for the return address the arguments are lost. -/
theorem enter_refused (frames : List Nat) (back start : Int) (full : m.stackLimit ≤ stack.length) :
    enter taken.length back start (m.holding (stack ++ taken) frames) =
      .error .stackOverflow (m.holding stack frames) := by
  rw [enter, bind_of_ok (popMany_holding taken), bind_of_error (push_full full)]

/-- Without room for the arguments behind the return address, the address and the frame stay. -/
theorem enter_halfway (frames : List Nat) (back start : Int) (room : stack.length < m.stackLimit)
    (full : m.stackLimit ≤ stack.length + taken.length) :
    ∃ pushed, enter taken.length back start (m.holding (stack ++ taken) frames) =
      .error .stackOverflow
        (m.holding (stack ++ .pointer back :: pushed) (frames ++ [stack.length + 1])) := by
  obtain ⟨pushed, -, same⟩ := @pushMany_full m (stack ++ [.pointer back])
    (frames ++ [stack.length + 1]) taken (by simp; omega) (by simp; omega)
  refine ⟨pushed, ?_⟩
  rw [enter, bind_of_ok (popMany_holding taken), bind_of_ok (push_holding room), bind_modify,
    push_frame, List.reverse_reverse, bind_of_error same, List.append_assoc]
  rfl

/-- Without room for all of it a call fails, but leaves alone what is below the arguments. -/
theorem enter_full (frames : List Nat) (back start : Int)
    (full : m.stackLimit ≤ stack.length + taken.length) :
    ∃ above later, enter taken.length back start (m.holding (stack ++ taken) frames) =
      .error .stackOverflow (m.holding (stack ++ above) (frames ++ later)) := by
  by_cases room : stack.length < m.stackLimit
  · obtain ⟨pushed, same⟩ := enter_halfway frames back start room full
    exact ⟨_, _, same⟩
  · refine ⟨[], [], ?_⟩
    rw [enter_refused frames back start (Nat.not_lt.mp room), List.append_nil, List.append_nil]

end Calls

end Exec

end StackScript
