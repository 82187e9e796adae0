/-
# Agreement with the machine without guards

Wherever a chunk is loaded, the limits are the same and the instruction pointer is not negative,
an instruction of the machine without guards does what the instruction of the machine does. The
proof follows the instructions: these conditions are kept until an instruction is done with its
operands, and no later access depends on them.
-/

import StackScript.Proofs.Machine.Unguarded

namespace StackScript

namespace Unguarded

open Exec (Ends)

/-- An outcome of the machine, seen as one of the machine without guards. -/
def guarded {α : Type} : EStateM.Result Fault Machine α → EStateM.Result Failure Machine α
  | .ok value later => .ok value later
  | .error fault later => .error (.fault fault) later

/-- From states with `pre` two actions do the same, and where they end well it is in a state with
`post`. -/
def Agrees {α : Type} (pre post : Machine → Prop) (raw : Raw α) (x : Exec α) : Prop :=
  ∀ m, pre m → raw m = guarded (x m) ∧ Ends (fun _ => True) post (x m)

/-- The limits are those that are given, and operands can be read. -/
structure Ready (limits : Limits) (m : Machine) : Prop where
  stackLimit : m.stackLimit = limits.stack.toNat
  frameLimit : m.frameLimit = limits.frames.toNat
  ip : 0 ≤ m.ip
  loaded : m.chunk.isSome

/-- Any state will do. -/
def Any (_ : Machine) : Prop := True

section Rules

variable {α β : Type} {pre mid post : Machine → Prop} {raw : Raw α} {x : Exec α}
  {rawNext : α → Raw β} {next : α → Exec β}

theorem bind_of_ok {m later : Machine} {value : α} (h : raw m = .ok value later) :
    (raw >>= rawNext) m = rawNext value later := by
  rw [show (raw >>= rawNext) m = EStateM.bind raw rawNext m from rfl, EStateM.bind, h]

theorem bind_of_error {m later : Machine} {failure : Failure} (h : raw m = .error failure later) :
    (raw >>= rawNext) m = .error failure later := by
  rw [show (raw >>= rawNext) m = EStateM.bind raw rawNext m from rfl, EStateM.bind, h]

theorem bind_get (f : Machine → Raw β) (m : Machine) : (get >>= f) m = f m m := rfl

theorem Agrees.bind (first : Agrees pre mid raw x)
    (onward : ∀ value, Agrees mid post (rawNext value) (next value)) :
    Agrees pre post (raw >>= rawNext) (x >>= next) := by
  intro m h
  obtain ⟨same, ends⟩ := first m h
  cases outcome : x m with
  | ok value later =>
      rw [outcome] at same ends
      rw [bind_of_ok same, Exec.bind_of_ok outcome]
      exact onward value later ends
  | error fault later =>
      rw [outcome] at same
      rw [bind_of_error same, Exec.bind_of_error outcome]
      exact ⟨rfl, trivial⟩

theorem Agrees.get {rawNext : Machine → Raw β} {next : Machine → Exec β}
    (onward : ∀ m, pre m → Agrees (fun same => same = m) post (rawNext m) (next m)) :
    Agrees pre post (get >>= rawNext) (get >>= next) := fun m h => onward m h m rfl

theorem Agrees.pure (h : ∀ m, pre m → post m) (value : α) :
    Agrees pre post (Pure.pure value : Raw α) (Pure.pure value) := fun m before => ⟨rfl, h m before⟩

theorem Agrees.raise (fault : Fault) : Agrees pre post (raise fault : Raw α) (throw fault) :=
  fun _ _ => ⟨rfl, trivial⟩

/-- Nothing comes behind a fault. -/
theorem Agrees.raised {rawNext : β → Raw α} {next : β → Exec α} (fault : Fault) :
    Agrees pre post (Unguarded.raise fault >>= rawNext) (throw fault >>= next) :=
  fun _ _ => ⟨rfl, trivial⟩

theorem Agrees.modify {change : Machine → Machine} (h : ∀ m, pre m → post (change m)) :
    Agrees pre post (modify change : Raw Unit) (modify change) := fun m before => ⟨rfl, h m before⟩

theorem Agrees.mono {pre' post' : Machine → Prop} (h : Agrees pre post raw x)
    (before : ∀ m, pre' m → pre m) (after : ∀ m, post m → post' m) : Agrees pre' post' raw x := by
  intro m start
  obtain ⟨same, ends⟩ := h m (before m start)
  refine ⟨same, ?_⟩
  cases outcome : x m with
  | ok value later =>
      rw [outcome] at ends
      exact after later ends
  | error fault later => trivial

/-- It does not matter where the last action of an instruction leads. -/
theorem Agrees.done (h : Agrees pre post raw x) : Agrees pre Any raw x :=
  h.mono (fun _ start => start) fun _ _ => trivial

end Rules

section Accesses

variable {α : Type} {entries : Array α}

theorem item_eq {index : Int} (low : 0 ≤ index) {entry : α}
    (found : entries[index.toNat]? = some entry) : item entries index = pure entry := by
  rw [item, if_neg (Int.not_lt.mpr low), found]

/-- A list that is not empty has a last entry. -/
theorem last_cases (entries : Array α) : (entries.size = 0 ∧ entries.back? = none) ∨
    ∃ entry, entries.size ≠ 0 ∧ entries.back? = some entry ∧ last entries = pure entry := by
  cases found : entries.back? with
  | none => exact .inl ⟨by simpa using found, rfl⟩
  | some entry =>
      refine .inr ⟨entry, ?_, rfl, by rw [last, found]⟩
      intro empty
      rw [Array.back?_eq_none_iff.mpr (Array.size_eq_zero_iff.mp empty)] at found
      cases found

/-- There is a byte at the instruction pointer, unless the code ends there. -/
theorem byte_cases {m : Machine} (low : 0 ≤ m.ip) :
    ((m.code.size : Int) ≤ m.ip ∧ m.code.bytes[m.ip.toNat]? = none) ∨
      ∃ byte, ¬ (m.code.size : Int) ≤ m.ip ∧ m.code.bytes[m.ip.toNat]? = some byte ∧
        item m.code.bytes m.ip = pure byte := by
  cases found : m.code.bytes[m.ip.toNat]? with
  | none =>
      have := Array.getElem?_eq_none_iff.mp found
      refine .inl ⟨?_, rfl⟩
      rw [Code.size]
      omega
  | some byte =>
      obtain ⟨within, -⟩ := Array.getElem?_eq_some_iff.mp found
      refine .inr ⟨byte, ?_, rfl, item_eq low found⟩
      rw [Code.size]
      omega

end Accesses

section Stack

variable {limits : Limits}

theorem push_agrees (value : Value) :
    Agrees (Ready limits) (Ready limits) (push limits value) (Exec.push value) := by
  apply Agrees.get
  intro m h
  have same : limits.stack ≤ m.stack.size ↔ m.stackLimit ≤ m.stack.size := by
    rw [h.stackLimit]
    omega
  by_cases full : m.stackLimit ≤ m.stack.size
  · rw [if_pos full, if_pos (same.mpr full)]
    exact Agrees.raised _
  · rw [if_neg full, if_neg (mt same.mp full)]
    apply Agrees.modify
    intro _ same
    rw [same]
    exact { h with }

theorem pop_agrees : Agrees (Ready limits) (Ready limits) pop Exec.pop := by
  apply Agrees.get
  intro m h
  rcases last_cases m.stack with ⟨empty, none⟩ | ⟨value, some, found, access⟩
  · rw [if_pos empty, none]
    exact fun _ _ => ⟨rfl, trivial⟩
  · rw [if_neg some, access, pure_bind, found]
    apply Agrees.bind (Agrees.modify ?_) fun _ => Agrees.pure (fun _ h => h) value
    intro _ same
    rw [same]
    exact { h with }

theorem popMany_agrees (count : Nat) :
    Agrees (Ready limits) (Ready limits) (popMany count) (Exec.popMany count) := by
  induction count with
  | zero => exact Agrees.pure (fun _ h => h) []
  | succ count ih =>
      apply Agrees.bind pop_agrees
      intro first
      exact Agrees.bind ih fun rest => Agrees.pure (fun _ h => h) (first :: rest)

theorem pushMany_agrees (values : List Value) :
    Agrees (Ready limits) (Ready limits) (pushMany limits values) (Exec.pushMany values) := by
  induction values with
  | nil => exact Agrees.pure (fun _ h => h) ()
  | cons first rest ih => exact Agrees.bind (push_agrees first) fun _ => ih

theorem deliver_agrees (outcome : Except Fault Value) :
    Agrees (Ready limits) Any (deliver limits outcome) (Exec.deliver outcome) := by
  cases outcome with
  | error fault => exact Agrees.raise fault
  | ok value => exact (push_agrees value).done

end Stack

section Operands

variable {limits : Limits}

theorem readByte_agrees : Agrees (Ready limits) (Ready limits) readByte Exec.readByte := by
  have moved : Agrees (Ready limits) (Ready limits)
      (modify fun machine => { machine with ip := machine.ip + 1 })
      (modify fun machine => { machine with ip := machine.ip + 1 }) := by
    apply Agrees.modify
    intro m h
    have low : 0 ≤ m.ip + 1 := Int.add_nonneg h.ip (by decide)
    exact { h with ip := low }
  apply Agrees.bind moved
  intro _
  apply Agrees.get
  intro m h
  rw [if_neg (Int.not_lt.mpr h.ip)]
  rcases byte_cases h.ip with ⟨outside, none⟩ | ⟨byte, inside, found, access⟩
  · rw [if_pos outside, none]
    exact fun _ _ => ⟨rfl, trivial⟩
  · rw [if_neg inside, access, found]
    apply Agrees.pure
    intro _ same
    rw [same]
    exact h

theorem readDistance_agrees :
    Agrees (Ready limits) (Ready limits) readDistance Exec.readDistance := by
  apply Agrees.bind readByte_agrees
  intro high
  exact Agrees.bind readByte_agrees fun low => Agrees.pure (fun _ h => h) _

/-- An identifier that stands for nothing is found out before it is used. -/
theorem lookup_eq {α : Type} (pool : Pool α) (id : UInt8) (fault : Fault) :
    lookup pool id fault = match pool.get? id.toNat with
      | none => raise fault
      | some entry => pure entry := by
  have direct : pool.get? id.toNat = pool.entries[id.toNat]? := by
    rw [Pool.get?, if_pos (Int.natCast_nonneg _), Int.toNat_natCast]
  rw [direct, lookup]
  cases found : pool.entries[id.toNat]? with
  | none =>
      rw [if_pos (show pool.size ≤ id.toNat from Array.getElem?_eq_none_iff.mp found)]
      rfl
  | some entry =>
      have within : ¬ pool.size ≤ id.toNat := by
        obtain ⟨inside, -⟩ := Array.getElem?_eq_some_iff.mp found
        exact Nat.not_le.mpr inside
      rw [if_neg within]
      exact item_eq (Int.natCast_nonneg _) found

theorem loaded_eq {m : Machine} {chunk : Chunk} (found : m.chunk = some chunk) :
    loaded m = .ok chunk m := by
  rw [loaded, bind_get, found]
  rfl

theorem readConstant_agrees :
    Agrees (Ready limits) (Ready limits) readConstant Exec.readConstant := by
  apply Agrees.bind readByte_agrees
  intro id m h
  obtain ⟨chunk, found⟩ := Option.isSome_iff_exists.mp h.loaded
  rw [bind_of_ok (loaded_eq found), lookup_eq, Exec.bind_get, found, Option.bind_some]
  cases chunk.constants.get? id.toNat with
  | none => exact ⟨rfl, trivial⟩
  | some value => exact ⟨rfl, h⟩

theorem readString_agrees : Agrees (Ready limits) (Ready limits) readString Exec.readString := by
  apply Agrees.bind readByte_agrees
  intro id m h
  obtain ⟨chunk, found⟩ := Option.isSome_iff_exists.mp h.loaded
  rw [bind_of_ok (loaded_eq found), lookup_eq, Exec.bind_get, found, Option.bind_some]
  cases chunk.strings.get? id.toNat with
  | none => exact ⟨rfl, trivial⟩
  | some name => exact ⟨rfl, h⟩

end Operands

section Instructions

variable {limits : Limits}

theorem combine_agrees (operator : String) (operation : Float → Float → Value) :
    Agrees (Ready limits) Any (combine limits (Value.arithmetic operator operation))
      (Exec.combine operator operation) := by
  apply Agrees.bind pop_agrees
  intro second
  apply Agrees.bind pop_agrees
  intro first
  cases first <;> cases second <;> exact deliver_agrees _

theorem equal_agrees : Agrees (Ready limits) Any (combine limits Value.equality) Exec.equal := by
  apply Agrees.bind pop_agrees
  intro second
  apply Agrees.bind pop_agrees
  intro first
  cases first <;> cases second <;> exact deliver_agrees _

theorem not_agrees : Agrees (Ready limits) Any (convert limits Value.inverted) Exec.not := by
  apply Agrees.bind pop_agrees
  intro value
  cases value <;> exact deliver_agrees _

theorem negate_agrees : Agrees (Ready limits) Any (convert limits Value.negated) Exec.negate := by
  apply Agrees.bind pop_agrees
  intro value
  cases value <;> exact deliver_agrees _

theorem getGlobal_agrees : Agrees (Ready limits) Any (do
    let name ← readString
    deliver limits ((← get).globals.fetch name)) Exec.getGlobal := by
  apply Agrees.bind readString_agrees
  intro name
  apply Agrees.get
  intro m h
  rw [Globals.fetch]
  cases m.globals.find? name with
  | none => exact Agrees.raise _
  | some value => exact (push_agrees value).mono (fun _ same => same ▸ h) fun _ _ => trivial

/-- A position is given only for a slot that is on the stack. -/
theorem position_cases (m : Machine) (slot : Nat) :
    (∃ fault, position slot m = .error (.fault fault) m ∧ Exec.position slot m = .error fault m) ∨
      ∃ place, place < m.stack.size ∧ position slot m = .ok place m ∧
        Exec.position slot m = .ok place m := by
  have raw : position slot m = (do
      if m.frames.size = 0 then raise (.invalidSlot slot)
      let frame ← last m.frames
      if m.stack.size ≤ frame + slot then raise (.invalidSlot slot)
      return frame + slot : Raw Nat) m := rfl
  rw [raw, Exec.position, Exec.bind_get]
  rcases last_cases m.frames with ⟨empty, none⟩ | ⟨frame, some, found, access⟩
  · rw [if_pos empty, none]
    exact .inl ⟨_, rfl, rfl⟩
  · rw [if_neg some, access, pure_bind, found]
    by_cases within : frame + slot < m.stack.size
    · rw [if_neg (Nat.not_le.mpr within)]
      simp only [within, if_true]
      exact .inr ⟨_, within, rfl, rfl⟩
    · rw [if_pos (Nat.not_lt.mp within)]
      simp only [within, if_false]
      exact .inl ⟨_, rfl, rfl⟩

theorem setLocal_agrees : Agrees (Ready limits) Any setLocal Exec.setLocal := by
  apply Agrees.bind readByte_agrees
  intro slot
  apply Agrees.bind pop_agrees
  intro value m _
  rcases position_cases m slot.toNat with ⟨fault, raw, same⟩ | ⟨place, within, raw, same⟩
  · rw [bind_of_error raw, Exec.bind_of_error same]
    exact ⟨rfl, trivial⟩
  · rw [bind_of_ok raw, Exec.bind_of_ok same]
    have inside : ¬ ((place : Int) < 0 ∨ (m.stack.size : Int) ≤ place) := by omega
    have stored : store place value m =
        .ok () { m with stack := m.stack.setIfInBounds place value } := by
      show (if (place : Int) < 0 ∨ (m.stack.size : Int) ≤ place then _ else _ : Raw Unit) m = _
      rw [if_neg inside]
      rfl
    exact ⟨stored, trivial⟩

theorem getLocal_agrees : Agrees (Ready limits) Any (getLocal limits) Exec.getLocal := by
  apply Agrees.bind readByte_agrees
  intro slot m h
  rcases position_cases m slot.toNat with ⟨fault, raw, same⟩ | ⟨place, within, raw, same⟩
  · rw [bind_of_error raw, Exec.bind_of_error same]
    exact ⟨rfl, trivial⟩
  · rw [bind_of_ok raw, Exec.bind_of_ok same, Exec.bind_get]
    have found : m.stack[place]? = some m.stack[place] := Array.getElem?_eq_getElem within
    rw [found]
    have fetched : (get >>= fun machine => item machine.stack place >>= push limits : Raw Unit) m =
        push limits m.stack[place] m := by
      show (item m.stack place >>= push limits) m = _
      rw [item_eq (Int.natCast_nonneg _) found, pure_bind]
    rw [fetched]
    exact (push_agrees m.stack[place]).done m h

theorem jumpBy_agrees {pre : Machine → Prop} (distance : Int) :
    Agrees pre Any (jumpBy distance) (Exec.jumpBy distance) := Agrees.modify fun _ _ => trivial

theorem define_agrees {pre : Machine → Prop} (name : String) (value : Value) :
    Agrees pre Any (define name value) (Exec.define name value) := Agrees.modify fun _ _ => trivial

theorem jumpIfFalse_agrees : Agrees (Ready limits) Any jumpIfFalse Exec.jumpIfFalse := by
  apply Agrees.bind readDistance_agrees
  intro distance
  apply Agrees.bind pop_agrees
  intro value
  rcases value with _ | truth | _ | _ | _ | _
  case bool =>
    cases truth with
    | true => exact Agrees.pure (fun _ _ => trivial) ()
    | false => exact jumpBy_agrees distance
  all_goals exact Agrees.raise _

theorem defineFunction_agrees : Agrees (Ready limits) Any defineFunction Exec.defineFunction := by
  apply Agrees.bind readString_agrees
  intro name
  apply Agrees.bind readByte_agrees
  intro arity
  exact Agrees.bind readByte_agrees fun first => define_agrees name _

/-- A call, once nothing speaks against it. -/
theorem enter_agrees (count : Nat) (back first : Int) : Agrees (Ready limits) Any (do
    let arguments ← popMany count
    push limits (.pointer back)
    modify fun machine => { machine with frames := machine.frames.push machine.stack.size }
    pushMany limits arguments.reverse
    modify fun machine => { machine with ip := first - 1 }) (Exec.enter count back first) := by
  apply Agrees.bind (popMany_agrees count)
  intro arguments
  apply Agrees.bind (push_agrees _)
  intro _
  apply Agrees.bind (Agrees.modify fun m h => ({ h with } : Ready limits _))
  intro _
  apply Agrees.bind (pushMany_agrees _)
  exact fun _ => Agrees.modify fun _ _ => trivial

theorem invoke_agrees : Agrees (Ready limits) Any (invoke limits) Exec.invoke := by
  apply Agrees.bind readString_agrees
  intro name
  apply Agrees.bind readByte_agrees
  intro given
  apply Agrees.get
  intro m h
  cases m.globals.find? name with
  | none => exact Agrees.raise _
  | some value =>
      rcases value with _ | _ | _ | function | _ | _
      case function =>
        by_cases wrong : (given.toNat : Int) ≠ function.arity
        · simp only [if_pos wrong]
          exact Agrees.raised _
        · simp only [if_neg wrong]
          apply Agrees.get
          intro _ same
          rw [same]
          have limit : limits.frames ≤ m.frames.size ↔ m.frameLimit ≤ m.frames.size := by
            rw [h.frameLimit]
            omega
          by_cases full : m.frameLimit ≤ m.frames.size
          · rw [if_pos full, if_pos (limit.mpr full)]
            exact Agrees.raised _
          · rw [if_neg full, if_neg (mt limit.mp full)]
            exact (enter_agrees _ _ _).mono (fun _ same => same ▸ h) fun _ h => h
      all_goals exact Agrees.raise _

theorem ret_agrees : Agrees (Ready limits) Any (ret limits) Exec.ret := by
  apply Agrees.bind pop_agrees
  intro result
  apply Agrees.get
  intro m h
  rcases last_cases m.frames with ⟨empty, none⟩ | ⟨frame, some, found, access⟩
  · rw [if_pos empty, none]
    exact fun _ _ => ⟨rfl, trivial⟩
  · rw [if_neg some, access, pure_bind, found]
    apply Agrees.bind (Agrees.modify fun _ same => ({ same ▸ h with } : Ready limits _))
    intro _
    apply Agrees.bind pop_agrees
    intro back
    cases back with
    | pointer target =>
        exact Agrees.bind (push_agrees result) fun _ => Agrees.modify fun _ _ => trivial
    | _ => exact Agrees.raise _

theorem instruction_agrees (op : Opcode) :
    Agrees (Ready limits) Any (instruction limits op) (Exec.instruction op) := by
  cases op with
  | print => exact Agrees.bind pop_agrees fun value => Agrees.modify fun _ _ => trivial
  | add | sub | mul | div | mod | gt | lt => exact combine_agrees _ _
  | eq => exact equal_agrees
  | not => exact not_agrees
  | negate => exact negate_agrees
  | const => exact Agrees.bind readConstant_agrees fun value => (push_agrees _).done
  | str => exact Agrees.bind readString_agrees fun value => (push_agrees _).done
  | true | false | null => exact (push_agrees _).done
  | pop => exact Agrees.bind pop_agrees fun _ => Agrees.pure (fun _ _ => trivial) ()
  | setGlobal =>
      exact Agrees.bind readString_agrees fun name =>
        Agrees.bind pop_agrees fun value => define_agrees name value
  | getGlobal => exact getGlobal_agrees
  | deepSet => exact setLocal_agrees
  | deepGet => exact getLocal_agrees
  | jmp => exact Agrees.bind readDistance_agrees jumpBy_agrees
  | jz => exact jumpIfFalse_agrees
  | func => exact defineFunction_agrees
  | invoke => exact invoke_agrees
  | ret => exact ret_agrees
  | exit => exact Agrees.modify fun _ _ => trivial

/-- Behind an instruction nothing is accessed any more. -/
theorem execute_agrees (byte : UInt8) :
    Agrees (Ready limits) Any (execute limits byte) (Exec.execute byte) := by
  have onward : Agrees Any Any (do
      if !(← get).halted then
        jumpBy 1
        let machine ← get
        if machine.ip < 0 || machine.code.size < machine.ip then
          raise (.outOfRange machine.ip) : Raw Unit) (do
      if !(← get).halted then
        Exec.jumpBy 1
        let machine ← get
        if machine.ip < 0 || machine.code.size < machine.ip then
          throw (.outOfRange machine.ip) : Exec Unit) := by
    apply Agrees.get
    intro m _
    cases m.halted with
    | true => exact Agrees.pure (fun _ _ => trivial) ()
    | false =>
        apply Agrees.bind (jumpBy_agrees 1)
        intro _
        apply Agrees.get
        intro m _
        by_cases outside : (m.ip < 0 || m.code.size < m.ip) = true
        · rw [if_pos outside, if_pos outside]
          exact Agrees.raise _
        · rw [if_neg outside, if_neg outside]
          exact Agrees.pure (fun _ _ => trivial) ()
  unfold execute Exec.execute
  cases Opcode.ofByte? byte with
  | none => exact fun _ _ => ⟨rfl, trivial⟩
  | some op => exact Agrees.bind (instruction_agrees op) fun _ => onward

end Instructions

variable {limits : Limits} {m : Machine}

/-- A step of a machine that is ready for it breaks nothing down. -/
theorem step_eq (ready : m.halted = false → Ready limits m) :
    step limits m = (m.step.1, m.step.2.mapError Failure.fault) := by
  cases halted : m.halted with
  | true =>
      rw [step, Machine.step, if_pos halted, if_pos halted]
      rfl
  | false =>
      have h := ready halted
      have running : ¬ m.halted = true := by simp [halted]
      rw [step, Machine.step, if_neg running, if_neg running, Machine.current?,
        if_neg (Int.not_lt.mpr h.ip)]
      rcases byte_cases h.ip with ⟨outside, none⟩ | ⟨byte, inside, found, access⟩
      · rw [if_pos outside, none]
        rfl
      · have began : Ready limits { m with offset := m.ip } := { h with }
        rw [if_neg inside, access, found]
        dsimp only
        rw [pure_bind, (execute_agrees byte _ began).1]
        cases Exec.execute byte { m with offset := m.ip } with
        | ok value later => rfl
        | error fault later => rfl

/-- The return address of a frame that is on the stack lies below it. -/
theorem callPlaces_eq (m : Machine) (chunk : Chunk) (frames : List Nat) :
    callPlaces chunk m.stack frames =
      pure ((frames.filterMap m.callOffset?).filterMap chunk.locate) := by
  induction frames with
  | nil => rfl
  | cons frame rest ih =>
      rw [callPlaces, List.filterMap_cons]
      by_cases within : 1 ≤ frame ∧ frame ≤ m.stack.size
      · obtain ⟨below, rfl⟩ := Nat.exists_eq_succ_of_ne_zero (Nat.pos_iff_ne_zero.mp within.1)
        have inside : below < m.stack.size := within.2
        have low : 0 ≤ ((below.succ : Nat) - 1 : Int) := by omega
        have place : ((below.succ : Nat) - 1 : Int).toNat = below := by omega
        have found : m.stack[((below.succ : Nat) - 1 : Int).toNat]? = some m.stack[below] := by
          rw [place]
          exact Array.getElem?_eq_getElem inside
        rw [if_pos within, item_eq low found, pure_bind, ih, Machine.callOffset?,
          Array.getElem?_eq_getElem inside]
        cases m.stack[below] with
        | pointer target =>
            dsimp only
            rw [pure_bind, List.filterMap_cons]
            cases chunk.locate (target - (Opcode.invoke.size - 1 : Nat)) with
            | none => rfl
            | some place => rfl
        | _ => rfl
      · have outside : m.callOffset? frame = none := by
          cases frame with
          | zero => rfl
          | succ below =>
              have beyond : m.stack.size ≤ below := by omega
              rw [Machine.callOffset?, Array.getElem?_eq_none_iff.mpr beyond]
        rw [if_neg within, ih, outside]

/-- A trace never breaks anything down, whatever the state. -/
theorem trace_eq (m : Machine) : trace m = .ok m.trace m := by
  rw [Machine.trace, trace, bind_get]
  cases m.chunk with
  | none => rfl
  | some chunk =>
      dsimp only
      rw [callPlaces_eq, pure_bind, List.filterMap_cons]
      cases chunk.locate m.offset with
      | none => rfl
      | some place => rfl

end Unguarded

end StackScript
