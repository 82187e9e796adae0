/-
# How instructions go on

An instruction that stays within its call leaves the frames alone, and only a jump moves the
instruction pointer any further than over the operands. A call and a return that succeed are
described by what they found on the stack. None of this asks where the code came from: it holds
in any state of the machine.
-/

import StackScript.Proofs.Machine.Keeping

namespace StackScript

namespace Machine

/-- Two states of the same call: they differ in values, and in where the machine is. -/
structure InCall (m later : Machine) : Prop where
  frames : later.frames = m.frames
  halted : later.halted = m.halted

/-- Two states that differ in values only. -/
structure Level (m later : Machine) : Prop extends InCall m later where
  ip : later.ip = m.ip

theorem InCall.refl (m : Machine) : InCall m m := ⟨rfl, rfl⟩

theorem Level.refl (m : Machine) : Level m m := ⟨.refl m, rfl⟩

/-- A step that does not fail has performed its instruction, and has moved on by a byte unless the
instruction was to stop. -/
theorem finish_eq_ok {result : EStateM.Result Fault Machine Unit} {after : Machine} {goesOn : Bool}
    (h : finish result = (after, .ok goesOn)) :
    ∃ later, result = .ok () later ∧ goesOn = !later.halted ∧
      after = if later.halted then later else { later with ip := later.ip + 1 } := by
  cases result with
  | error fault later => cases (Prod.mk.inj h).2
  | ok value later =>
      refine ⟨later, rfl, ?_⟩
      rw [finish] at h
      split at h
      · rename_i halted
        obtain ⟨rfl, same⟩ := Prod.mk.inj h
        exact ⟨by simp [halted, ← Except.ok.inj same], by rw [if_pos halted]⟩
      · rename_i running
        split at h
        · cases (Prod.mk.inj h).2
        · obtain ⟨rfl, same⟩ := Prod.mk.inj h
          exact ⟨by simp [running, ← Except.ok.inj same], by rw [if_neg running]⟩

end Machine

namespace Exec

open Machine (InCall Level)

/-- Values are all that these actions work on. -/
theorem composed_keeps (always : Machine → Prop)
    (values : ∀ m stack globals output, always m → always { m with stack, globals, output }) :
    Composed fun x => Keeps always x where
  pure := Keeps.pure
  throw := Keeps.throw
  bind := Keeps.bind
  get _ _ onward := fun m h => onward m m h
  push value := by
    intro m h
    by_cases full : m.stackLimit ≤ m.stack.size
    · simpa [push, full] using h
    · simp only [push, bind_get, full, if_false, modify_eq]
      exact values m _ m.globals m.output h
  pop := by
    intro m h
    simp only [pop, bind_get]
    cases m.stack.back? with
    | none => exact h
    | some value => exact values m _ m.globals m.output h
  define name value := Keeps.modify fun m h => values m m.stack _ m.output h
  record line := Keeps.modify fun m h => values m m.stack m.globals _ h
  store place value := Keeps.modify fun m h => values m _ m.globals m.output h

variable {m later : Machine} {instr : Instr}

/-- An instruction that stays within the call leaves the frames alone, also where it fails. -/
theorem perform_inCall (stays : instr.op.switches = false) :
    Ends (InCall m) (InCall m) (perform instr m) :=
  (composed_keeps (InCall m) fun _ _ _ _ h => { h with }).perform stays
    (fun _ _ => Keeps.modify fun _ h => { h with }) m (.refl m)

/-- An instruction that is no jump either leaves the instruction pointer alone. -/
theorem perform_level (stays : instr.op.switches = false) (straight : instr.op.isJump = false) :
    Ends (Level m) (Level m) (perform instr m) :=
  (composed_keeps (Level m) fun _ _ _ _ h => { h with }).perform stays
    (fun jump => absurd (jump.symm.trans straight) nofun) m (.refl m)

section Inversion

variable {α β : Type} {value : Value} {values : List Value} {count : Nat}

/-- A row of actions that succeeds has succeeded in its parts. -/
theorem exists_of_bind {x : Exec α} {f : α → Exec β} {result : β}
    (h : (x >>= f) m = .ok result later) :
    ∃ first middle, x m = .ok first middle ∧ f first middle = .ok result later := by
  cases outcome : x m with
  | ok first middle => exact ⟨first, middle, rfl, (bind_of_ok outcome).symm.trans h⟩
  | error fault middle => cases (bind_of_error outcome).symm.trans h

theorem eq_of_push (h : push value m = .ok () later) :
    later = { m with stack := m.stack.push value } := by
  by_cases full : m.stackLimit ≤ m.stack.size
  · simp [push, full] at h
  · simpa [push, full, eq_comm] using h

theorem eq_of_pop (h : pop m = .ok value later) :
    m.stack.back? = some value ∧ later = { m with stack := m.stack.pop } := by
  simp only [pop, bind_get] at h
  cases top : m.stack.back? with
  | none => simp [top] at h
  | some other => simpa [top, eq_comm] using h

theorem eq_of_popMany (h : popMany count m = .ok values later) :
    ∃ kept, m.stack.toList = kept ++ values.reverse ∧ values.length = count ∧
      later = { m with stack := kept.toArray } := by
  induction count generalizing m values with
  | zero =>
      simp only [popMany, pure_eq, EStateM.Result.ok.injEq] at h
      obtain ⟨rfl, rfl⟩ := h
      exact ⟨m.stack.toList, by simp, rfl, rfl⟩
  | succ count ih =>
      obtain ⟨first, middle, popped, onward⟩ := exists_of_bind h
      obtain ⟨rest, last, taken, same⟩ := exists_of_bind onward
      simp only [pure_eq, EStateM.Result.ok.injEq] at same
      obtain ⟨rfl, rfl⟩ := same
      obtain ⟨top, rfl⟩ := eq_of_pop popped
      obtain ⟨kept, stack, rfl, rfl⟩ := ih taken
      refine ⟨kept, ?_, rfl, rfl⟩
      have whole : m.stack.toList = m.stack.pop.toList ++ [first] := by
        rw [← Array.getLast?_toList] at top
        rw [Array.toList_pop, List.dropLast_append_getLast? first top]
      rw [whole, stack, List.reverse_cons, List.append_assoc]

end Inversion

/-- A conditional jump takes the topmost value, which is a truth value, and jumps if it is false. -/
theorem perform_jz_ok {distance : Int} (h : perform (.jz distance) m = .ok () later) :
    ∃ truth, m.stack.back? = some (.bool truth) ∧
      later.ip = if truth then m.ip else m.ip + distance := by
  obtain ⟨value, middle, popped, onward⟩ := exists_of_bind h
  obtain ⟨top, rfl⟩ := eq_of_pop popped
  cases value with
  | bool truth =>
      refine ⟨truth, top, ?_⟩
      cases truth <;> cases onward <;> rfl
  | _ => cases onward

/-- A function that is entered finds its arguments above the return address, and its frame there. -/
theorem eq_of_enter {count : Nat} {back start : Int} (h : enter count back start m = .ok () later) :
    ∃ kept taken, m.stack.toList = kept ++ taken ∧ taken.length = count ∧
      later = { m.holding (kept ++ .pointer back :: taken) (m.frames.toList ++ [kept.length + 1]) with
        ip := start - 1 } := by
  obtain ⟨values, popped, taking, -⟩ := exists_of_bind h
  obtain ⟨kept, stack, length, -⟩ := eq_of_popMany taking
  have size : values.reverse.length = count := by rw [List.length_reverse, length]
  have held : m = m.holding (kept ++ values.reverse) m.frames.toList := by
    rw [← stack]
    rfl
  refine ⟨kept, values.reverse, stack, size, ?_⟩
  rw [held, ← size] at h
  by_cases room : kept.length + values.reverse.length < m.stackLimit
  · rw [enter_holding room] at h
    cases h
    rfl
  · obtain ⟨above, more, full⟩ := enter_full m.frames.toList back start (Nat.not_lt.mp room)
    cases full.symm.trans h

/-- A call that succeeds has found a function for its arguments. -/
theorem perform_invoke_ok {name : String} {count : Nat}
    (h : perform (.invoke name count) m = .ok () later) :
    ∃ callee, m.globals.find? name = some (.function callee) ∧ callee.arity = count ∧
      enter count m.ip callee.start m = .ok () later := by
  cases found : m.globals.find? name with
  | none => cases (perform_invoke_missing found).symm.trans h
  | some value =>
      by_cases callable : value.kind = .function
      · obtain ⟨callee, rfl⟩ : ∃ callee, value = .function callee := by
          cases value <;> first | exact ⟨_, rfl⟩ | cases callable
        by_cases right : (count : Int) = callee.arity
        · by_cases full : m.frameLimit ≤ m.frames.size
          · cases (perform_invoke_frames found right full).symm.trans h
          · rw [perform_invoke found right (Nat.not_le.mp full)] at h
            exact ⟨callee, rfl, right.symm, h⟩
        · cases (perform_invoke_arity found right).symm.trans h
      · cases (perform_invoke_other found callable).symm.trans h

/-- A return that succeeds has found the return address on top of what lies below the innermost
frame, and leaves the topmost value in its place. -/
theorem perform_ret_ok {bare : Opcode.ret.operands = []}
    (h : perform (.plain .ret bare) m = .ok () later) :
    ∃ value frame target, m.stack.back? = some value ∧ m.frames.back? = some frame ∧
      (m.stack.pop.extract 0 frame).back? = some (.pointer target) ∧
      later = { m with
        stack := (m.stack.pop.extract 0 frame).pop.push value
        frames := m.frames.pop
        ip := target } := by
  obtain ⟨value, middle, popped, h⟩ := exists_of_bind h
  obtain ⟨top, rfl⟩ := eq_of_pop popped
  rw [bind_get] at h
  cases innermost : m.frames.back? with
  | none => simp [innermost] at h
  | some frame =>
      simp only [innermost, bind_modify] at h
      obtain ⟨back, middle, popped, h⟩ := exists_of_bind h
      obtain ⟨address, rfl⟩ := eq_of_pop popped
      cases back with
      | pointer target =>
          obtain ⟨⟨⟩, middle, pushed, h⟩ := exists_of_bind h
          obtain rfl := eq_of_push pushed
          cases h
          exact ⟨value, frame, target, top, rfl, address, rfl⟩
      | _ => cases h

end Exec

end StackScript
