/-
# Sound states

A state of the machine is sound if it has come to a line of the program, with a
stack that fits the mark of that line. A step from a sound state leads to a sound
state again, unless the program ends: at its last line, with a fault that the
program itself is to blame for, or with the return from the call that is looked
at.
-/

import StackScript.Proofs.Lowering.History
import StackScript.Proofs.Machine.Stacked

namespace StackScript

open Line (extent placed Reaches Closed)

/-- Faults that only code can have that no program lowers to. -/
def Fault.isMalformed : Fault → Bool
  | stackUnderflow | invalidSlot _ | noFrame | noReturnAddress | invalidConstant _
  | invalidString _ | outOfRange _ | unknownOpcode _ _ => true
  | _ => false

namespace Machine

variable {chunk : Chunk} {lines : List Line} {floor : Floor} {m : Machine}

/-- A machine that runs a program and has come to one of its lines. -/
structure Sound (chunk : Chunk) (lines : List Line) (floor : Floor) (offset : Nat) (line : Line)
    (m : Machine) : Prop where
  running : m.halted = false
  loaded : m.chunk = some chunk
  code : m.code = chunk.code
  ip : m.ip = offset
  listed : (offset, line) ∈ placed 0 lines
  stacked : Stacked lines floor line.mark m.stack.toList m.frames.toList
  globals : ∀ name value, m.globals.find? name = some value → value.Known lines floor.strays
  fits : m.stack.size ≤ m.stackLimit

/-- What a step from a sound state may lead to, other than a return to below the
floor. -/
def Proceeds (chunk : Chunk) (lines : List Line) (floor : Floor) (line : Line) :
    Machine × Except Fault Bool → Prop
  | (after, .ok true) => ∃ offset line, Sound chunk lines floor offset line after
  | (after, .ok false) => line.instr.op = .exit ∧ floor.home = none ∧ after.halted ∧
      after.stack.toList = floor.stack ∧ after.frames.toList = floor.frames
  | (after, .error fault) => fault.isMalformed = false ∧ after.halted ∧
      floor.stack <+: after.stack.toList ∧ floor.frames <+: after.frames.toList

/-- Two states of a running program agree in what a step never changes. -/
structure SameProgram (m after : Machine) : Prop where
  halted : after.halted = m.halted
  chunk : after.chunk = m.chunk
  code : after.code = m.code
  stackLimit : after.stackLimit = m.stackLimit

variable {offset : Nat} {line : Line} {instr : Instr}

/-- A fault ends the run. -/
theorem Proceeds.of_error {after : Machine} {fault : Fault} (benign : fault.isMalformed = false)
    (onStack : floor.stack <+: after.stack.toList) (onFrames : floor.frames <+: after.frames.toList) :
    Proceeds chunk lines floor line (finish (.error fault after)) :=
  ⟨benign, rfl, onStack, onFrames⟩

namespace Sound

/-- Where the program is, the machine finds the instruction of a line. -/
theorem faces (h : Sound chunk lines floor offset line m) (assembled : chunk.Assembled lines) :
    ∃ instr, line.instr.Means instr ∧ m.Faces chunk offset instr := by
  obtain ⟨instr, means, reads⟩ := (assembled.shown _ h.listed).reads
  exact ⟨instr, means, h.running, h.loaded, h.code, h.ip, reads⟩

/-- The program goes on at a line. -/
theorem finish_reached (h : Sound chunk lines floor offset line m)
    (assembled : chunk.Assembled lines) (after : Machine) {target : Nat} {mark : Mark}
    (same : SameProgram m after) (ip : after.ip + 1 = target) (reached : Reaches lines target mark) :
    finish (.ok () after) = ({ after with ip := target }, .ok true) := by
  obtain ⟨next, listed, -⟩ := reached
  have length : after.code.size = extent lines := by
    rw [same.code, h.code]
    exact assembled.size_eq
  have inside := (Line.bounds_of_mem_placed listed).2
  rw [finish_ok (same.halted.trans h.running) (by omega) (by omega), ip]

/-- The program goes on soundly where the mark fits the stack. -/
theorem goes_on (h : Sound chunk lines floor offset line m) (assembled : chunk.Assembled lines)
    (after : Machine) {target : Nat} {mark : Mark} (same : SameProgram m after)
    (ip : after.ip + 1 = target) (reached : Reaches lines target mark)
    (stacked : Stacked lines floor mark after.stack.toList after.frames.toList)
    (globals : ∀ name value, after.globals.find? name = some value →
      value.Known lines floor.strays)
    (fits : after.stack.size ≤ after.stackLimit) :
    Proceeds chunk lines floor line (finish (.ok () after)) := by
  rw [h.finish_reached assembled after same ip reached]
  obtain ⟨next, listed, rfl⟩ := reached
  exact ⟨target, next, same.halted.trans h.running, same.chunk.trans h.loaded,
    same.code.trans h.code, rfl, listed, stacked, globals, fits⟩

section Straight

variable {kept taken : List Value} {count target : Nat} {y : Machine}

/-- What is known after values have been taken off the stack of a sound state. -/
structure Taken (lines : List Line) (floor : Floor) (line : Line) (m : Machine) (count : Nat)
    (kept taken : List Value) : Prop where
  stack : m.stack.toList = kept ++ taken
  length : taken.length = count
  known : ∀ value ∈ taken, value.Known lines floor.strays
  onStack : floor.stack <+: kept
  onFrames : floor.frames <+: m.frames.toList
  exchange : ∀ others : List Value, (∀ value ∈ others, value.Known lines floor.strays) →
    Stacked lines floor ⟨line.mark.home, line.mark.height - count + others.length⟩
      (kept ++ others) m.frames.toList

theorem take (h : Sound chunk lines floor offset line m) (anchored : floor.Anchored)
    (enough : count ≤ line.mark.height) :
    ∃ kept taken, Taken lines floor line m count kept taken := by
  obtain ⟨kept, taken, stack, length, known, onStack, onFrames, exchange⟩ :=
    h.stacked.take anchored enough
  exact ⟨kept, taken, stack, length, known, onStack, onFrames, exchange⟩

/-- An instruction that leaves nothing. -/
theorem drops (h : Sound chunk lines floor offset line m) (assembled : chunk.Assembled lines)
    (split : Taken lines floor line m count kept taken) (same : SameProgram m y)
    (ip : y.ip + 1 = target) (reached : Reaches lines target ⟨line.mark.home, line.mark.height - count⟩)
    (globals : ∀ name value, y.globals.find? name = some value →
      value.Known lines floor.strays) :
    Proceeds chunk lines floor line (finish (.ok () (y.holding kept m.frames.toList))) := by
  refine h.goes_on assembled (y.holding kept m.frames.toList)
    ⟨same.1, same.2, same.3, same.4⟩ ip reached ?_ globals ?_
  · simpa using split.exchange [] (by simp)
  · have fits := h.fits
    rw [← Array.length_toList, split.stack, List.length_append] at fits
    rw [stack_holding, stackLimit_holding, same.stackLimit, List.size_toArray]
    omega

/-- An outcome that a program can come to. -/
def Fine (lines : List Line) (strays : Prop) : Except Fault Value → Prop
  | .ok value => value.Known lines strays
  | .error fault => fault.isMalformed = false

/-- An instruction that leaves one value, or fails. -/
theorem delivers (h : Sound chunk lines floor offset line m) (assembled : chunk.Assembled lines)
    (split : Taken lines floor line m count kept taken) (same : SameProgram m y)
    (ip : y.ip + 1 = target)
    (reached : Reaches lines target ⟨line.mark.home, line.mark.height - count + 1⟩)
    (globals : y.globals = m.globals) (result : Except Fault Value) (fine : Fine lines floor.strays result) :
    Proceeds chunk lines floor line
      (finish (Exec.deliver result (y.holding kept m.frames.toList))) := by
  have onFrames : floor.frames <+: (y.holding kept m.frames.toList).frames.toList := split.onFrames
  cases result with
  | error fault => exact .of_error fine split.onStack onFrames
  | ok value =>
      by_cases room : kept.length < y.stackLimit
      · rw [Exec.deliver, Exec.push_holding room]
        refine h.goes_on assembled (y.holding (kept ++ [value]) m.frames.toList)
          ⟨same.1, same.2, same.3, same.4⟩ ip reached ?_ (fun name value => ?_) ?_
        · refine split.exchange [value] fun other mem => ?_
          rw [List.mem_singleton.mp mem]
          exact fine
        · rw [globals_holding, globals]
          exact h.globals name value
        · simp
          omega
      · rw [Exec.deliver, Exec.push_full (Nat.not_lt.mp room)]
        exact .of_error rfl split.onStack onFrames

end Straight

theorem arithmetic_fine {strays : Prop} (operator : String) {operation : Float → Float → Value}
    (known : ∀ x y, (operation x y).Known lines strays) (first second : Value) :
    Fine lines strays (Value.arithmetic operator operation first second) := by
  cases first <;> cases second <;> first | exact known _ _ | rfl

theorem equality_fine {strays : Prop} (first second : Value) :
    Fine lines strays (Value.equality first second) := by
  cases first <;> cases second <;> trivial

theorem inverted_fine {strays : Prop} (value : Value) : Fine lines strays value.inverted := by
  cases value <;> trivial

theorem negated_fine {strays : Prop} (value : Value) : Fine lines strays value.negated := by
  cases value <;> trivial

theorem fetch_fine (h : Sound chunk lines floor offset line m) (name : String) :
    Fine lines floor.strays (m.globals.fetch name) := by
  unfold Globals.fetch
  cases found : m.globals.find? name with
  | none => rfl
  | some value => exact h.globals name value found

/-- A global variable gets a known value. -/
theorem define_known (h : Sound chunk lines floor offset line m) {name : String} {value : Value}
    (known : value.Known lines floor.strays) (other : String) (found : Value)
    (same : (m.define name value).globals.find? other = some found) :
    found.Known lines floor.strays := by
  rw [define, Globals.find?_insert] at same
  split at same
  · exact Option.some.inj same ▸ known
  · exact h.globals other found same

/-- A step at an instruction of one byte. -/
theorem step_plain (h : Sound chunk lines floor offset line m) (assembled : chunk.Assembled lines)
    (anchored : floor.Anchored) (checked : line.Checked (Reaches lines) offset) {op : Opcode}
    {bare : op.operands = []} (same : line.instr = .plain op bare) (other : op ≠ .ret)
    (faces : m.Faces chunk offset (.plain op bare)) :
    Proceeds chunk lines floor line m.step := by
  obtain ⟨enough, checked⟩ := checked
  obtain ⟨kept, taken, split⟩ := h.take anchored enough
  have still : SameProgram m (m.begun offset (.plain op bare)) := ⟨rfl, rfl, rfl, rfl⟩
  have ip := begun_ip (m := m) offset (.plain op bare)
  rw [same] at enough checked split
  rw [faces.step_eq, begun_eq split.stack]
  simp only [Line.markAfter, Line.size, same] at checked
  cases op with
  | ret => exact absurd rfl other
  | add | sub | mul | div | mod | gt | lt =>
      obtain ⟨first, second, rfl⟩ := List.length_eq_two.mp split.length
      rw [Exec.perform_binary rfl]
      refine h.delivers assembled split still ip checked rfl _
        (arithmetic_fine _ (fun x y => ?_) first second)
      trivial
  | eq =>
      obtain ⟨first, second, rfl⟩ := List.length_eq_two.mp split.length
      rw [Exec.perform_binary rfl]
      exact h.delivers assembled split still ip checked rfl _ (equality_fine first second)
  | not =>
      obtain ⟨value, rfl⟩ := List.length_eq_one_iff.mp split.length
      rw [Exec.perform_unary rfl]
      exact h.delivers assembled split still ip checked rfl _ (inverted_fine value)
  | negate =>
      obtain ⟨value, rfl⟩ := List.length_eq_one_iff.mp split.length
      rw [Exec.perform_unary rfl]
      exact h.delivers assembled split still ip checked rfl _ (negated_fine value)
  | true | false | null =>
      obtain rfl := List.eq_nil_of_length_eq_zero split.length
      rw [List.append_nil]
      exact h.delivers assembled split still ip checked rfl (.ok _) trivial
  | pop =>
      obtain ⟨value, rfl⟩ := List.length_eq_one_iff.mp split.length
      rw [Exec.perform_pop]
      exact h.drops assembled split still ip checked h.globals
  | print =>
      obtain ⟨value, rfl⟩ := List.length_eq_one_iff.mp split.length
      rw [Exec.perform_print]
      exact h.drops assembled split ⟨rfl, rfl, rfl, rfl⟩ ip checked h.globals
  | exit =>
      have outside := h.stacked.outside (by rw [checked]) (by rw [checked])
      obtain rfl := List.eq_nil_of_length_eq_zero split.length
      refine ⟨by rw [same]; rfl, outside.1, rfl, ?_, outside.2.2⟩
      exact split.stack.symm.trans outside.2.1
  | _ => cases bare

/-- A step at an instruction that puts a value on the stack and takes none. -/
theorem step_fetch (h : Sound chunk lines floor offset line m) (assembled : chunk.Assembled lines)
    (anchored : floor.Anchored) {instr : Instr} (faces : m.Faces chunk offset instr)
    (result : Except Fault Value) (fine : Fine lines floor.strays result)
    (performed : Exec.perform instr (m.begun offset instr) =
      Exec.deliver result (m.begun offset instr))
    (reached : Reaches lines (offset + instr.op.size) ⟨line.mark.home, line.mark.height + 1⟩) :
    Proceeds chunk lines floor line m.step := by
  obtain ⟨kept, taken, split⟩ := h.take anchored (Nat.zero_le _)
  obtain rfl := List.eq_nil_of_length_eq_zero split.length
  have stack : m.stack.toList = kept := by rw [split.stack, List.append_nil]
  rw [faces.step_eq, performed, begun_eq stack]
  exact h.delivers assembled split (y := m.begun offset instr) ⟨rfl, rfl, rfl, rfl⟩
    (begun_ip offset instr) reached rfl result fine

/-- A step at an instruction that fetches a local variable. -/
theorem step_deepGet (h : Sound chunk lines floor offset line m)
    (assembled : chunk.Assembled lines) (anchored : floor.Anchored)
    (checked : line.Checked (Reaches lines) offset) {slot : Nat}
    (same : line.instr = .deepGet slot) (faces : m.Faces chunk offset (.deepGet slot)) :
    Proceeds chunk lines floor line m.step := by
  obtain ⟨-, checked⟩ := checked
  simp only [Line.markAfter, Line.size, same] at checked
  obtain ⟨inside, small, reached⟩ := checked
  obtain ⟨below, values, stack, length, known, frame, -⟩ := h.stacked.innermost anchored
  obtain ⟨earlier, frames⟩ := frame inside
  have within : slot < values.length := length.symm ▸ small
  refine h.step_fetch assembled anchored faces (.ok values[slot])
    (known _ (List.getElem_mem within)) ?_ reached
  rw [begun_eq stack, frames]
  exact Exec.perform_deepGet within

/-- A step at a definition of a global variable. -/
theorem step_setGlobal (h : Sound chunk lines floor offset line m)
    (assembled : chunk.Assembled lines) (anchored : floor.Anchored)
    (checked : line.Checked (Reaches lines) offset) {name : String}
    (same : line.instr = .setGlobal name) (faces : m.Faces chunk offset (.setGlobal name)) :
    Proceeds chunk lines floor line m.step := by
  obtain ⟨enough, reached⟩ := checked
  obtain ⟨kept, taken, split⟩ := h.take anchored enough
  rw [same] at split
  simp only [Line.markAfter, Line.size, same] at reached
  obtain ⟨value, rfl⟩ := List.length_eq_one_iff.mp split.length
  rw [faces.step_eq, begun_eq split.stack, Exec.perform_setGlobal]
  refine h.drops assembled split (y := (m.begun offset (.setGlobal name)).define name value)
    ⟨rfl, rfl, rfl, rfl⟩ (begun_ip (m := m) offset (.setGlobal name)) reached ?_
  exact h.define_known (split.known value (List.mem_singleton_self _))

/-- A step at the definition of a function. -/
theorem step_func (h : Sound chunk lines floor offset line m) (assembled : chunk.Assembled lines)
    (checked : line.Checked (Reaches lines) offset) {name : String}
    {arity start : Nat} (same : line.instr = .func name arity start)
    (faces : m.Faces chunk offset (.func name arity start)) :
    Proceeds chunk lines floor line m.step := by
  obtain ⟨-, checked⟩ := checked
  simp only [Line.markAfter, Line.size, same] at checked
  have known : Value.Known lines floor.strays
      (.function { name, arity := arity, start := start }) :=
    ⟨offset, line, arity, start, h.listed, same, rfl, rfl⟩
  rw [faces.step_eq]
  exact h.goes_on assembled
    ((m.begun offset (.func name arity start)).define name
      (.function { name, arity := arity, start := start }))
    ⟨rfl, rfl, rfl, rfl⟩ (begun_ip (m := m) offset (.func name arity start)) checked.2 h.stacked
    (h.define_known known) h.fits

theorem exists_last {values : List Value} (some_value : 0 < values.length) :
    ∃ rest last, values = rest ++ [last] := by
  rcases List.eq_nil_or_concat' values with rfl | exists_rest
  · exact absurd some_value (Nat.lt_irrefl 0)
  · exact exists_rest

/-- A step at an instruction that changes a local variable. -/
theorem step_deepSet (h : Sound chunk lines floor offset line m)
    (assembled : chunk.Assembled lines) (anchored : floor.Anchored)
    (checked : line.Checked (Reaches lines) offset) {slot : Nat}
    (same : line.instr = .deepSet slot) (faces : m.Faces chunk offset (.deepSet slot)) :
    Proceeds chunk lines floor line m.step := by
  obtain ⟨-, checked⟩ := checked
  simp only [Line.markAfter, Line.size, same] at checked
  obtain ⟨inside, small, reached⟩ := checked
  obtain ⟨below, values, stack, length, known, frame, -, -, exchange⟩ :=
    h.stacked.innermost anchored
  obtain ⟨earlier, frames⟩ := frame inside
  have some_value : 0 < values.length := by omega
  obtain ⟨rest, value, rfl⟩ := exists_last some_value
  rw [List.length_append, List.length_singleton] at length
  have within : slot < rest.length := by omega
  have knownRest : ∀ other ∈ rest.set slot value, other.Known lines floor.strays := by
    intro other mem
    rcases List.mem_or_eq_of_mem_set mem with mem | rfl
    · exact known other (List.mem_append_left _ mem)
    · exact known other (by simp)
  rw [faces.step_eq, begun_eq stack, frames, ← List.append_assoc,
    Exec.perform_deepSet (m := m.begun offset (.deepSet slot)) within, ← frames]
  refine h.goes_on assembled
    ((m.begun offset (.deepSet slot)).holding (below ++ rest.set slot value) m.frames.toList)
    ⟨rfl, rfl, rfl, rfl⟩ (begun_ip (m := m) offset _) reached ?_ h.globals ?_
  · have exchanged := exchange _ knownRest
    rw [List.length_set] at exchanged
    simp only [Instr.takes, Instr.leaves]
    rw [← length, Nat.add_sub_cancel]
    exact exchanged
  · have fits := h.fits
    rw [← Array.length_toList, stack] at fits
    simp only [List.length_append, List.length_singleton] at fits
    show (below ++ rest.set slot value).toArray.size ≤ m.stackLimit
    simp only [List.size_toArray, List.length_append, List.length_set]
    omega

/-- A step at a jump. -/
theorem step_jmp (h : Sound chunk lines floor offset line m) (assembled : chunk.Assembled lines)
    (checked : line.Checked (Reaches lines) offset) {distance : Int}
    (same : line.instr = .jmp distance) (faces : m.Faces chunk offset (.jmp distance)) :
    Proceeds chunk lines floor line m.step := by
  obtain ⟨-, checked⟩ := checked
  simp only [Line.markAfter, Line.size, same] at checked
  obtain ⟨target, lands, reached⟩ := checked
  rw [faces.step_eq, Exec.perform_jmp]
  refine h.goes_on assembled _ ⟨rfl, rfl, rfl, rfl⟩ ?_ reached h.stacked h.globals h.fits
  have := begun_ip (m := m) offset (.jmp distance)
  simp only at this ⊢
  omega

/-- A step at a conditional jump. -/
theorem step_jz (h : Sound chunk lines floor offset line m) (assembled : chunk.Assembled lines)
    (anchored : floor.Anchored) (checked : line.Checked (Reaches lines) offset) {distance : Int}
    (same : line.instr = .jz distance) (faces : m.Faces chunk offset (.jz distance)) :
    Proceeds chunk lines floor line m.step := by
  obtain ⟨enough, checked⟩ := checked
  obtain ⟨kept, taken, split⟩ := h.take anchored enough
  rw [same] at split
  simp only [Line.markAfter, Line.size, same] at checked
  obtain ⟨next, target, lands, reached⟩ := checked
  obtain ⟨value, rfl⟩ := List.length_eq_one_iff.mp split.length
  have ip := begun_ip (m := m) offset (.jz distance)
  rw [faces.step_eq, begun_eq split.stack]
  by_cases isBool : value.kind = .bool
  · obtain ⟨truth, rfl⟩ : ∃ truth, value = .bool truth := by
      cases value with
      | bool truth => exact ⟨truth, rfl⟩
      | _ => cases isBool
    cases truth with
    | true =>
        rw [Exec.perform_jz_true]
        exact h.drops assembled split ⟨rfl, rfl, rfl, rfl⟩ ip next h.globals
    | false =>
        rw [Exec.perform_jz_false]
        refine h.drops assembled split
          (y := { m.begun offset (.jz distance) with
            ip := (m.begun offset (.jz distance)).ip + distance })
          ⟨rfl, rfl, rfl, rfl⟩ ?_ reached h.globals
        simp only at ip ⊢
        omega
  · rw [Exec.perform_jz_other isBool]
    exact .of_error rfl split.onStack split.onFrames

/-- What comes of a call, with its arguments on top of the stack. -/
inductive Invoked (lines : List Line) (offset : Nat) (instr : Instr) (kept taken : List Value)
    (m : Machine) : Machine × Except Fault Bool → Prop
  /-- The function is entered. -/
  | entered {start : Nat} : Reaches lines start ⟨some start, taken.length⟩ →
      kept.length + taken.length < m.stackLimit →
        Invoked lines offset instr kept taken m
          ({ (m.begun offset instr).holding (kept ++ .pointer (offset + 2 : Nat) :: taken)
            (m.frames.toList ++ [kept.length + 1]) with ip := start }, .ok true)
  /-- The call is turned down. Where this is for want of room, it had no arguments. -/
  | refused {after : Machine} {fault : Fault} : fault.isMalformed = false → after.halted →
      kept <+: after.stack.toList → after.frames = m.frames →
        (fault = .stackOverflow → taken = []) →
          Invoked lines offset instr kept taken m (after, .error fault)
  /-- There is room for the return address, but not for the arguments above it. -/
  | halfway {after : Machine} {pushed : List Value} : taken ≠ [] → after.halted →
      after.stack.toList = kept ++ .pointer (offset + 2 : Nat) :: pushed →
        after.frames.toList = m.frames.toList ++ [kept.length + 1] →
          Invoked lines offset instr kept taken m (after, .error .stackOverflow)

/-- A step at a call. -/
theorem invoked (h : Sound chunk lines floor offset line m)
    (assembled : chunk.Assembled lines) (closed : Closed lines) {name : String} {count : Nat}
    (same : line.instr = .invoke name count) (faces : m.Faces chunk offset (.invoke name count))
    {kept taken : List Value} (split : Taken lines floor line m count kept taken) :
    Invoked lines offset line.instr kept taken m m.step := by
  obtain rfl := split.length
  have refused {fault : Fault}
      (failed : Exec.perform (.invoke name taken.length)
        (m.begun offset (.invoke name taken.length)) =
          .error fault (m.begun offset (.invoke name taken.length)))
      (benign : fault.isMalformed = false) (other : fault ≠ .stackOverflow) :
      Invoked lines offset line.instr kept taken m m.step := by
    rw [faces.step_eq, failed]
    refine .refused benign rfl ?_ rfl fun overflow => absurd overflow other
    exact ⟨taken, split.stack.symm⟩
  cases found : m.globals.find? name with
  | none => exact refused (Exec.perform_invoke_missing found) rfl nofun
  | some value =>
      cases value with
      | function callee =>
          by_cases right : (taken.length : Int) = callee.arity
          · by_cases frame : m.frames.size < m.frameLimit
            · obtain ⟨entry, definition, arity, start, listed, isFunc, sameArity, sameStart⟩ :=
                h.globals name _ found
              have entered := (closed _ listed).2
              simp only [isFunc] at entered
              obtain ⟨reached, -⟩ := entered
              obtain rfl : taken.length = arity := Int.natCast_inj.mp (right.trans sameArity)
              have called := Exec.perform_invoke
                (m := m.begun offset (.invoke name taken.length)) found right frame
              rw [sameStart, begun_eq split.stack, ip_holding] at called
              rw [faces.step_eq, begun_eq split.stack, called]
              have fits := h.fits
              rw [← Array.length_toList, split.stack, List.length_append] at fits
              by_cases room : kept.length + taken.length < m.stackLimit
              · rw [Exec.enter_holding (m := m.begun offset (.invoke name taken.length)) room]
                have goes_on := h.finish_reached assembled
                  { (m.begun offset (.invoke name taken.length)).holding
                    (kept ++ .pointer (offset + 2 : Nat) :: taken)
                    (m.frames.toList ++ [kept.length + 1]) with ip := (start : Int) - 1 }
                  ⟨rfl, rfl, rfl, rfl⟩ (Int.sub_add_cancel _ _) reached
                rw [same]
                exact goes_on ▸ .entered reached room
              · by_cases some_room : kept.length < m.stackLimit
                · obtain ⟨pushed, full⟩ := Exec.enter_halfway
                    (m := m.begun offset (.invoke name taken.length)) m.frames.toList
                    (m.begun offset (.invoke name taken.length)).ip start some_room
                    (Nat.not_lt.mp room)
                  rw [full]
                  refine .halfway ?_ rfl rfl rfl
                  rintro rfl
                  simp at room
                  omega
                · rw [Exec.enter_refused (m := m.begun offset (.invoke name taken.length)) _ _ _
                    (Nat.not_lt.mp some_room)]
                  refine .refused rfl rfl (List.prefix_refl _) rfl fun _ => ?_
                  exact List.eq_nil_of_length_eq_zero (by omega)
            · exact refused (Exec.perform_invoke_frames found right (Nat.not_lt.mp frame)) rfl nofun
          · exact refused (Exec.perform_invoke_arity found right) rfl nofun
      | _ => exact refused (Exec.perform_invoke_other found nofun) rfl nofun

/-- After a call the machine is at the beginning of the function, on any floor that
fits. -/
theorem entered (h : Sound chunk lines floor offset line m) {other : Floor} {start count : Nat}
    {stack : List Value} {frames : List Nat} (instr : Instr)
    (reached : Reaches lines start ⟨some start, count⟩) (room : stack.length ≤ m.stackLimit)
    (stacked : Stacked lines other ⟨some start, count⟩ stack frames)
    (strays : floor.strays = other.strays) :
    ∃ next, Sound chunk lines other start next
      { (m.begun offset instr).holding stack frames with ip := start } := by
  obtain ⟨next, listed, mark⟩ := reached
  refine ⟨next, h.running, h.loaded, h.code, rfl, listed, ?_, strays ▸ h.globals, ?_⟩
  · rw [mark]
    exact stacked
  · show stack.toArray.size ≤ m.stackLimit
    rw [List.size_toArray]
    exact room

/-- A step at a call. -/
theorem step_invoke (h : Sound chunk lines floor offset line m) (assembled : chunk.Assembled lines)
    (closed : Closed lines) (anchored : floor.Anchored) {name : String} {count : Nat}
    (same : line.instr = .invoke name count) (faces : m.Faces chunk offset (.invoke name count)) :
    Proceeds chunk lines floor line m.step := by
  have enough := (closed _ h.listed).1
  rw [same] at enough
  obtain ⟨kept, taken, split⟩ := h.take anchored enough
  have invoked := h.invoked assembled closed same faces split
  generalize m.step = result at invoked
  cases invoked with
  | entered reached room =>
      have caller := split.exchange [] (by simp)
      rw [List.append_nil] at caller
      have markEq : line.mark = ⟨line.mark.home,
          line.mark.height - count + ([] : List Value).length + count⟩ := by
        have : line.mark.height - count + 0 + count = line.mark.height := by
          simp only [Instr.takes] at enough
          omega
        simp only [List.length_nil, this]
      exact ⟨_, h.entered _ reached (by simp; omega)
        (.call caller h.listed same markEq split.known) rfl⟩
  | refused benign halted onStack frames _ =>
      refine ⟨benign, halted, split.onStack.trans onStack, ?_⟩
      rw [frames]
      exact split.onFrames
  | halfway _ halted stack frames =>
      refine ⟨rfl, halted, ?_, ?_⟩
      · rw [stack]
        exact split.onStack.trans (List.prefix_append _ _)
      · rw [frames]
        exact split.onFrames.trans (List.prefix_append _ _)

/-- The instruction to stop does nothing else. -/
theorem step_exit (h : Sound chunk lines floor offset line m) (assembled : chunk.Assembled lines)
    (isExit : line.instr.op = .exit) :
    m.step = ({ m with offset := offset, halted := true }, .ok false) := by
  obtain ⟨instr, means, faces⟩ := h.faces assembled
  obtain ⟨bare, rfl⟩ := Instr.eq_plain rfl (means.op_eq.trans isExit)
  rw [faces.step_eq, Exec.perform_exit, begun, ← h.ip]
  simp [finish, Instr.op, Opcode.size, Opcode.operands, OperandKind.widths, h.ip]

/-- The state of a program at the end of the call that its floor belongs to. -/
structure Returning (lines : List Line) (floor : Floor) (line : Line) (m : Machine) : Prop where
  op : line.instr.op = .ret
  inside : floor.home.isSome
  stack : ∃ locals value, m.stack.toList = floor.stack ++ locals ++ [value] ∧
    value.Known lines floor.strays
  frames : m.frames.toList = floor.frames

/-- A return leaves the result in place of all that the call had on the stack. -/
theorem step_returned {bare : Opcode.ret.operands = []}
    (faces : m.Faces chunk offset (.plain .ret bare)) {kept locals : List Value} {value : Value}
    {frames : List Nat} {target : Int}
    (stack : m.stack.toList = kept ++ .pointer target :: locals ++ [value])
    (onFrames : m.frames.toList = frames ++ [kept.length + 1])
    (fits : m.stack.size ≤ m.stackLimit) :
    m.step = finish (.ok () { (m.begun offset (.plain .ret bare)).holding (kept ++ [value])
      frames with ip := target }) := by
  rw [← Array.length_toList, stack] at fits
  simp only [List.length_append, List.length_cons] at fits
  have room : kept.length < m.stackLimit := by omega
  rw [faces.step_eq, begun_eq stack, onFrames]
  exact congrArg finish (Exec.perform_ret (m := m.begun offset (.plain .ret bare)) room)

/-- A step at the end of a function. -/
theorem step_ret (h : Sound chunk lines floor offset line m) (assembled : chunk.Assembled lines)
    (closed : Closed lines) (anchored : floor.Anchored) {bare : Opcode.ret.operands = []}
    (same : line.instr = .plain .ret bare) (faces : m.Faces chunk offset (.plain .ret bare)) :
    Proceeds chunk lines floor line m.step ∨ Returning lines floor line m := by
  obtain ⟨enough, inside⟩ := closed _ h.listed
  simp only [same, Instr.takes] at enough inside
  have stacked := h.stacked
  generalize markEq : line.mark = mark at stacked enough inside
  generalize stackEq : m.stack.toList = stack at stacked
  generalize framesEq : m.frames.toList = frames at stacked
  cases stacked with
  | base known =>
      obtain ⟨locals, value, rfl⟩ := exists_last enough
      refine .inr ⟨by rw [same]; rfl, inside, ⟨locals, value, ?_, known value (by simp)⟩, framesEq⟩
      rw [stackEq, List.append_assoc]
  | call outer mem isInvoke sameMark known =>
      rename_i caller below values frames back start callLine name count
      obtain ⟨locals, value, rfl⟩ := exists_last enough
      -- the caller goes on behind its INVOKE, with the mark that this leaves
      have reached := (closed _ mem).2
      simp only [isInvoke, sameMark, Line.markAfter, Line.size, Instr.takes, Instr.leaves,
        Nat.add_sub_cancel] at reached
      obtain ⟨kept, taken, rfl, length, -, -, -, exchange⟩ := outer.take anchored (Nat.zero_le _)
      obtain rfl := List.eq_nil_of_length_eq_zero length
      have stacked := exchange [value] (by
        intro other mem
        rw [List.mem_singleton.mp mem]
        exact known value (by simp))
      rw [← List.cons_append, ← List.append_assoc, List.append_nil] at stackEq
      rw [List.append_nil] at framesEq
      left
      rw [step_returned faces stackEq framesEq h.fits]
      refine h.goes_on assembled
        { (m.begun offset (.plain .ret bare)).holding (kept ++ [value]) frames with
          ip := (back + 2 : Nat) } ⟨rfl, rfl, rfl, rfl⟩ ?_ reached stacked h.globals ?_
      · simp
        rfl
      · have fits := h.fits
        rw [← Array.length_toList, stackEq] at fits
        show (kept ++ [value]).toArray.size ≤ m.stackLimit
        simp only [List.size_toArray, List.length_append, List.length_cons] at fits ⊢
        omega

/-- A step from a sound state, unless it returns from the call that the floor
belongs to. -/
theorem step (h : Sound chunk lines floor offset line m) (assembled : chunk.Assembled lines)
    (closed : Closed lines) (anchored : floor.Anchored) :
    Proceeds chunk lines floor line m.step ∨ Returning lines floor line m := by
  obtain ⟨instr, means, faces⟩ := h.faces assembled
  have checked := closed _ h.listed
  cases same : line.instr with
  | const value =>
      rw [same] at means
      obtain ⟨entry, rfl, -⟩ := means
      have reached := checked.2
      simp only [same, Line.markAfter, Line.size] at reached
      exact .inl (h.step_fetch assembled anchored faces (.ok (.number entry)) trivial rfl
        reached)
  | str value =>
      obtain rfl : instr = .str value := by simpa [same, Instr.Means] using means
      have reached := checked.2
      simp only [same, Line.markAfter, Line.size] at reached
      exact .inl (h.step_fetch assembled anchored faces (.ok (.string value)) trivial rfl
        reached)
  | getGlobal name =>
      obtain rfl : instr = .getGlobal name := by simpa [same, Instr.Means] using means
      have reached := checked.2
      simp only [same, Line.markAfter, Line.size] at reached
      refine .inl (h.step_fetch assembled anchored faces _ (h.fetch_fine name) ?_ reached)
      rw [begun_eq rfl]
      exact Exec.perform_getGlobal
  | setGlobal name =>
      obtain rfl : instr = .setGlobal name := by simpa [same, Instr.Means] using means
      exact .inl (h.step_setGlobal assembled anchored checked same faces)
  | deepSet slot =>
      obtain rfl : instr = .deepSet slot := by simpa [same, Instr.Means] using means
      exact .inl (h.step_deepSet assembled anchored checked same faces)
  | deepGet slot =>
      obtain rfl : instr = .deepGet slot := by simpa [same, Instr.Means] using means
      exact .inl (h.step_deepGet assembled anchored checked same faces)
  | jmp distance =>
      obtain rfl : instr = .jmp distance := by simpa [same, Instr.Means] using means
      exact .inl (h.step_jmp assembled checked same faces)
  | jz distance =>
      obtain rfl : instr = .jz distance := by simpa [same, Instr.Means] using means
      exact .inl (h.step_jz assembled anchored checked same faces)
  | func name arity start =>
      obtain rfl : instr = .func name arity start := by simpa [same, Instr.Means] using means
      exact .inl (h.step_func assembled checked same faces)
  | invoke name count =>
      obtain rfl : instr = .invoke name count := by simpa [same, Instr.Means] using means
      exact .inl (h.step_invoke assembled closed anchored same faces)
  | plain op bare =>
      obtain rfl : instr = .plain op bare := by simpa [same, Instr.Means] using means
      by_cases isRet : op = .ret
      · subst isRet
        exact h.step_ret assembled closed anchored same faces
      · exact .inl (h.step_plain assembled anchored checked same isRet faces)

end Sound

end Machine

end StackScript
