/-
# Configurations

The state of a machine that runs a chunk, apart from its limits. The stack and the
frames are lists with their bottom first. There is one lemma for each way that an
instruction leads from one configuration to another, under all limits at once, and
one for instructions that end the program with a fault.
-/

import StackScript.Proofs.Machine.Limits

namespace StackScript

open Line (extent placed)

/-- A chunk shows the instructions of some lines, from an offset on. -/
structure Chunk.Presents (chunk : Chunk) (offset : Nat) (lines : List Line) : Prop where
  reads : ∀ p ∈ placed offset lines, chunk.Reads p.1 p.2.instr
  fits : offset + extent lines ≤ chunk.size

namespace Chunk.Presents

variable {chunk : Chunk} {offset : Nat} {line : Line} {lines more : List Line}

theorem left (h : chunk.Presents offset (lines ++ more)) : chunk.Presents offset lines := by
  have fits := h.fits
  rw [Line.extent_append] at fits
  exact ⟨fun p mem => h.reads p (by simp [mem]), by omega⟩

theorem right (h : chunk.Presents offset (lines ++ more)) :
    chunk.Presents (offset + extent lines) more := by
  have fits := h.fits
  rw [Line.extent_append] at fits
  exact ⟨fun p mem => h.reads p (by simp [mem]), by omega⟩

theorem head (h : chunk.Presents offset (line :: lines)) : chunk.Reads offset line.instr :=
  h.reads (offset, line) List.mem_cons_self

theorem tail (h : chunk.Presents offset (line :: lines)) :
    chunk.Presents (offset + line.size) lines := by
  have fits := h.fits
  rw [Line.extent_cons] at fits
  exact ⟨fun p mem => h.reads p (List.mem_cons_of_mem _ mem), by omega⟩

end Chunk.Presents

/-- The state of a running machine. The last instruction that was started is known
by its offset. -/
structure Config where
  offset : Nat
  last : Int
  stack : List Value
  frames : List Nat
  globals : Globals
  output : List String

namespace Config

/-- The machine in a configuration, with no room at all. -/
def machine (chunk : Chunk) (c : Config) : Machine where
  stackLimit := 0
  frameLimit := 0
  stack := c.stack.toArray
  frames := c.frames.toArray
  globals := c.globals
  chunk := some chunk
  code := chunk.code
  ip := c.offset
  offset := c.last
  halted := false
  output := c.output.toArray

/-- The configuration after an instruction that does not jump. -/
def next (c : Config) (instr : Instr) (stack : List Value) : Config :=
  { c with offset := c.offset + instr.op.size, last := c.offset, stack }

/-- The machine while it performs an instruction. -/
def performing (chunk : Chunk) (c : Config) (instr : Instr) (stackLimit frameLimit : Nat) :
    Machine :=
  ((c.machine chunk).limited stackLimit frameLimit).begun c.offset instr

/-- Performing an instruction exceeds a limit. -/
def Exceeds (chunk : Chunk) (c : Config) (instr : Instr) (stackLimit frameLimit : Nat) : Prop :=
  ∃ later fault,
    Exec.perform instr (c.performing chunk instr stackLimit frameLimit) = .error fault later ∧
      (fault = .stackOverflow ∨ fault = .frameOverflow) ∧ later.output.toList = c.output ∧
      (stackLimit ≤ c.stack.length ∨ frameLimit ≤ c.frames.length)

variable {chunk : Chunk} {c d : Config} {instr : Instr}

theorem faces (reads : chunk.Reads c.offset instr) (stackLimit frameLimit : Nat) :
    ((c.machine chunk).limited stackLimit frameLimit).Faces chunk c.offset instr :=
  ⟨rfl, rfl, rfl, rfl, reads⟩

/-- An instruction leads to another configuration if it does so wherever there is room. -/
theorem moves (reads : chunk.Reads c.offset instr)
    (inside : d.offset ≤ chunk.size) (printed : c.output <+: d.output)
    (effect : ∀ stackLimit frameLimit,
      Exec.perform instr (c.performing chunk instr stackLimit frameLimit) =
          .ok () { (d.machine chunk).limited stackLimit frameLimit with ip := (d.offset : Int) - 1 } ∨
        c.Exceeds chunk instr stackLimit frameLimit) :
    (c.machine chunk).Moves (d.machine chunk) := by
  refine ⟨printed, ?_⟩
  intro stackLimit frameLimit
  rw [(faces reads stackLimit frameLimit).step_eq]
  rcases effect stackLimit frameLimit with done | ⟨later, fault, failed, isOverflow, output, full⟩
  · left
    have ip : (d.offset : Int) - 1 + 1 = d.offset := Int.sub_add_cancel _ _
    have high : (d.offset : Int) - 1 + 1 ≤ (chunk.code.size : Int) := by
      rw [ip]
      exact Int.ofNat_le.mpr inside
    refine (congrArg Machine.finish done).trans ?_
    rw [Machine.finish_ok rfl (by simp) high]
    simp only [ip]
    rfl
  · right
    refine ⟨⟨{ later with halted := true }, fault, ?_, isOverflow, ?_⟩, by simpa [machine] using full⟩
    · rw [(faces reads stackLimit frameLimit).step_eq]
      exact congrArg Machine.finish failed
    · exact Array.toList_inj.mp output

theorem performing_ip (stackLimit frameLimit : Nat) :
    (c.performing chunk instr stackLimit frameLimit).ip =
      ((c.offset + instr.op.size : Nat) : Int) - 1 := by
  have ip := Machine.begun_ip (m := (c.machine chunk).limited stackLimit frameLimit) c.offset instr
  rw [← ip, Int.add_sub_cancel]
  rfl

theorem performing_holding (stackLimit frameLimit : Nat) :
    c.performing chunk instr stackLimit frameLimit =
      (c.performing chunk instr stackLimit frameLimit).holding c.stack c.frames := rfl

/-- An instruction that needs no room. -/
theorem moves_silent (reads : chunk.Reads c.offset instr) (inside : d.offset ≤ chunk.size)
    (printed : c.output <+: d.output)
    (performed : ∀ stackLimit frameLimit,
      Exec.perform instr (c.performing chunk instr stackLimit frameLimit) =
        .ok () { (d.machine chunk).limited stackLimit frameLimit with
          ip := (d.offset : Int) - 1 }) :
    (c.machine chunk).Moves (d.machine chunk) :=
  moves reads inside printed fun stackLimit frameLimit => .inl (performed stackLimit frameLimit)

/-- An instruction after which the next one follows. -/
theorem moves_next {stack : List Value} {globals : Globals} {output : List String}
    (reads : chunk.Reads c.offset instr) (inside : c.offset + instr.op.size ≤ chunk.size)
    (printed : c.output <+: output)
    (performed : ∀ stackLimit frameLimit,
      Exec.perform instr (c.performing chunk instr stackLimit frameLimit) =
        .ok () ({ c.performing chunk instr stackLimit frameLimit with
          globals := globals, output := output.toArray }.holding stack c.frames)) :
    (c.machine chunk).Moves
      (({ c.next instr stack with globals := globals, output := output } : Config).machine chunk) := by
  refine moves_silent reads inside printed fun stackLimit frameLimit => ?_
  refine (performed stackLimit frameLimit).trans ?_
  simp only [Machine.holding, performing_ip]
  rfl

/-- An instruction that takes some values and leaves one. -/
theorem moves_deliver {kept taken : List Value} {value : Value}
    (reads : chunk.Reads c.offset instr) (inside : c.offset + instr.op.size ≤ chunk.size)
    (stack : c.stack = kept ++ taken)
    (performed : ∀ m : Machine, m.globals = c.globals →
      Exec.perform instr (m.holding (kept ++ taken) c.frames) =
        Exec.deliver (.ok value) (m.holding kept c.frames)) :
    (c.machine chunk).Moves ((c.next instr (kept ++ [value])).machine chunk) := by
  refine moves reads inside (List.prefix_refl _) ?_
  intro stackLimit frameLimit
  have effect := performed (c.performing chunk instr stackLimit frameLimit) rfl
  rw [← stack] at effect
  by_cases room : kept.length < stackLimit
  · left
    refine effect.trans ?_
    rw [Exec.deliver, Exec.push_holding (m := c.performing chunk instr stackLimit frameLimit) room]
    simp only [Machine.holding, performing_ip]
    rfl
  · right
    refine ⟨(c.performing chunk instr stackLimit frameLimit).holding kept c.frames,
      .stackOverflow, effect.trans ?_, .inl rfl, rfl, .inl ?_⟩
    · exact Exec.push_full (m := c.performing chunk instr stackLimit frameLimit)
        (Nat.not_lt.mp room)
    · rw [stack, List.length_append]
      omega

section Instructions

variable {kept : List Value} {value : Value}

theorem moves_pop {bare : Opcode.pop.operands = []}
    (reads : chunk.Reads c.offset (.plain .pop bare))
    (inside : c.offset + Opcode.pop.size ≤ chunk.size) (stack : c.stack = kept ++ [value]) :
    (c.machine chunk).Moves ((c.next (.plain .pop bare) kept).machine chunk) := by
  refine moves_next reads inside (List.prefix_refl _) fun stackLimit frameLimit => ?_
  rw [performing_holding, stack]
  exact Exec.perform_pop

theorem moves_print {bare : Opcode.print.operands = []}
    (reads : chunk.Reads c.offset (.plain .print bare))
    (inside : c.offset + Opcode.print.size ≤ chunk.size) (stack : c.stack = kept ++ [value]) :
    (c.machine chunk).Moves
      (({ c.next (.plain .print bare) kept with output := c.output ++ [value.text] } :
        Config).machine chunk) := by
  refine moves_next reads inside (List.prefix_append _ _) fun stackLimit frameLimit => ?_
  rw [performing_holding, stack, Exec.perform_print, ← List.push_toArray]
  rfl

theorem moves_setGlobal {name : String} (reads : chunk.Reads c.offset (.setGlobal name))
    (inside : c.offset + Opcode.setGlobal.size ≤ chunk.size) (stack : c.stack = kept ++ [value]) :
    (c.machine chunk).Moves
      (({ c.next (.setGlobal name) kept with globals := c.globals.insert name value } :
        Config).machine chunk) := by
  refine moves_next reads inside (List.prefix_refl _) fun stackLimit frameLimit => ?_
  rw [performing_holding, stack, Exec.perform_setGlobal]
  rfl

theorem moves_func {name : String} {arity start : Nat}
    (reads : chunk.Reads c.offset (.func name arity start))
    (inside : c.offset + Opcode.func.size ≤ chunk.size) :
    (c.machine chunk).Moves
      (({ c.next (.func name arity start) c.stack with
        globals := c.globals.insert name (.function { name, arity := arity, start := start }) } :
          Config).machine chunk) := by
  refine moves_next reads inside (List.prefix_refl _) fun stackLimit frameLimit => ?_
  rw [performing_holding, Exec.perform_func]
  rfl

theorem moves_deepSet {below locals : List Value} {frames : List Nat} {slot : Nat}
    (reads : chunk.Reads c.offset (.deepSet slot))
    (inside : c.offset + Opcode.deepSet.size ≤ chunk.size)
    (stack : c.stack = below ++ locals ++ [value]) (onFrames : c.frames = frames ++ [below.length])
    (within : slot < locals.length) :
    (c.machine chunk).Moves
      ((c.next (.deepSet slot) (below ++ locals.set slot value)).machine chunk) := by
  refine moves_next reads inside (List.prefix_refl _) fun stackLimit frameLimit => ?_
  rw [performing_holding, stack, onFrames, Exec.perform_deepSet within]
  rfl

theorem moves_jmp {distance : Int} {target : Nat} (reads : chunk.Reads c.offset (.jmp distance))
    (lands : (target : Int) = (c.offset + Opcode.jmp.size : Nat) + distance)
    (inside : target ≤ chunk.size) :
    (c.machine chunk).Moves
      (({ c with offset := target, last := c.offset } : Config).machine chunk) := by
  refine moves_silent reads inside (List.prefix_refl _) fun stackLimit frameLimit => ?_
  rw [Exec.perform_jmp, performing_ip]
  have same : ((c.offset + Opcode.jmp.size : Nat) : Int) - 1 + distance = (target : Int) - 1 := by
    omega
  simp only [Instr.op, same]
  rfl

theorem moves_jz_true {distance : Int} (reads : chunk.Reads c.offset (.jz distance))
    (inside : c.offset + Opcode.jz.size ≤ chunk.size) (stack : c.stack = kept ++ [.bool true]) :
    (c.machine chunk).Moves ((c.next (.jz distance) kept).machine chunk) := by
  refine moves_next reads inside (List.prefix_refl _) fun stackLimit frameLimit => ?_
  rw [performing_holding, stack]
  exact Exec.perform_jz_true

theorem moves_jz_false {distance : Int} {target : Nat} (reads : chunk.Reads c.offset (.jz distance))
    (lands : (target : Int) = (c.offset + Opcode.jz.size : Nat) + distance)
    (inside : target ≤ chunk.size) (stack : c.stack = kept ++ [.bool false]) :
    (c.machine chunk).Moves
      (({ c with offset := target, last := c.offset, stack := kept } : Config).machine chunk) := by
  refine moves_silent reads inside (List.prefix_refl _) fun stackLimit frameLimit => ?_
  rw [performing_holding, stack, Exec.perform_jz_false]
  have same : ((c.offset + Opcode.jz.size : Nat) : Int) - 1 + distance = (target : Int) - 1 := by
    omega
  simp only [Machine.holding, performing_ip, Instr.op, same]
  rfl

/-- A call goes to the beginning of the function, with a frame for the arguments. -/
theorem moves_invoke {taken : List Value} {name : String} {start : Nat} {function : Function}
    (reads : chunk.Reads c.offset (.invoke name taken.length)) (inside : start ≤ chunk.size)
    (stack : c.stack = kept ++ taken) (found : c.globals.find? name = some (.function function))
    (arity : function.arity = taken.length) (starts : function.start = start) :
    (c.machine chunk).Moves
      (({ c with
        offset := start
        last := c.offset
        stack := kept ++ .pointer (c.offset + 2 : Nat) :: taken
        frames := c.frames ++ [kept.length + 1] } : Config).machine chunk) := by
  refine moves reads inside (List.prefix_refl _) fun stackLimit frameLimit => ?_
  by_cases frame : c.frames.length < frameLimit
  · have called := Exec.perform_invoke
      (m := c.performing chunk (.invoke name taken.length) stackLimit frameLimit) found arity.symm
      (by simpa [performing, machine, Machine.begun, Machine.limited] using frame)
    rw [starts, performing_holding, stack] at called
    by_cases room : kept.length + taken.length < stackLimit
    · left
      rw [performing_holding, stack, called]
      exact Exec.enter_holding
        (m := c.performing chunk (.invoke name taken.length) stackLimit frameLimit) room
    · right
      have full : stackLimit ≤ kept.length + taken.length := Nat.not_lt.mp room
      obtain ⟨above, later, entered⟩ := Exec.enter_full
        (m := c.performing chunk (.invoke name taken.length) stackLimit frameLimit) c.frames
        (c.performing chunk (.invoke name taken.length) stackLimit frameLimit).ip start full
      have failed := called.trans entered
      rw [← stack] at failed
      refine ⟨_, .stackOverflow, failed, .inl rfl, rfl, .inl ?_⟩
      · rw [stack, List.length_append]
        omega
  · right
    refine ⟨c.performing chunk (.invoke name taken.length) stackLimit frameLimit, .frameOverflow,
      ?_, .inr rfl, rfl, .inr (Nat.not_lt.mp frame)⟩
    exact Exec.perform_invoke_frames found arity.symm (Nat.not_lt.mp frame)

/-- A return goes back behind the call, with the result in place of the call. -/
theorem moves_ret {locals : List Value} {frames : List Nat} {back : Nat}
    {bare : Opcode.ret.operands = []} (reads : chunk.Reads c.offset (.plain .ret bare))
    (inside : back + 3 ≤ chunk.size)
    (stack : c.stack = kept ++ .pointer (back + 2 : Nat) :: locals ++ [value])
    (onFrames : c.frames = frames ++ [kept.length + 1]) :
    (c.machine chunk).Moves
      (({ c with offset := back + 3, last := c.offset, stack := kept ++ [value], frames := frames } :
        Config).machine chunk) := by
  refine moves reads inside (List.prefix_refl _) fun stackLimit frameLimit => ?_
  rw [performing_holding, stack, onFrames]
  by_cases room : kept.length < stackLimit
  · left
    rw [Exec.perform_ret (m := c.performing chunk (.plain .ret bare) stackLimit frameLimit) room]
    have same : ((back + 2 : Nat) : Int) = ((back + 3 : Nat) : Int) - 1 := by omega
    simp only [Machine.holding, same]
    rfl
  · right
    have full : stackLimit ≤ kept.length := Nat.not_lt.mp room
    have failed : Exec.perform (.plain .ret bare)
        ((c.performing chunk (.plain .ret bare) stackLimit frameLimit).holding
          (kept ++ .pointer (back + 2 : Nat) :: locals ++ [value]) (frames ++ [kept.length + 1])) =
        .error .stackOverflow _ := Exec.perform_ret_full full
    rw [← stack, ← onFrames] at failed
    refine ⟨_, .stackOverflow, failed, .inl rfl, rfl, .inl ?_⟩
    rw [stack]
    simp only [List.length_append, List.length_cons]
    omega

end Instructions

/-- The next instruction ends the program with a fault, and changes neither the
globals nor what was printed. -/
def Fails (chunk : Chunk) (c : Config) (fault : Fault) : Prop :=
  ∀ stackLimit frameLimit, ∃ later,
    ((c.machine chunk).limited stackLimit frameLimit).step = (later, .error fault) ∧
      later.halted ∧ later.globals = c.globals ∧ later.output.toList = c.output

section Faults

variable {fault : Fault}

theorem fails (reads : chunk.Reads c.offset instr)
    (performed : ∀ stackLimit frameLimit, ∃ stack frames,
      Exec.perform instr (c.performing chunk instr stackLimit frameLimit) =
        .error fault ((c.performing chunk instr stackLimit frameLimit).holding stack frames)) :
    c.Fails chunk fault := by
  intro stackLimit frameLimit
  obtain ⟨stack, frames, failed⟩ := performed stackLimit frameLimit
  refine ⟨_, ((faces reads stackLimit frameLimit).step_eq).trans (congrArg Machine.finish failed),
    rfl, rfl, rfl⟩

/-- An operation whose outcome is a fault. -/
theorem fails_deliver {kept taken : List Value} (reads : chunk.Reads c.offset instr)
    (stack : c.stack = kept ++ taken)
    (performed : ∀ m : Machine, m.globals = c.globals →
      Exec.perform instr (m.holding (kept ++ taken) c.frames) =
        Exec.deliver (.error fault) (m.holding kept c.frames)) :
    c.Fails chunk fault := by
  refine fails reads fun stackLimit frameLimit => ⟨kept, c.frames, ?_⟩
  rw [performing_holding, stack]
  exact performed _ rfl

theorem fails_jz {kept : List Value} {value : Value} {distance : Int}
    (reads : chunk.Reads c.offset (.jz distance)) (stack : c.stack = kept ++ [value])
    (other : value.kind ≠ .bool) : c.Fails chunk (.incompatibleOperands "if" [value.kind]) := by
  refine fails reads fun stackLimit frameLimit => ⟨kept, c.frames, ?_⟩
  rw [performing_holding, stack]
  exact Exec.perform_jz_other other

variable {name : String} {count : Nat}

theorem fails_invoke_missing (reads : chunk.Reads c.offset (.invoke name count))
    (missing : c.globals.find? name = none) : c.Fails chunk (.functionNotDefined name) :=
  fails reads fun _ _ => ⟨c.stack, c.frames, Exec.perform_invoke_missing missing⟩

theorem fails_invoke_other {value : Value} (reads : chunk.Reads c.offset (.invoke name count))
    (found : c.globals.find? name = some value) (other : value.kind ≠ .function) :
    c.Fails chunk (.notCallable name value.kind) :=
  fails reads fun _ _ => ⟨c.stack, c.frames, Exec.perform_invoke_other found other⟩

theorem fails_invoke_arity {function : Function}
    (reads : chunk.Reads c.offset (.invoke name count))
    (found : c.globals.find? name = some (.function function))
    (wrong : (count : Int) ≠ function.arity) :
    c.Fails chunk (.arityMismatch name function.arity count) :=
  fails reads fun _ _ => ⟨c.stack, c.frames, Exec.perform_invoke_arity found wrong⟩

end Faults

/-- The instruction to stop ends the program. -/
theorem exits {bare : Opcode.exit.operands = []} (reads : chunk.Reads c.offset (.plain .exit bare))
    (stackLimit frameLimit : Nat) :
    ∃ later, ((c.machine chunk).limited stackLimit frameLimit).step = (later, .ok false) ∧
      later.halted ∧ later.stack.toList = c.stack ∧ later.frames.toList = c.frames ∧
        later.globals = c.globals ∧ later.output.toList = c.output :=
  ⟨_, ((faces reads stackLimit frameLimit).step_eq).trans
    (congrArg Machine.finish Exec.perform_exit), rfl, rfl, rfl, rfl, rfl⟩

end Config

end StackScript
