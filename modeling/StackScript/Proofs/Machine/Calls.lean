/-
# Calls

A call puts its return address below the arguments and its frame above it. Until
it returns, whatever other calls there are in between, nothing from the address
down is touched. The step that returns cannot fail; it leaves the result where
the arguments were, and the program goes on behind the call.
-/

import StackScript.Proofs.Machine.Safety

namespace StackScript

open Line (Reaches)

/-- The floor of a call is its return address. -/
def Floor.calling (kept : List Value) (frames : List Nat) (offset start : Nat) : Floor :=
  { stack := kept ++ [.pointer (offset + 2 : Nat)]
    frames := frames ++ [kept.length + 1]
    home := some start }

theorem Floor.anchored_calling (kept : List Value) (frames : List Nat) (offset start : Nat) :
    (calling kept frames offset start).Anchored :=
  fun _ => ⟨frames, by simp [calling]⟩

namespace Machine

variable {chunk : Chunk} {lines : List Line} {floor : Floor} {m : Machine} {kept : List Value}
  {frames : List Nat} {back start offset : Nat} {line : Line}

/-- A machine that has left alone what is below a floor. -/
def Above (chunk : Chunk) (lines : List Line) (floor : Floor) (m : Machine) : Prop :=
  (m.halted ∧ floor.stack <+: m.stack.toList ∧ floor.frames <+: m.frames.toList) ∨
    ∃ offset line, Sound chunk lines floor offset line m

theorem Above.untouched (h : Above chunk lines floor m) (anchored : floor.Anchored) :
    floor.stack <+: m.stack.toList ∧ floor.frames <+: m.frames.toList := by
  rcases h with ⟨-, untouched⟩ | ⟨offset, line, sound⟩
  · exact untouched
  · obtain ⟨below, values, stack, -, -, -, onStack, onFrames, -⟩ :=
      sound.stacked.innermost anchored
    rw [stack]
    exact ⟨onStack.trans (List.prefix_append _ _), onFrames⟩

/-- A step stays above the floor, unless it returns from the call. -/
theorem Above.step (h : Above chunk lines floor m) (runs : chunk.Runs lines)
    (anchored : floor.Anchored) (inside : floor.home.isSome) :
    Above chunk lines floor m.step.1 ∨
      ∃ offset line, Sound chunk lines floor offset line m ∧ Sound.Returning lines floor line m := by
  rcases h with ⟨halted, untouched⟩ | ⟨offset, line, sound⟩
  · rw [step_halted halted]
    exact .inl (.inl ⟨halted, untouched⟩)
  · rcases sound.step runs.assembled runs.closed anchored with proceeds | returning
    · left
      generalize m.step = result at proceeds
      obtain ⟨later, outcome⟩ := result
      match outcome with
      | .ok true => exact .inr proceeds
      | .ok false =>
          rw [proceeds.2.1] at inside
          cases inside
      | .error fault => exact .inl proceeds.2
    · exact .inr ⟨offset, line, sound, returning⟩

/-- The step that returns. -/
theorem Sound.returns
    (h : Sound chunk lines (.calling kept frames back start) offset line m)
    (runs : chunk.Runs lines) (returning : Returning lines (.calling kept frames back start) line m)
    {mark : Mark} (reached : Reaches lines (back + 3) mark) :
    ∃ value later, m.step = (later, .ok true) ∧ m.stack.back? = some value ∧
      later.stack.toList = kept ++ [value] ∧ later.frames.toList = frames ∧
      later.ip = (back + 3 : Nat) := by
  obtain ⟨instr, means, faces⟩ := h.faces runs.assembled
  obtain ⟨locals, value, stack, -⟩ := returning.stack
  obtain ⟨bare, rfl⟩ := Instr.eq_plain rfl (means.op_eq.trans returning.op)
  have split : m.stack.toList = kept ++ .pointer (back + 2 : Nat) :: locals ++ [value] := by
    rw [stack]
    simp [Floor.calling]
  have goes_on := h.finish_reached runs.assembled
    { (m.begun offset (.plain .ret bare)).holding (kept ++ [value]) frames with
      ip := (back + 2 : Nat) } ⟨rfl, rfl, rfl, rfl⟩ (by simp; rfl) reached
  rw [step_returned faces split returning.frames h.fits, goes_on]
  refine ⟨value, _, rfl, ?_, rfl, rfl, rfl⟩
  rw [← Array.getLast?_toList, split, List.getLast?_concat]

/-- As long as there are more frames than before the call, it has not returned. -/
theorem Above.after (h : Above chunk lines (.calling kept frames back start) m)
    (runs : chunk.Runs lines) {mark : Mark} (reached : Reaches lines (back + 3) mark) (steps : Nat)
    (deeper : ∀ earlier ≤ steps, frames.length < (m.after earlier).frames.size) :
    Above chunk lines (.calling kept frames back start) (m.after steps) := by
  induction steps with
  | zero => exact h
  | succ steps ih =>
      have above := ih fun earlier least => deeper earlier (Nat.le_succ_of_le least)
      rcases above.step runs (Floor.anchored_calling _ _ _ _) rfl with
        above | ⟨offset, line, sound, returning⟩
      · exact above
      · obtain ⟨value, later, step_eq, -, -, onFrames, -⟩ := sound.returns runs returning reached
        have more := deeper (steps + 1) (Nat.le_refl _)
        rw [Machine.after, step_eq, ← Array.length_toList, onFrames] at more
        exact absurd more (Nat.lt_irrefl _)

/-- How a call with some arguments on top of the stack goes on. -/
structure Isolated (m : Machine) (offset count : Nat) (kept taken : List Value) : Prop where
  stack : m.stack.toList = kept ++ taken
  length : taken.length = count
  /-- The arguments stay in their order, above the return address. -/
  entered : m.step.1.stack.toList = kept ++ .pointer (offset + 2 : Nat) :: taken ∧
    m.step.1.frames.toList = m.frames.toList ++ [kept.length + 1]
  /-- Nothing below the arguments changes until the call returns. -/
  pending : ∀ steps,
    (∀ earlier ≤ steps, m.frames.size < (m.step.1.after earlier).frames.size) →
      kept ++ [.pointer (offset + 2 : Nat)] <+: (m.step.1.after steps).stack.toList ∧
        m.frames.toList ++ [kept.length + 1] <+: (m.step.1.after steps).frames.toList
  /-- The step that returns succeeds, and leaves nothing of the call but its result. -/
  returns : ∀ steps,
    (∀ earlier ≤ steps, m.frames.size < (m.step.1.after earlier).frames.size) →
      (m.step.1.after (steps + 1)).frames.size ≤ m.frames.size →
        (m.step.1.after steps).step.2 = .ok true ∧
          ∃ value, (m.step.1.after steps).stack.back? = some value ∧
            (m.step.1.after (steps + 1)).stack.toList = kept ++ [value] ∧
            (m.step.1.after (steps + 1)).frames = m.frames ∧
            (m.step.1.after (steps + 1)).ip = (offset + 3 : Nat)

/-- A call that succeeds in a sound state is isolated. -/
theorem Sound.isolated (h : Sound chunk lines .ground offset line m) (runs : chunk.Runs lines)
    {name : String} {count : Nat}
    (same : line.instr = .invoke name count) (succeeds : m.step.2 = .ok true) :
    ∃ kept taken, m.Isolated offset count kept taken := by
  obtain ⟨instr, means, faces⟩ := h.faces runs.assembled
  obtain rfl : instr = .invoke name count := by simpa [same, Instr.Means] using means
  obtain ⟨enough, behind⟩ := runs.closed _ h.listed
  rw [same] at enough
  simp only [same, Line.size] at behind
  obtain ⟨kept, taken, split⟩ := h.take Floor.anchored_ground enough
  have invoked := h.invoked runs.assembled runs.closed same faces split
  generalize stepped : m.step = result at invoked succeeds
  cases invoked with
  | refused | halfway => cases succeeds
  | @entered start reached room =>
      have size : taken.length = count := split.length
      subst size
      have stacked : Stacked lines (.calling kept m.frames.toList offset start) _ _ _ :=
        .base split.known
      have room' : (kept ++ [Value.pointer (offset + 2 : Nat)] ++ taken).length ≤ m.stackLimit := by
        simp only [List.length_append, List.length_singleton]
        omega
      obtain ⟨next, sound⟩ := h.entered line.instr reached room' stacked rfl
      have above : Above chunk lines (.calling kept m.frames.toList offset start) m.step.1 := by
        rw [stepped]
        refine .inr ⟨start, next, ?_⟩
        simpa [Floor.calling] using sound
      have anchored' := Floor.anchored_calling kept m.frames.toList offset start
      refine ⟨kept, taken, split.stack, rfl, ?_, ?_, ?_⟩
      · rw [stepped]
        exact ⟨rfl, rfl⟩
      · intro steps deeper
        exact (above.after runs behind steps deeper).untouched anchored'
      · intro steps deeper returned
        rcases (above.after runs behind steps deeper).step runs anchored' rfl with
          above | ⟨last, retLine, sound, returning⟩
        · have untouched := (above.untouched anchored').2.length_le
          simp only [Floor.calling, List.length_append, List.length_singleton] at untouched
          exact absurd (Nat.lt_of_lt_of_le (Nat.lt_succ_self _) untouched) (Nat.not_lt.mpr returned)
        · obtain ⟨value, later, step_eq, top, onStack, onFrames, ip⟩ :=
            sound.returns runs returning behind
          rw [Machine.after, step_eq]
          exact ⟨rfl, value, top, onStack, Array.toList_inj.mp onFrames, ip⟩

end Machine

/-- Calls are isolated: whatever was added to the chunk before, whatever limits the
machine has and wherever it has got to, a call that succeeds does not touch what is below
its arguments, and its return leaves exactly one value in their place. -/
theorem Chunk.Built.calls_isolated {poolSize limit bytes : Nat} {chunk whole : Chunk}
    {ranges : List (Nat × Nat)} {program : List Node} (small : poolSize ≤ Chunk.maxPoolSize)
    (built : Chunk.Built poolSize chunk ranges)
    (added : chunk.addProgram limit program = (whole, .ok bytes))
    (stackLimit frameLimit steps : Nat) {m : Machine}
    (reached : m = ((Machine.new stackLimit frameLimit).load whole).after steps)
    {offset id count : Nat} (ip : m.ip = offset)
    (found : whole.Has offset .invoke [(id : Int), (count : Int)])
    (succeeds : m.step.2 = .ok true) :
    ∃ kept taken, m.Isolated offset count kept taken := by
  obtain ⟨lines, runs⟩ := built.runs small added
  have steady := (Machine.steady_load runs stackLimit frameLimit).after runs rfl steps
  rw [← reached] at steady
  rcases steady with halted | ⟨start, line, sound⟩
  · rw [Machine.step_halted halted] at succeeds
    cases succeeds
  · obtain rfl : start = offset := Int.natCast_inj.mp (sound.ip.symm.trans ip)
    obtain ⟨other, listed, op, resolves⟩ := runs.assembled.line_of_has found
    obtain rfl := Line.placed_unique sound.listed listed
    obtain ⟨name, same⟩ : ∃ name, line.instr = .invoke name count := by
      cases same : line.instr with
      | invoke name count' =>
          rw [same] at resolves
          obtain ⟨id', operands, -⟩ := resolves
          obtain ⟨-, sameCount, -⟩ := List.cons.inj operands |>.imp_right List.cons.inj
          exact ⟨name, by rw [Int.natCast_inj.mp sameCount]⟩
      | plain op' bare =>
          rw [same] at op
          obtain rfl : op' = .invoke := op
          cases bare
      | _ =>
          rw [same] at op
          cases op
    exact sound.isolated runs same succeeds

/-- The call of a program comes after the definition of the function and the argument. -/
theorem Chunk.calls_isolated_identity :
    ∃ whole, (Chunk.empty 256).addProgram 10 Node.callIdentity = (whole, .ok 16) ∧
      ∃ kept taken,
        (((Machine.new 4 4).load whole).after 3).Isolated 11 1 kept taken := by
  have added : (Chunk.empty 256).addProgram 10 Node.callIdentity =
      (((Chunk.empty 256).addProgram 10 Node.callIdentity).1, .ok 16) :=
    Chunk.eq_ok_of_bytes (by decide +kernel)
  have found : ((Chunk.empty 256).addProgram 10 Node.callIdentity).1.Has 11 .invoke
      [((0 : Nat) : Int), ((1 : Nat) : Int)] := by
    have entries : (((Chunk.empty 256).addProgram 10 Node.callIdentity).1.code.decode 0).entries[5]? =
        some (11, .instruction .invoke [((0 : Nat) : Int), ((1 : Nat) : Int)]) := by decide +kernel
    exact List.mem_of_getElem? entries
  have ip : (((Machine.new 4 4).load
      ((Chunk.empty 256).addProgram 10 Node.callIdentity).1).after 3).ip = (11 : Nat) := by decide +kernel
  exact ⟨_, added,
    Chunk.Built.calls_isolated (by decide) .empty added 4 4 3 rfl ip found (by decide +kernel)⟩

end StackScript
