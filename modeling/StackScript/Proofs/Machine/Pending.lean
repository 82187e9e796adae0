/-
# Pending calls

The calls that have not returned form a chain: each has a frame, and the address that it returns to
lies below the frame. A step leaves the chain as it is, unless it adds a call at the end or returns
from the last one; a call that there is no room for may fail after it has been added.
-/

import StackScript.Machine.Trace
import StackScript.Proofs.Machine.Calls
import StackScript.Proofs.Machine.Decoding

namespace StackScript

open Line (placed Reaches)

/-- A frame belongs to the call at an offset: the return address lies just below it. -/
structure Pending (chunk : Chunk) (stack : List Value) (frame call : Nat) : Prop where
  positive : 0 < frame
  address : stack[frame - 1]? = some (.pointer (call + 2 : Nat))
  isCall : ∃ operands, chunk.Has call .invoke operands

/-- The frames on a stack belong to some calls, the outermost of which comes first. -/
def Awaits (chunk : Chunk) (stack : List Value) (frames calls : List Nat) : Prop :=
  List.Forall₂ (Pending chunk stack) frames calls

section Awaits

variable {chunk : Chunk} {stack more : List Value} {frames calls : List Nat} {frame call : Nat}

theorem Pending.mono (h : Pending chunk stack frame call) (onStack : stack <+: more) :
    Pending chunk more frame call := by
  obtain ⟨rest, rfl⟩ := onStack
  refine ⟨h.positive, ?_, h.isCall⟩
  obtain ⟨within, -⟩ := List.getElem?_eq_some_iff.mp h.address
  rw [List.getElem?_append_left within]
  exact h.address

theorem Awaits.mono (h : Awaits chunk stack frames calls) (onStack : stack <+: more) :
    Awaits chunk more frames calls :=
  List.Forall₂.imp (fun _ _ pending => pending.mono onStack) h

/-- A call is added with its address and its frame. -/
theorem Awaits.add (h : Awaits chunk stack frames calls) {operands : List Int}
    (isCall : chunk.Has call .invoke operands) :
    Awaits chunk (stack ++ [.pointer (call + 2 : Nat)]) (frames ++ [stack.length + 1])
      (calls ++ [call]) := by
  have added : Pending chunk (stack ++ [.pointer (call + 2 : Nat)]) (stack.length + 1) call :=
    ⟨Nat.succ_pos _, by simp, operands, isCall⟩
  exact List.rel_append (h.mono (List.prefix_append _ _)) (.cons added .nil)

end Awaits

/-- The floor of the innermost call that has not returned, with all the calls that there are. -/
inductive Innermost (chunk : Chunk) (lines : List Line) : Floor → List Nat → Prop
  | outside : Innermost chunk lines .ground []
  | inside {kept : List Value} {frames calls : List Nat} {back start count : Nat} {line : Line}
      {name : String} : Awaits chunk kept frames calls → (back, line) ∈ placed 0 lines →
        line.instr = .invoke name count →
          Innermost chunk lines (.calling kept frames back start) (calls ++ [back])

section Innermost

variable {chunk : Chunk} {lines : List Line} {floor : Floor} {calls : List Nat} {mark : Mark}
  {stack : List Value} {frames : List Nat}

theorem Chunk.Assembled.has_invoke (h : chunk.Assembled lines) {offset count : Nat} {line : Line}
    {name : String} (mem : (offset, line) ∈ placed 0 lines)
    (same : line.instr = .invoke name count) :
    ∃ operands, chunk.Has offset .invoke operands := by
  obtain ⟨operands, found, -⟩ := h.mem_of_line mem
  rw [same] at found
  exact ⟨operands, found⟩

theorem Innermost.anchored (h : Innermost chunk lines floor calls) : floor.Anchored := by
  cases h with
  | outside => exact Floor.anchored_ground
  | inside => exact Floor.anchored_calling _ _ _ _

/-- A program lets no return address stray. -/
theorem Innermost.strays_eq (h : Innermost chunk lines floor calls) : floor.strays = False := by
  cases h <;> rfl

theorem Innermost.awaits (h : Innermost chunk lines floor calls)
    (assembled : chunk.Assembled lines) : Awaits chunk floor.stack floor.frames calls := by
  cases h with
  | outside => exact .nil
  | inside awaits mem isInvoke =>
      obtain ⟨operands, isCall⟩ := assembled.has_invoke mem isInvoke
      exact awaits.add isCall

/-- What lies above the innermost call are its values. -/
theorem Stacked.above (h : Stacked lines .ground mark stack frames)
    (assembled : chunk.Assembled lines) :
    ∃ floor calls values, Innermost chunk lines floor calls ∧ floor.frames = frames ∧
      stack = floor.stack ++ values ∧ mark = ⟨floor.home, values.length⟩ ∧
      ∀ value ∈ values, value.Known lines floor.strays := by
  induction h with
  | base known => exact ⟨.ground, [], _, .outside, rfl, rfl, rfl, known⟩
  | @call caller below values frames offset start line name count outer mem isInvoke _ known ih =>
      obtain ⟨floor, calls, others, innermost, rfl, rfl, -, -⟩ := ih
      have awaits := (innermost.awaits assembled).mono (List.prefix_append floor.stack others)
      refine ⟨.calling (floor.stack ++ others) floor.frames offset start, calls ++ [offset], values,
        .inside awaits mem isInvoke, rfl, ?_, rfl, known⟩
      simp [Floor.calling]

end Innermost

namespace Machine

variable {chunk : Chunk} {lines : List Line} {floor : Floor} {calls : List Nat} {m : Machine}
  {offset : Nat} {line : Line}

section Backtrace

variable {place : Location} {sites : List Location}

/-- The place of an instruction, and the places of the calls that have not returned in some state,
the innermost of which comes first. -/
structure Backtrace (chunk : Chunk) (m : Machine) (offset : Int) (place : Location)
    (sites : List Location) : Prop where
  place : chunk.locate offset = some place
  sites : ∃ calls, Awaits chunk m.stack.toList m.frames.toList calls ∧
    List.Forall₂ (fun (call : Nat) site => chunk.locate call = some site) calls.reverse sites

theorem Backtrace.length_eq {start : Int} (h : Backtrace chunk m start place sites) :
    sites.length = m.frames.size := by
  obtain ⟨calls, awaits, located⟩ := h.sites
  rw [← located.length_eq, List.length_reverse, ← awaits.length_eq, Array.length_toList]

/-- The call that a frame belongs to is found by its return address. -/
theorem callOffset?_of_pending {frame call : Nat} (h : Pending chunk m.stack.toList frame call) :
    m.callOffset? frame = some (call : Int) := by
  obtain ⟨positive, address, -⟩ := h
  obtain ⟨below, rfl⟩ := Nat.exists_eq_add_of_le' positive
  rw [Array.getElem?_toList, Nat.add_sub_cancel] at address
  have width : Opcode.invoke.size = 3 := rfl
  have back : ((call + 2 : Nat) : Int) - (Opcode.invoke.size - 1 : Nat) = call := by omega
  simp only [callOffset?, address, back]

theorem filterMap_of_forall₂ {α β : Type} {f : α → Option β} {xs : List α} {ys : List β}
    (h : List.Forall₂ (fun x y => f x = some y) xs ys) : xs.filterMap f = ys := by
  induction h with
  | nil => rfl
  | cons found _ ih => rw [List.filterMap_cons_some found, ih]

theorem exists_forall₂ {α β : Type} {f : α → Option β} {xs : List α} (h : ∀ x ∈ xs, (f x).isSome) :
    ∃ ys, List.Forall₂ (fun x y => f x = some y) xs ys := by
  induction xs with
  | nil => exact ⟨[], .nil⟩
  | cons x xs ih =>
      obtain ⟨y, found⟩ := Option.isSome_iff_exists.mp (h x List.mem_cons_self)
      obtain ⟨ys, rest⟩ := ih fun x mem => h x (List.mem_cons_of_mem _ mem)
      exact ⟨y :: ys, .cons found rest⟩

/-- The machine finds all the calls that have not returned. -/
theorem filterMap_callOffset? (awaits : Awaits chunk m.stack.toList m.frames.toList calls) :
    m.frames.toList.filterMap m.callOffset? = calls.map Int.ofNat := by
  apply filterMap_of_forall₂
  rw [List.forall₂_map_right_iff]
  exact awaits.imp fun _ _ pending => callOffset?_of_pending pending

/-- A trace shows where the machine is and where it has been called from. -/
theorem Backtrace.trace_eq (h : Backtrace chunk m m.offset place sites)
    (loaded : m.chunk = some chunk) : m.trace = place :: sites := by
  obtain ⟨calls, awaits, located⟩ := h.sites
  have offsets : m.frames.toList.reverse.filterMap m.callOffset? = calls.reverse.map Int.ofNat := by
    rw [List.filterMap_reverse, filterMap_callOffset? awaits, List.map_reverse]
  have places : (calls.reverse.map Int.ofNat).filterMap chunk.locate = sites := by
    apply filterMap_of_forall₂
    rw [List.forall₂_map_left_iff]
    exact located
  simp only [trace, loaded, offsets, List.filterMap_cons_some h.place, places]

/-- Where every call has a place, so have those that have not returned. -/
theorem exists_sites {stack : List Value} {frames calls : List Nat}
    (awaits : Awaits chunk stack frames calls)
    (located : ∀ call operands, chunk.Has call .invoke operands → (chunk.locate call).isSome) :
    ∃ sites, List.Forall₂ (fun (call : Nat) site => chunk.locate call = some site)
      calls.reverse sites := by
  apply exists_forall₂
  intro call mem
  obtain ⟨frame, -, pending⟩ := Chunk.exists_counterpart awaits.flip (List.mem_reverse.mp mem)
  obtain ⟨operands, isCall⟩ := pending.isCall
  exact located call operands isCall

end Backtrace

/-- How a step changes the calls that have not returned. -/
inductive Shift (chunk : Chunk) (calls : List Nat) (offset : Nat) (line : Line) (m : Machine) :
    Machine × Except Fault Bool → Prop
  | onward {after : Machine} {distance : Int} :
      Awaits chunk after.stack.toList after.frames.toList calls →
        after.ip = (offset + line.size : Nat) + distance →
          distance = 0 ∨ line.instr = .jmp distance ∨ line.instr = .jz distance →
            Shift chunk calls offset line m (after, .ok true)
  | enters {after : Machine} :
      Awaits chunk after.stack.toList after.frames.toList (calls ++ [offset]) →
        Shift chunk calls offset line m (after, .ok true)
  | returns {after : Machine} {earlier : List Nat} {back : Nat} : calls = earlier ++ [back] →
      Awaits chunk after.stack.toList after.frames.toList earlier → after.ip = (back + 3 : Nat) →
        Shift chunk calls offset line m (after, .ok true)
  | stops : line.instr.op = .exit →
      Shift chunk calls offset line m ({ m with offset := offset, halted := true }, .ok false)
  | fails {after : Machine} {fault : Fault} :
      Awaits chunk after.stack.toList after.frames.toList calls →
        (line.instr.op = .invoke → fault = .stackOverflow → line.instr.takes = 0) →
          Shift chunk calls offset line m (after, .error fault)
  /-- A call has been added, but there is no room for its arguments. -/
  | halfway {after : Machine} : line.instr.op = .invoke → 0 < line.instr.takes →
      Awaits chunk after.stack.toList after.frames.toList (calls ++ [offset]) →
        Shift chunk calls offset line m (after, .error .stackOverflow)

/-- An instruction that stays within its call leaves the frames alone, whatever comes of it. -/
theorem Faces.frames_step {instr : Instr} (faces : m.Faces chunk offset instr)
    (stays : instr.op.switches = false) : m.step.1.frames = m.frames := by
  have inCall := Exec.perform_inCall (m := m.begun offset instr) stays
  rw [faces.step_eq]
  cases outcome : Exec.perform instr (m.begun offset instr) with
  | ok value later =>
      rw [outcome, Exec.ends_ok] at inCall
      rw [finish]
      split
      · exact inCall.frames
      · split <;> exact inCall.frames
  | error fault later =>
      rw [outcome, Exec.ends_error] at inCall
      exact inCall.frames

/-- A sound state, seen from the call that it is in. -/
structure Inside (chunk : Chunk) (lines : List Line) (floor : Floor) (calls : List Nat)
    (offset : Nat) (line : Line) (values : List Value) (m : Machine) : Prop
    extends Sound chunk lines floor offset line m where
  innermost : Innermost chunk lines floor calls
  frames : m.frames.toList = floor.frames
  stack : m.stack.toList = floor.stack ++ values
  mark : line.mark = ⟨floor.home, values.length⟩
  known : ∀ value ∈ values, value.Known lines floor.strays

theorem Sound.inside (h : Sound chunk lines .ground offset line m)
    (assembled : chunk.Assembled lines) :
    ∃ floor calls values, Inside chunk lines floor calls offset line values m := by
  obtain ⟨floor, calls, values, innermost, frames, stack, mark, known⟩ := h.stacked.above assembled
  refine ⟨floor, calls, values,
    { h with
      innermost, stack, mark, known
      frames := frames.symm
      stacked := ?_
      globals := innermost.strays_eq ▸ h.globals }⟩
  rw [mark, stack, ← frames]
  exact .base known

namespace Inside

variable {values : List Value} (h : Inside chunk lines floor calls offset line values m)

include h

theorem awaits (assembled : chunk.Assembled lines) :
    Awaits chunk m.stack.toList m.frames.toList calls := by
  rw [h.stack, h.frames]
  exact (h.innermost.awaits assembled).mono (List.prefix_append _ _)

/-- A step at an instruction that stays within the call. -/
theorem shift_stays (runs : chunk.Runs lines) (stays : line.instr.op.switches = false) :
    Shift chunk calls offset line m m.step := by
  obtain ⟨instr, means, faces⟩ := h.faces runs.assembled
  have sameOp := means.op_eq
  have frames := faces.frames_step (sameOp ▸ stays)
  have awaits := h.innermost.awaits runs.assembled
  have proceeds : Proceeds chunk lines floor line m.step := by
    rcases h.step runs.assembled runs.closed h.innermost.anchored with proceeds | returning
    · exact proceeds
    · rw [returning.op] at stays
      cases stays
  have onward (after : Machine) (goesOn : Bool) (succeeds : m.step = (after, .ok goesOn)) :=
    continues_of_step h.running faces.step_eq succeeds
  generalize m.step = result at proceeds frames onward
  obtain ⟨after, outcome⟩ := result
  replace frames : after.frames.toList = floor.frames := by rw [frames, h.frames]
  match outcome with
  | .ok true =>
      have untouched := Above.untouched (.inr proceeds) h.innermost.anchored
      obtain ⟨distance, ip, jump⟩ := (onward after true rfl).distance (sameOp ▸ stays)
      refine .onward ?_ (by rw [Line.size, ← sameOp]; exact ip) (jump.imp_right fun jump => ?_)
      · rw [frames]
        exact awaits.mono untouched.1
      · rcases jump with rfl | rfl
        · exact .inl (means.eq_of_jump rfl)
        · exact .inr (means.eq_of_jump rfl)
  | .ok false =>
      rw [proceeds.1] at stays
      cases stays
  | .error fault =>
      refine .fails ?_ fun isInvoke => ?_
      · rw [frames]
        exact awaits.mono proceeds.2.2.1
      · rw [isInvoke] at stays
        cases stays

/-- A step at a call. -/
theorem shift_invoke (runs : chunk.Runs lines) {name : String} {count : Nat}
    (same : line.instr = .invoke name count) : Shift chunk calls offset line m m.step := by
  obtain ⟨instr, means, faces⟩ := h.faces runs.assembled
  obtain rfl : instr = .invoke name count := by simpa [same, Instr.Means] using means
  have enough := (runs.closed _ h.listed).1
  rw [same] at enough
  obtain ⟨kept, taken, split⟩ := h.take h.innermost.anchored enough
  obtain ⟨operands, isCall⟩ := runs.assembled.has_invoke h.listed same
  have awaits : Awaits chunk kept m.frames.toList calls := by
    rw [h.frames]
    exact (h.innermost.awaits runs.assembled).mono split.onStack
  have added (above : List Value) : Awaits chunk (kept ++ .pointer (offset + 2 : Nat) :: above)
      (m.frames.toList ++ [kept.length + 1]) (calls ++ [offset]) :=
    (awaits.add isCall).mono ⟨above, by simp⟩
  have takes : line.instr.takes = taken.length := by
    rw [same, split.length]
  have invoked := h.invoked runs.assembled runs.closed same faces split
  generalize m.step = result at invoked
  cases invoked with
  | entered reached room => exact .enters (added taken)
  | refused benign halted onStack frames overflow =>
      refine .fails ?_ fun _ full => ?_
      · rw [frames]
        exact awaits.mono onStack
      · rw [takes, overflow full]
        rfl
  | @halfway after pushed some_argument halted stack frames =>
      refine .halfway (by rw [same]; rfl) (takes ▸ List.length_pos_iff.mpr some_argument) ?_
      rw [stack, frames]
      exact added pushed

/-- A step at the end of a function. -/
theorem shift_ret (runs : chunk.Runs lines) (isRet : line.instr.op = .ret) :
    Shift chunk calls offset line m m.step := by
  obtain ⟨bare, same⟩ := Instr.eq_plain rfl isRet
  obtain ⟨enough, inside⟩ := runs.closed _ h.listed
  simp only [same, h.mark, Instr.takes] at enough inside
  obtain ⟨locals, value, rfl⟩ := Sound.exists_last enough
  have returning : Sound.Returning lines floor line m :=
    ⟨isRet, inside, ⟨locals, value, by rw [h.stack, List.append_assoc], h.known value (by simp)⟩,
      h.frames⟩
  have sound := h.toSound
  cases h.innermost with
  | outside => cases inside
  | @inside kept frames calls back start count callLine name awaits mem isInvoke =>
      have reached := (runs.closed _ mem).2
      simp only [isInvoke, Line.size] at reached
      obtain ⟨result, later, step_eq, -, stack, frames, ip⟩ := sound.returns runs returning reached
      rw [step_eq]
      refine .returns rfl ?_ ip
      rw [stack, frames]
      exact awaits.mono (List.prefix_append _ _)

/-- What a step does to the calls that have not returned. -/
theorem shift (runs : chunk.Runs lines) : Shift chunk calls offset line m m.step := by
  by_cases stays : line.instr.op.switches = false
  · exact h.shift_stays runs stays
  · cases isOp : line.instr.op with
    | invoke =>
        obtain ⟨name, count, same⟩ := Instr.eq_invoke isOp
        exact h.shift_invoke runs same
    | ret => exact h.shift_ret runs isOp
    | exit =>
        rw [h.step_exit runs.assembled isOp]
        exact .stops isOp
    | _ =>
        rw [isOp] at stays
        exact absurd rfl stays

end Inside

end Machine

end StackScript
