/-
# The chain of frames

In every state that a program comes to, the frames lie one above the other, each on the return
address of a call, and there are no return addresses elsewhere: no variable has one, and no
instruction takes one off the stack but the one that returns. Functions are those that the code
defines. A trace shows the instruction that was executed last and all calls that have not returned.
-/

import StackScript.Proofs.Machine.Pending

namespace StackScript

open Line (placed)

/-- What is found in place of an instruction takes as many values. -/
theorem Instr.Means.takes_eq {instr actual : Instr} (h : instr.Means actual) :
    actual.takes = instr.takes := by
  cases instr with
  | const value =>
      obtain ⟨entry, rfl, -⟩ := h
      rfl
  | _ => exact congrArg Instr.takes h

namespace Stacked

variable {lines : List Line} {mark : Mark} {stack : List Value} {frames : List Nat}

/-- The frame of a call starts above all others, and within the stack. -/
theorem ordered (h : Stacked lines .ground mark stack frames) :
    frames.Pairwise (· < ·) ∧ ∀ frame ∈ frames, frame ≤ stack.length := by
  induction h with
  | base known => exact ⟨.nil, nofun⟩
  | @call caller below values frames offset start line name count outer mem isInvoke _ known ih =>
      obtain ⟨ordered, within⟩ := ih
      constructor
      · rw [List.pairwise_append]
        refine ⟨ordered, List.pairwise_singleton _ _, ?_⟩
        intro frame earlier other last
        rw [List.mem_singleton.mp last]
        exact Nat.lt_succ_of_le (within frame earlier)
      · intro frame mem
        rw [List.length_append, List.length_cons]
        rcases List.mem_append.mp mem with earlier | last
        · have := within frame earlier
          omega
        · rw [List.mem_singleton.mp last]
          omega

/-- A value that the program has come to, or a return address right below a frame. -/
theorem value_cases (h : Stacked lines .ground mark stack frames) {place : Nat} {value : Value}
    (found : stack[place]? = some value) :
    value.Known lines False ∨ (∃ target, value = .pointer target) ∧ place + 1 ∈ frames := by
  induction h with
  | base known => exact .inl (known value (List.mem_of_getElem? found))
  | @call caller below values frames offset start line name count outer mem isInvoke _ known ih =>
      rcases Nat.lt_trichotomy place below.length with lower | rfl | upper
      · rw [List.getElem?_append_left lower] at found
        exact (ih found).imp_right fun h => ⟨h.1, List.mem_append_left _ h.2⟩
      · rw [List.getElem?_append_right (Nat.le_refl _), Nat.sub_self] at found
        cases found
        exact .inr ⟨⟨_, rfl⟩, List.mem_append_right _ (List.mem_singleton_self _)⟩
      · obtain ⟨above, rfl⟩ := Nat.exists_eq_add_of_lt upper
        rw [List.getElem?_append_right (by omega),
          show below.length + above + 1 - below.length = above + 1 by omega] at found
        exact .inl (known value (List.mem_of_getElem? found))

end Stacked

/-- A function that a program can come to is defined by its code. -/
theorem Chunk.Assembled.has_func {chunk : Chunk} {lines : List Line} (h : chunk.Assembled lines)
    {callee : Function} (known : Value.Known lines False (.function callee)) :
    ∃ offset id arity start : Nat,
      chunk.Has offset .func [(id : Int), (arity : Int), (start : Int)] ∧
        chunk.strings.get? id = some callee.name ∧ callee.arity = arity ∧ callee.start = start := by
  obtain ⟨offset, line, arity, start, mem, same, sameArity, sameStart⟩ := known
  obtain ⟨operands, found, resolves⟩ := h.mem_of_line mem
  rw [same] at found resolves
  obtain ⟨id, rfl, named⟩ := resolves
  exact ⟨offset, id, arity, start, found, named, sameArity, sameStart⟩

namespace Machine

/-- What can be said of the frames and the values in a state of a program. -/
structure Chained (chunk : Chunk) (m : Machine) : Prop where
  ordered : m.frames.toList.Pairwise (· < ·)
  within : ∀ frame ∈ m.frames.toList, 1 ≤ frame ∧ frame ≤ m.stack.size
  /-- Below a frame is the return address of a call. -/
  returns : ∀ frame ∈ m.frames.toList, ∃ (call : Nat) (operands : List Int),
    m.stack[frame - 1]? = some (.pointer (call + 2 : Nat)) ∧ chunk.Has call .invoke operands
  /-- Nowhere else on the stack is a return address. -/
  confined : ∀ (place : Nat) (target : Int), m.stack[place]? = some (.pointer target) →
    place + 1 ∈ m.frames.toList
  globals : ∀ (name : String) (target : Int), m.globals.find? name ≠ some (.pointer target)
  /-- No instruction that the machine comes to is given a return address to work with. -/
  handled : m.halted = false → ∃ (offset : Nat) (instr : Instr) (kept taken : List Value),
    m.ip = offset ∧ chunk.Reads offset instr ∧ m.stack.toList = kept ++ taken ∧
      taken.length = instr.takes ∧ ∀ value ∈ taken, value.kind ≠ .pointer
  /-- A function has been defined by the code. -/
  functions : ∀ callee : Function,
    (.function callee ∈ m.stack.toList ∨ ∃ name, m.globals.find? name = some (.function callee)) →
      ∃ offset id arity start : Nat,
        chunk.Has offset .func [(id : Int), (arity : Int), (start : Int)] ∧
          chunk.strings.get? id = some callee.name ∧ callee.arity = arity ∧ callee.start = start

variable {chunk : Chunk} {lines : List Line} {m : Machine} {offset : Nat} {line : Line}

/-- A state that a program has come to is chained. -/
theorem Sound.chained (h : Sound chunk lines .ground offset line m) (runs : chunk.Runs lines) :
    m.Chained chunk where
  ordered := h.stacked.ordered.1
  within := by
    intro frame mem
    obtain ⟨floor, calls, values, inside⟩ := h.inside runs.assembled
    obtain ⟨call, -, pending⟩ := Chunk.exists_counterpart (inside.awaits runs.assembled) mem
    exact ⟨pending.positive, h.stacked.ordered.2 frame mem⟩
  returns := by
    intro frame mem
    obtain ⟨floor, calls, values, inside⟩ := h.inside runs.assembled
    obtain ⟨call, -, pending⟩ := Chunk.exists_counterpart (inside.awaits runs.assembled) mem
    obtain ⟨operands, isCall⟩ := pending.isCall
    exact ⟨call, operands, by simpa using pending.address, isCall⟩
  confined := by
    intro place target found
    rcases h.stacked.value_cases (by simpa using found) with known | ⟨-, mem⟩
    · exact known.elim
    · exact mem
  globals := fun name target found => h.globals name _ found
  handled := by
    intro _
    obtain ⟨instr, means, faces⟩ := h.faces runs.assembled
    obtain ⟨kept, taken, split⟩ := h.take Floor.anchored_ground (runs.closed _ h.listed).1
    refine ⟨offset, instr, kept, taken, h.ip, faces.reads, split.stack, ?_, ?_⟩
    · rw [split.length, means.takes_eq]
    · intro value mem isPointer
      have known := split.known value mem
      cases value with
      | pointer target => exact known
      | _ => cases isPointer
  functions := by
    rintro callee (mem | ⟨name, found⟩)
    · obtain ⟨place, found⟩ := List.mem_iff_getElem?.mp mem
      rcases h.stacked.value_cases found with known | ⟨⟨target, same⟩, -⟩
      · exact runs.assembled.has_func known
      · cases same
    · exact runs.assembled.has_func (h.globals name _ found)

/-- A machine on its way through a program, which has been stopped by the program at most. -/
inductive Ongoing (chunk : Chunk) (lines : List Line) : Machine → Prop
  | running {m : Machine} {offset : Nat} {line : Line} :
      Sound chunk lines .ground offset line m → Ongoing chunk lines m
  | stopped {m : Machine} {offset : Nat} {line : Line} : Sound chunk lines .ground offset line m →
      Ongoing chunk lines { m with offset := offset, halted := true }

theorem Ongoing.chained (h : Ongoing chunk lines m) (runs : chunk.Runs lines) :
    m.Chained chunk := by
  cases h with
  | running sound => exact sound.chained runs
  | stopped sound => exact { sound.chained runs with handled := nofun }

/-- A step that does not fail leads on, or stops the machine. -/
theorem Ongoing.step (h : Ongoing chunk lines m) (runs : chunk.Runs lines)
    (clean : ∀ fault, m.step.2 ≠ .error fault) : Ongoing chunk lines m.step.1 := by
  cases h with
  | @running m offset line sound =>
      have proceeds := sound.step_outside runs rfl
      have stops := sound.step_exit runs.assembled
      generalize m.step = result at proceeds stops clean
      obtain ⟨after, outcome⟩ := result
      match outcome with
      | .ok true =>
          obtain ⟨next, nextLine, sound'⟩ := proceeds
          exact .running sound'
      | .ok false =>
          obtain ⟨rfl, -⟩ := Prod.mk.inj (stops proceeds.1)
          exact .stopped sound
      | .error fault => exact absurd rfl (clean fault)
  | stopped sound =>
      rw [step_halted rfl]
      exact .stopped sound

theorem Ongoing.after (h : Ongoing chunk lines m) (runs : chunk.Runs lines) {count : Nat}
    (clean : ∀ earlier < count, ∀ fault, (m.after earlier).step.2 ≠ .error fault) :
    Ongoing chunk lines (m.after count) := by
  induction count with
  | zero => exact h
  | succ count ih =>
      have earlier := ih fun earlier less => clean earlier (Nat.lt_succ_of_lt less)
      exact earlier.step runs (clean count (Nat.lt_succ_self _))

/-- After some steps, a trace shows the instruction that was executed last, from which on the
machine was halted, and the calls that have not returned. -/
def TracedAfter (chunk : Chunk) (first : Machine) (count : Nat) : Prop :=
  ∃ executed < count, (first.after executed).halted = false ∧
    (∀ between, executed < between → between < count → (first.after between).halted) ∧
      ∃ place sites,
        Backtrace chunk (first.after count) (first.after executed).ip place sites ∧
          (first.after count).trace = place :: sites ∧
            (first.after count).trace.length = 1 + (first.after count).frames.size

/-- The instruction that was executed last is the one that the machine remembers. -/
theorem exists_executed {first : Machine} (runs : chunk.Runs lines)
    (running : first.halted = false) (bounded : first.Bounded) {count : Nat} (made : 0 < count)
    (ongoing : ∀ earlier ≤ count, Ongoing chunk lines (first.after earlier)) :
    ∃ executed < count, (first.after executed).halted = false ∧
      (∀ between, executed < between → between < count → (first.after between).halted) ∧
        (first.after count).offset = (first.after executed).ip := by
  induction count with
  | zero => exact absurd made (Nat.lt_irrefl 0)
  | succ count ih =>
      cases halted : (first.after count).halted with
      | false =>
          refine ⟨count, Nat.lt_succ_self _, halted, fun between less more => by omega, ?_⟩
          have here := ongoing count (Nat.le_succ _)
          generalize same : first.after count = m at here halted
          cases here with
          | running sound =>
              have during := sound.during runs.assembled (same ▸ bounded.after count)
              rw [Machine.after, same, during.offset, sound.ip]
          | stopped => cases halted
      | true =>
          have stays : first.after (count + 1) = first.after count := by
            rw [Machine.after, step_halted halted]
          have earlier : 0 < count := by
            refine Nat.pos_of_ne_zero ?_
            rintro rfl
            cases halted.symm.trans running
          obtain ⟨executed, less, still, between, offset⟩ :=
            ih earlier fun earlier least => ongoing earlier (Nat.le_succ_of_le least)
          refine ⟨executed, Nat.lt_succ_of_lt less, still, ?_, stays ▸ offset⟩
          intro later more fewer
          rcases Nat.lt_succ_iff_lt_or_eq.mp fewer with fewer | rfl
          · exact between later more fewer
          · exact halted

theorem Ongoing.loaded (h : Ongoing chunk lines m) : m.chunk = some chunk := by
  cases h with
  | running sound => exact sound.loaded
  | stopped sound => exact sound.loaded

theorem Ongoing.awaits (h : Ongoing chunk lines m) (assembled : chunk.Assembled lines) :
    ∃ calls, Awaits chunk m.stack.toList m.frames.toList calls := by
  cases h with
  | running sound =>
      obtain ⟨floor, calls, values, inside⟩ := sound.inside assembled
      exact ⟨calls, inside.awaits assembled⟩
  | stopped sound =>
      obtain ⟨floor, calls, values, inside⟩ := sound.inside assembled
      exact ⟨calls, inside.awaits assembled⟩

/-- Where the instruction to stop has a place as well, traces are complete. -/
theorem tracedAfter {body : List Stmt} {last : Option Location} (legal : listLegal false body)
    (runs : chunk.Runs (listCode 0 .top body ++ [exitLine last])) (known : last.isSome)
    {first : Machine} (running : first.halted = false) (bounded : first.Bounded) {count : Nat}
    (made : 0 < count)
    (ongoing : ∀ earlier ≤ count,
      Ongoing chunk (listCode 0 .top body ++ [exitLine last]) (first.after earlier)) :
    TracedAfter chunk first count := by
  obtain ⟨executed, less, still, between, offset⟩ :=
    exists_executed runs running bounded made ongoing
  refine ⟨executed, less, still, between, ?_⟩
  have here : (chunk.locate (first.after executed).ip).isSome := by
    have before := ongoing executed (Nat.le_of_lt less)
    generalize first.after executed = m at before still
    cases before with
    | stopped => cases still
    | running sound =>
        rw [sound.ip]
        refine runs.assembled.locate_isSome sound.listed ?_
        rcases Chunk.place_or_exit legal sound.listed with known | rfl
        · exact known
        · exact known
  obtain ⟨place, found⟩ := Option.isSome_iff_exists.mp here
  have now := ongoing count (Nat.le_refl _)
  obtain ⟨calls, awaits⟩ := now.awaits runs.assembled
  obtain ⟨sites, located⟩ := exists_sites awaits
    fun call operands => Chunk.locate_call legal runs.assembled
  have backtrace : Backtrace chunk (first.after count) (first.after executed).ip place sites :=
    ⟨found, calls, awaits, located⟩
  have trace := Backtrace.trace_eq (offset ▸ backtrace) now.loaded
  refine ⟨place, sites, backtrace, trace, ?_⟩
  rw [trace, List.length_cons, backtrace.length_eq, Nat.add_comm]

end Machine

/-- The frames of a program form a chain that no value escapes from: whatever was added to the chunk
before, whatever limits the machine has and as long as no step fails. Traces show this chain. -/
theorem Chunk.Built.frames_chained {poolSize limit bytes : Nat} {chunk whole : Chunk}
    {ranges : List (Nat × Nat)} {program : List Node} (small : poolSize ≤ Chunk.maxPoolSize)
    (built : Chunk.Built poolSize chunk ranges)
    (added : chunk.addProgram limit program = (whole, .ok bytes)) (some_statement : program ≠ [])
    (stackLimit frameLimit count : Nat) {first : Machine}
    (start : first = (Machine.new stackLimit frameLimit).load whole)
    (clean : ∀ earlier < count, ∀ fault, (first.after earlier).step.2 ≠ .error fault) :
    (first.after count).Chained whole ∧ (0 < count → first.TracedAfter whole count) := by
  obtain ⟨body, legal, assembled, more, rfl⟩ := built.whole small added
  have runs := Runs.of_assembled legal assembled
  obtain ⟨line, sound⟩ := Machine.sound_load runs stackLimit frameLimit
  have bounded := (Machine.bounded_new stackLimit frameLimit).load whole
  rw [← start] at sound bounded
  have ongoing (earlier : Nat) (least : earlier ≤ count) :=
    (Machine.Ongoing.running sound).after runs fun before less =>
      clean before (Nat.lt_of_lt_of_le less least)
  have last : ((more.map Node.statement).getLast?.bind Node.location?).isSome := by
    rw [List.getLast?_map]
    cases found : more.getLast? with
    | some final => rfl
    | none =>
        rw [List.getLast?_eq_none_iff.mp found] at some_statement
        exact absurd rfl some_statement
  refine ⟨(ongoing count (Nat.le_refl _)).chained runs, fun made => ?_⟩
  exact Machine.tracedAfter legal runs last sound.running bounded made ongoing

/-- The chain of the function in the program that calls it. -/
theorem Chunk.frames_chained_identity :
    ∃ whole first, (Chunk.empty 256).addProgram 10 Node.callIdentity = (whole, .ok 16) ∧
      first = (Machine.new 4 4).load whole ∧
      (first.after 4).Chained whole ∧ (0 < 4 → first.TracedAfter whole 4) := by
  have added : (Chunk.empty 256).addProgram 10 Node.callIdentity =
      (((Chunk.empty 256).addProgram 10 Node.callIdentity).1, .ok 16) :=
    Chunk.eq_ok_of_bytes (by decide +kernel)
  have succeeds : ∀ earlier < 4, ((((Machine.new 4 4).load
      ((Chunk.empty 256).addProgram 10 Node.callIdentity).1).after earlier).step.2) = .ok true := by
    decide +kernel
  refine ⟨_, _, added, rfl,
    Chunk.Built.frames_chained (by decide) .empty added (by decide) 4 4 4 rfl ?_⟩
  intro earlier less fault failed
  cases (succeeds earlier less).symm.trans failed

end StackScript
