/-
# Traces of faults

Where a step fails, the trace shows the place of its instruction and the places of the calls that
had not returned before, each of them once. There is one exception: a call that has room for its
return address but not for the arguments above it fails after its frame has been made, and is shown
a second time as one of the calls that have not returned.
-/

import StackScript.Proofs.Machine.Pending

namespace StackScript

namespace Machine

variable {chunk : Chunk} {m after : Machine} {fault : Fault}

/-- A call with arguments runs out of stack. -/
structure Overruns (chunk : Chunk) (m : Machine) (fault : Fault) : Prop where
  fault : fault = .stackOverflow
  call : ∃ offset id count : Nat, m.ip = offset ∧ 0 < count ∧
    chunk.Has offset .invoke [(id : Int), (count : Int)]

/-- What a trace shows after a step that failed. -/
structure FaultTraced (chunk : Chunk) (m after : Machine) (fault : Fault) (place : Location)
    (sites : List Location) : Prop where
  backtrace : Backtrace chunk m m.ip place sites
  length_eq : sites.length = m.frames.size
  once : ¬ m.Overruns chunk fault → after.trace = place :: sites
  twice : m.Overruns chunk fault → after.trace = place :: place :: sites

variable {lines : List Line} {offset : Nat} {line : Line}

/-- Whether a call has arguments can be told from its line. -/
theorem Sound.overruns_iff (h : Sound chunk lines .ground offset line m)
    (assembled : chunk.Assembled lines) :
    m.Overruns chunk fault ↔
      fault = .stackOverflow ∧ line.instr.op = .invoke ∧ 0 < line.instr.takes := by
  constructor
  · rintro ⟨overflow, start, id, count, ip, some_argument, isCall⟩
    obtain rfl : start = offset := Int.natCast_inj.mp (ip.symm.trans h.ip)
    obtain ⟨other, mem, isInvoke, resolves⟩ := assembled.line_of_has isCall
    obtain rfl := Line.placed_unique h.listed mem
    refine ⟨overflow, isInvoke, ?_⟩
    obtain ⟨name, given, same⟩ := Instr.eq_invoke isInvoke
    rw [same] at resolves ⊢
    obtain ⟨id', operands, -⟩ := resolves
    cases operands
    exact some_argument
  · rintro ⟨overflow, isInvoke, some_argument⟩
    obtain ⟨name, count, same⟩ := Instr.eq_invoke isInvoke
    obtain ⟨operands, isCall, resolves⟩ := assembled.mem_of_line h.listed
    rw [same] at isCall resolves some_argument
    obtain ⟨id, rfl, -⟩ := resolves
    exact ⟨overflow, offset, id, count, h.ip, some_argument, isCall⟩

/-- A step that fails leaves the calls as they were, unless it has just added one. -/
theorem Sound.fault_traced {body : List Stmt} {last : Option Location}
    (legal : listLegal false body) (runs : chunk.Runs (listCode 0 .top body ++ [exitLine last]))
    (h : Sound chunk (listCode 0 .top body ++ [exitLine last]) .ground offset line m)
    (bounded : m.Bounded) (failed : m.step = (after, .error fault)) :
    ∃ place sites, FaultTraced chunk m after fault place sites := by
  have during := h.during runs.assembled bounded
  rw [failed] at during
  have loaded : after.chunk = some chunk := during.chunk.trans h.loaded
  have here : (chunk.locate (offset : Nat)).isSome := by
    rcases Chunk.place_or_exit legal h.listed with known | rfl
    · exact runs.assembled.locate_isSome h.listed known
    · cases failed.symm.trans (h.step_exit runs.assembled rfl)
  obtain ⟨place, found⟩ := Option.isSome_iff_exists.mp here
  obtain ⟨floor, calls, values, inside⟩ := h.inside runs.assembled
  obtain ⟨sites, located⟩ := exists_sites (inside.awaits runs.assembled)
    fun call operands => Chunk.locate_call legal runs.assembled
  have before : Backtrace chunk m m.ip place sites :=
    ⟨by rw [h.ip]; exact found, calls, inside.awaits runs.assembled, located⟩
  have began : chunk.locate after.offset = some place := by
    rw [during.offset]
    exact found
  have shift := inside.shift runs
  rw [failed] at shift
  have overruns : m.Overruns chunk fault ↔ _ := h.overruns_iff runs.assembled
  refine ⟨place, sites, before, before.length_eq, ?_, ?_⟩
  · intro fits
    cases shift with
    | fails awaits _ =>
        exact Backtrace.trace_eq ⟨began, calls, awaits, located⟩ loaded
    | halfway isInvoke some_argument _ =>
        exact absurd (overruns.mpr ⟨rfl, isInvoke, some_argument⟩) fits
  · intro overrun
    obtain ⟨overflow, isInvoke, some_argument⟩ := overruns.mp overrun
    cases shift with
    | fails _ noArgument =>
        rw [noArgument isInvoke overflow] at some_argument
        exact absurd some_argument (Nat.lt_irrefl 0)
    | halfway _ _ awaits =>
        have twice : List.Forall₂ (fun (call : Nat) site => chunk.locate call = some site)
            (calls ++ [offset]).reverse (place :: sites) := by
          rw [List.reverse_append]
          exact .cons found located
        exact Backtrace.trace_eq ⟨began, _, awaits, twice⟩ loaded

end Machine

/-- The trace of a fault shows its place and the calls that had not returned: whatever was added to
the chunk before, whatever limits the machine has, and whichever step fails. Only a call with
arguments that runs out of stack is itself among these calls. -/
theorem Chunk.Built.faults_traced {poolSize limit bytes : Nat} {chunk whole : Chunk}
    {ranges : List (Nat × Nat)} {program : List Node} (small : poolSize ≤ Chunk.maxPoolSize)
    (built : Chunk.Built poolSize chunk ranges)
    (added : chunk.addProgram limit program = (whole, .ok bytes))
    (stackLimit frameLimit count : Nat) {m after : Machine} {fault : Fault}
    (reached : m = ((Machine.new stackLimit frameLimit).load whole).after count)
    (failed : m.step = (after, .error fault)) :
    ∃ place sites, m.FaultTraced whole after fault place sites := by
  obtain ⟨body, legal, assembled, -⟩ := built.whole small added
  have runs := Runs.of_assembled legal assembled
  have steady := (Machine.steady_load runs stackLimit frameLimit).after runs rfl count
  have bounded := ((Machine.bounded_new stackLimit frameLimit).load whole).after count
  rw [← reached] at steady bounded
  rcases steady with halted | ⟨offset, line, sound⟩
  · cases (Machine.step_halted halted).symm.trans failed
  · exact sound.fault_traced legal runs bounded failed

/-- With room for one value, the argument of the call fits, and then the return address, but not
both. -/
theorem Chunk.faults_traced_identity :
    ∃ whole m, (Chunk.empty 256).addProgram 10 Node.callIdentity = (whole, .ok 16) ∧
      m = ((Machine.new 1 4).load whole).after 3 ∧
      m.step = (m.step.1, .error .stackOverflow) ∧
        ∃ place sites, m.FaultTraced whole m.step.1 .stackOverflow place sites := by
  have added : (Chunk.empty 256).addProgram 10 Node.callIdentity =
      (((Chunk.empty 256).addProgram 10 Node.callIdentity).1, .ok 16) :=
    Chunk.eq_ok_of_bytes (by decide +kernel)
  have failed : (((Machine.new 1 4).load
      ((Chunk.empty 256).addProgram 10 Node.callIdentity).1).after 3).step.2 =
        .error .stackOverflow := by decide +kernel
  exact ⟨_, _, added, rfl, Prod.ext rfl failed,
    Chunk.Built.faults_traced (by decide) .empty added 1 4 3 rfl (Prod.ext rfl failed)⟩

/-- The trace of that fault shows the call twice, although no other call was active. -/
theorem Chunk.trace_identity_twice :
    ∃ whole m, (Chunk.empty 256).addProgram 10 Node.callIdentity = (whole, .ok 16) ∧
      m = ((Machine.new 1 4).load whole).after 3 ∧ m.frames.size = 0 ∧
      m.step.2 = .error .stackOverflow ∧ m.step.1.trace.length = 2 := by
  have added : (Chunk.empty 256).addProgram 10 Node.callIdentity =
      (((Chunk.empty 256).addProgram 10 Node.callIdentity).1, .ok 16) :=
    Chunk.eq_ok_of_bytes (by decide +kernel)
  exact ⟨_, _, added, rfl, by decide +kernel, by decide +kernel, by decide +kernel⟩

end StackScript
