/-
# Jumps, blocks and parameters

The parts of a lowering that look back: a jump is given its target after the
code that it jumps over, and a block frees the slots that were taken since it
began.
-/

import StackScript.Proofs.Lowering.Contract

namespace StackScript

open Line (extent)

/-- Where a chunk has the line of a jump, patching can only be refused. -/
theorem Chunk.Shows.patch_refused {chunk : Chunk} {offset : Nat} {line : Line}
    (h : chunk.Shows offset line) (isJump : line.instr.op.isJump) {place : Option Location}
    {distance : Int} {failure : Failure} (failed : chunk.patch place offset distance = .error failure) :
    ∃ d, failure = .refused d := by
  obtain ⟨operands, -, -, more, same⟩ := h
  have byte : chunk.code.bytes[offset]? = some line.instr.op.byte := by
    have first : (chunk.code.bytes.toList.drop offset)[0]? = some line.instr.op.byte := by
      rw [← same]
      rfl
    simpa using first
  unfold patch Code.patch at failed
  simp only [byte, Code.isJumpByte, Opcode.ofByte?_byte, Option.any_some, isJump, Bool.not_true,
    Bool.false_eq_true, if_false] at failed
  split at failed
  · cases failed
  · exact ⟨_, (Except.error.inj failed).symm⟩
  · rename_i fault _ other
    split at other
    · cases other
      contradiction
    · cases other

namespace Lower

variable {base : Chunk} {code lines : List Line} {ctx inner : Context} {s : Lowering}
  {place : Location}

/-- A jump is given its distance, as if it had been known before. -/
theorem settle_ensures (make : Int → Instr) (isJump : make = .jmp ∨ make = .jz) {mark : Mark}
    {lines : List Line} {target : Nat} (distance : Int)
    (h : Drafting base (code ++ ⟨some place, mark, make unknownDistance⟩ :: lines) ctx s)
    (reaches : (target : Int) = (base.size + extent code + Opcode.jmp.size : Nat) + distance) :
    Ensures base (settle place (base.size + extent code) target) s fun _ later =>
      Drafting base (code ++ ⟨some place, mark, make distance⟩ :: lines) ctx later ∧
        later.scope = s.scope := by
  have added := h.added
  rw [Chunk.addLines_append, Option.bind_eq_some_iff] at added
  obtain ⟨before, start, rest⟩ := added
  have length : before.size = base.size + extent code := (Chunk.addLines_spec start).2.2.1
  have shown : s.chunk.Shows before.size ⟨some place, mark, make unknownDistance⟩ :=
    (Chunk.addLines_spec rest).2.1 _ List.mem_cons_self
  have same : (target : Int) - (before.size + Opcode.jmp.size : Nat) = distance := by omega
  constructor
  unfold settle
  simp only [← length, same]
  cases patched : s.chunk.patch (some place) before.size distance with
  | error failure =>
      refine ⟨h.grown, shown.patch_refused ?_ patched⟩
      rcases isJump with rfl | rfl <;> rfl
  | ok later =>
      refine ⟨⟨h.roomy, ?_, h.described⟩, rfl⟩
      rw [Chunk.addLines_append, start, Option.bind_some]
      exact Chunk.addLines_patch isJump rest patched

/-- A jump is given the end of the code for its target. -/
theorem settleHere_ensures (make : Int → Instr) (isJump : make = .jmp ∨ make = .jz)
    (mark : Mark) (lines : List Line)
    (h : Drafting base (code ++ ⟨some place, mark, make unknownDistance⟩ :: lines) ctx s) :
    Ensures base (settle place (base.size + extent code) s.chunk.size) s fun _ later =>
      Drafting base (code ++ ⟨some place, mark, make (extent lines)⟩ :: lines) ctx later ∧
        later.scope = s.scope := by
  have jumpSize : (make unknownDistance).op.size = Opcode.jmp.size := by
    rcases isJump with rfl | rfl <;> rfl
  refine settle_ensures make isJump _ h ?_
  rw [h.size_eq]
  simp only [Line.extent_append, Line.extent_cons, Line.size, jumpSize]
  omega

end Lower

/-- A later scope that is still in the same block: some names may have been
declared. -/
def Scope.Deepens : Option Scope → Option Scope → Prop
  | none, later => later = none
  | some scope, later =>
    ∃ declared, later = some { scope with names := declared ++ scope.names }

theorem Scope.Deepens.refl (scope : Option Scope) : Scope.Deepens scope scope := by
  cases scope with
  | none => rfl
  | some scope => exact ⟨[], rfl⟩

theorem Scope.Deepens.trans {first second third : Option Scope} (h : Scope.Deepens first second)
    (h' : Scope.Deepens second third) : Scope.Deepens first third := by
  cases first with
  | none =>
      obtain rfl := h
      exact h'
  | some scope =>
      obtain ⟨declared, rfl⟩ := h
      obtain ⟨declared', rfl⟩ := h'
      exact ⟨declared' ++ declared, by simp⟩

/-- What a block has declared is gone after it. -/
theorem Scope.Deepens.leave {scope later : Option Scope}
    (h : Scope.Deepens (scope.map .enter) later) : later.map .leave = scope := by
  cases scope with
  | none =>
      obtain rfl := h
      rfl
  | some scope =>
      obtain ⟨declared, rfl⟩ := h
      simp [Scope.enter, Scope.leave, Scope.size]

namespace Lower

variable {base : Chunk} {code lines : List Line} {ctx inner : Context} {s : Lowering}
  {place : Location}

/-- A variable is declared: a local one is there already, a global one is set. -/
theorem declare_ensures (h : Drafting base code ctx s) (name : String) (extra : Nat) :
    Ensures base (declare place name) s fun _ later =>
      Drafting base
          (code ++ if ctx.home.isSome then [] else [ctx.line extra place (.setGlobal name)])
          (ctx.declare name) later ∧
        Scope.Deepens s.scope later.scope := by
  unfold declare
  refine Ensures.after s s rfl ?_
  have described := h.described
  rw [Context.declare, h.home_isSome]
  cases found : s.scope with
  | none =>
      simp only [Option.isSome_none, Bool.false_eq_true, if_false]
      refine Ensures.mono (emit_named h .setGlobal (by simp) name (ctx.mark extra)) ?_
      intro _ later done
      exact ⟨done.1, done.2.trans found⟩
  | some scope =>
      rw [found] at described
      obtain ⟨inside, names, capacity, room⟩ := described
      simp only [Option.isSome_some, if_true, List.append_nil]
      unfold Scope.declare
      split
      · rename_i refused
        split at refused
        · exact ⟨h.grown, _, rfl⟩
        · exact ⟨h.grown, _, rfl⟩
      · rename_i later _ declared
        split at declared
        · cases declared
        · split at declared
          · cases declared
          · cases declared
            refine ⟨⟨h.roomy, h.added, ?_⟩, [name], rfl⟩
            refine ⟨inside, congrArg (name :: ·) names, capacity, ?_⟩
            show scope.size + 1 ≤ scope.capacity
            omega

theorem emitTimes_ensures (count : Nat) (h : Drafting base code inner s) (home : Option Nat)
    (height : Nat) :
    Ensures base (emitTimes place .pop count) s fun _ later =>
      Drafting base (code ++ popLines home place height count) inner later ∧
        later.scope = s.scope := by
  induction count generalizing code s with
  | zero => exact Ensures.pure ⟨by simpa [popLines] using h, rfl⟩
  | succ count ih =>
      refine Ensures.bind (emit_plain h rfl ⟨home, height + count + 1⟩) ?_
      rintro _ mid ⟨drafted, scope⟩
      refine Ensures.mono (ih drafted) ?_
      rintro _ later ⟨done, same⟩
      rw [List.append_assoc] at done
      exact ⟨done, same.trans scope⟩

/-- A block ends in the scope that it began in. -/
theorem block_ensures {content : Lower Unit} {legal : Prop} (h : Drafting base code ctx s)
    (within : ∀ start, Drafting base code ctx start → start.chunk = s.chunk →
      Ensures base content start fun _ later =>
        Drafting base (code ++ lines) inner later ∧ Scope.Deepens start.scope later.scope ∧
          legal) :
    Ensures base (block place content) s fun _ later =>
      Drafting base (code ++ (lines ++ ctx.closing inner place)) ctx later ∧
        later.scope = s.scope ∧ legal := by
  unfold block
  refine Ensures.after (s.scope.elim 0 Scope.size) s rfl ?_
  refine Ensures.after () { s with scope := s.scope.map .enter } rfl ?_
  refine Ensures.bind (within _ h.enter rfl) ?_
  rintro _ filled ⟨drafted, deeper, fine⟩
  refine Ensures.after (filled.scope.elim 0 Scope.size) filled rfl ?_
  rw [h.localCount, drafted.localCount]
  refine Ensures.bind (emitTimes_ensures _ drafted ctx.home ctx.names.length) ?_
  rintro _ closed ⟨done, scope⟩
  have back : closed.scope.map .leave = s.scope := by
    rw [scope]
    exact deeper.leave
  refine ⟨⟨h.roomy, ?_, ?_⟩, back, fine⟩
  · rw [← List.append_assoc]
    exact done.added
  · show ctx.Describes (closed.scope.map .leave)
    rw [back]
    exact h.described

theorem parameters_ensures (parameters : List Parameter) (h : Drafting base code ctx s)
    (inside : ctx.home.isSome) :
    Ensures base (parameters.forM fun parameter => declare parameter.location parameter.name) s
      fun _ later =>
        Drafting base code ⟨ctx.home, (parameters.map Parameter.name).reverse ++ ctx.names⟩
          later := by
  induction parameters generalizing ctx s with
  | nil => exact Ensures.pure h
  | cons first rest ih =>
      refine Ensures.bind (declare_ensures h first.name 0) ?_
      rintro _ mid ⟨drafted, -⟩
      simp only [Context.declare, inside, if_true, List.append_nil] at drafted
      refine Ensures.mono (ih drafted inside) ?_
      intro _ later done
      simpa using done

/-- The parameters of a function are its first variables. -/
theorem enterFunction_ensures (parameters : List Parameter) (h : Drafting base code ctx s)
    (start : Nat) :
    Ensures base (enterFunction parameters) s fun _ later =>
      Drafting base code (.ofBody start parameters) later := by
  refine Ensures.after () { s with scope := some { capacity := Scope.maxVariables } } rfl ?_
  have entered : Drafting base code ⟨some start, []⟩
      { s with scope := some { capacity := Scope.maxVariables } } :=
    ⟨h.roomy, h.added, rfl, rfl, rfl, Nat.zero_le _⟩
  refine Ensures.mono (parameters_ensures parameters entered rfl) ?_
  intro _ later done
  simpa [Context.ofBody] using done

end Lower

end StackScript
