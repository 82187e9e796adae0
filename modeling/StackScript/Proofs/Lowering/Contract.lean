/-
# Contracts of lowering

What a step of a lowering promises about the state that it leaves behind. If it
succeeds, a given condition holds; if not, the chunk has only grown and the
failure is a refusal. Code that does not fit its opcode is thereby never
attempted.
-/

import StackScript.Lowering.Basic
import StackScript.Proofs.Draft.Patch
import StackScript.Proofs.Draft.Scheme

namespace StackScript

open Line (extent)

/-- What is promised about the outcome of a step. -/
def Lower.Keeps {α : Type} (base : Chunk) (post : α → Lowering → Prop) :
    EStateM.Result Chunk.Failure Lowering α → Prop
  | .ok value later => post value later
  | .error failure later => base.Extends later.chunk ∧ ∃ d, failure = .refused d

/-- A step that starts in a given state ends as promised. -/
structure Lower.Ensures {α : Type} (base : Chunk) (x : Lower α) (s : Lowering)
    (post : α → Lowering → Prop) : Prop where
  outcome : Lower.Keeps base post (x s)

namespace Lower.Ensures

variable {α β : Type} {base : Chunk} {x : Lower α} {s : Lowering} {post : α → Lowering → Prop}

theorem pure {value : α} (h : post value s) : Ensures base (pure value) s post := ⟨h⟩

/-- Steps that follow each other hand over a condition. -/
theorem bind {mid : α → Lowering → Prop} {f : α → Lower β} {post : β → Lowering → Prop}
    (first : Ensures base x s mid)
    (next : ∀ value later, mid value later → Ensures base (f value) later post) :
    Ensures base (x >>= f) s post := by
  constructor
  have outcome := first.outcome
  rw [show (x >>= f) s = EStateM.bind x f s from rfl, EStateM.bind]
  cases found : x s with
  | ok value later =>
      rw [found] at outcome
      exact (next value later outcome).outcome
  | error failure later =>
      rw [found] at outcome
      exact outcome

/-- A step whose outcome is known can be passed over. -/
theorem after (value : α) (later : Lowering) {f : α → Lower β} {post : β → Lowering → Prop}
    (known : x s = .ok value later) (next : Ensures base (f value) later post) :
    Ensures base (x >>= f) s post := by
  constructor
  rw [show (x >>= f) s = EStateM.bind x f s from rfl, EStateM.bind, known]
  exact next.outcome

/-- Asking for the next offset changes nothing. -/
theorem here {f : Nat → Lower β} {post : β → Lowering → Prop}
    (next : Ensures base (f s.chunk.size) s post) : Ensures base (Lower.here >>= f) s post :=
  after s.chunk.size s rfl next

theorem mono {weaker : α → Lowering → Prop} (h : Ensures base x s post)
    (weaken : ∀ value later, post value later → weaker value later) :
    Ensures base x s weaker := by
  constructor
  have outcome := h.outcome
  cases found : x s with
  | ok value later =>
      rw [found] at outcome
      exact weaken value later outcome
  | error failure later =>
      rw [found] at outcome
      exact outcome

theorem refuse {place : Location} {cause : Diagnostic.Cause} (h : base.Extends s.chunk) :
    Ensures base (Lower.refuse place cause) s post := ⟨h, _, rfl⟩

/-- A step that is refused under some condition goes on without it. -/
theorem guard {condition : Prop} [Decidable condition] {place : Location}
    {cause : Diagnostic.Cause} {next : Unit → Lower α} (h : base.Extends s.chunk)
    (rest : ¬ condition → Ensures base (next ()) s post) :
    Ensures base (if condition then Lower.refuse place cause >>= next else next ()) s post := by
  split
  · exact bind (refuse h) fun _ _ (absurd : False) => absurd.elim
  · rename_i met
    exact rest met

theorem deeper {depth : Depth} (h : base.Extends s.chunk) :
    Ensures base depth.deeper s fun _ later => later = s := by
  unfold Depth.deeper
  split
  · exact refuse h
  · exact pure rfl

end Lower.Ensures

/-- Does a context tell what a scope knows? Functions have room for as many
variables as the format can address. -/
def Context.Describes (ctx : Context) : Option Scope → Prop
  | none => ctx = .top
  | some scope => ctx.home.isSome ∧ scope.names = ctx.names ∧
      scope.capacity = Scope.maxVariables ∧ scope.size ≤ scope.capacity

/-- How far a lowering has come: a draft has been added to the chunk that it
started with, and the scope is that of the context. -/
structure Drafting (base : Chunk) (code : List Line) (ctx : Context) (s : Lowering) : Prop where
  roomy : base.Roomy
  added : base.addLines code = some s.chunk
  described : ctx.Describes s.scope

namespace Drafting

variable {base : Chunk} {code : List Line} {ctx : Context} {s : Lowering}

theorem grown (h : Drafting base code ctx s) : base.Extends s.chunk :=
  (Chunk.addLines_spec h.added).1

theorem chunkRoomy (h : Drafting base code ctx s) : s.chunk.Roomy := h.grown.roomy h.roomy

/-- At the beginning of a block nothing has changed but that it is one. -/
theorem enter (h : Drafting base code ctx s) :
    Drafting base code ctx { s with scope := s.scope.map .enter } := by
  refine ⟨h.roomy, h.added, ?_⟩
  have described := h.described
  cases found : s.scope with
  | none =>
      rw [found] at described
      exact described
  | some scope =>
      rw [found] at described
      exact described

theorem size_eq (h : Drafting base code ctx s) : s.chunk.size = base.size + extent code :=
  (Chunk.addLines_spec h.added).2.2.1

/-- The slots of names are the same in the scope. -/
theorem slot? (h : Drafting base code ctx s) (name : String) :
    (s.scope.bind fun scope => scope.find? name) = ctx.slot? name := by
  have described := h.described
  cases found : s.scope with
  | none =>
      rw [found] at described
      obtain rfl := described
      rfl
  | some scope =>
      rw [found] at described
      obtain ⟨-, names, -⟩ := described
      simp only [Option.bind_some, Scope.find?, Scope.size, names, Context.slot?]

/-- The number of names is the same in the scope. -/
theorem localCount (h : Drafting base code ctx s) :
    s.scope.elim 0 Scope.size = ctx.names.length := by
  have described := h.described
  cases found : s.scope with
  | none =>
      rw [found] at described
      obtain rfl := described
      rfl
  | some scope =>
      rw [found] at described
      exact congrArg List.length described.2.1

/-- Slots are bytes. -/
theorem slot_lt (h : Drafting base code ctx s) {name : String} {slot : Nat}
    (found : ctx.slot? name = some slot) : slot < 0x100 := by
  have described := h.described
  rw [Context.slot?, Option.map_eq_some_iff] at found
  obtain ⟨index, within, rfl⟩ := found
  obtain ⟨bound, -⟩ := List.findIdx?_eq_some_iff_getElem.mp within
  cases inside : s.scope with
  | none =>
      rw [inside] at described
      obtain rfl := described
      simp [Context.top] at bound
  | some scope =>
      rw [inside] at described
      obtain ⟨-, names, capacity, room⟩ := described
      rw [Scope.size, names, capacity, Scope.maxVariables] at room
      omega

theorem home_isSome (h : Drafting base code ctx s) : ctx.home.isSome = s.scope.isSome := by
  have described := h.described
  cases found : s.scope with
  | none =>
      rw [found] at described
      obtain rfl := described
      rfl
  | some scope =>
      rw [found] at described
      exact described.1

end Drafting

namespace Lower

variable {base chunk : Chunk} {code : List Line} {ctx : Context} {s : Lowering} {place : Location}
  {instr : Instr} {operands : List Int}

/-- Operands of one byte each fit an opcode that wants them. -/
theorem fits_bytes {op : Opcode} (values : List Nat)
    (kinds : op.operands = values.map fun _ => .u8) (h : ∀ value ∈ values, value < 0x100) :
    Code.Fits op (values.map Int.ofNat) := by
  refine ⟨by simp [kinds], ?_⟩
  rw [kinds]
  clear kinds
  induction values with
  | nil => rfl
  | cons value values ih =>
      have small := h value List.mem_cons_self
      have others := ih fun value mem => h value (List.mem_cons_of_mem _ mem)
      have fits : (decide (0 ≤ Int.ofNat value) && decide (Int.ofNat value < 0x100)) = true := by
        simp only [Int.ofNat_eq_natCast, Bool.and_eq_true, decide_eq_true_eq]
        omega
      simp only [List.map_cons, Code.operandsBytes, Code.operandBytes, fits, if_true]
      exact others

/-- An instruction is appended whose names have been given identifiers. -/
theorem append_ensures {before : Lowering} (h : Drafting base code ctx before)
    (scope : s.scope = before.scope)
    (identified : before.chunk.identify instr = some (s.chunk, operands))
    (fits : Code.Fits instr.op operands) (mark : Mark) :
    Ensures base (append place instr.op operands) s fun offset later =>
      Drafting base (code ++ [⟨some place, mark, instr⟩]) ctx later ∧
        later.scope = before.scope ∧ offset = base.size + extent code := by
  obtain ⟨-, -, sameCode, -⟩ := Chunk.identify_eq_some identified
  have written : s.chunk.append (some place) instr.op operands = (_, .ok _) :=
    Chunk.append_eq_ok.mpr ⟨fits, rfl, rfl⟩
  have line : before.chunk.addLine ⟨some place, mark, instr⟩ = some _ :=
    Chunk.addLine_eq_some.mpr ⟨s.chunk, operands, identified, fits, rfl⟩
  constructor
  unfold append
  simp only [written]
  refine ⟨⟨h.roomy, ?_, scope ▸ h.described⟩, scope, ?_⟩
  · rw [Chunk.addLines_append, h.added, Option.bind_some, Chunk.addLines_singleton, line]
  · rw [Chunk.size, sameCode, ← Chunk.size, h.size_eq]

theorem emit_ensures (instr : Instr) {before : Lowering} (h : Drafting base code ctx before)
    (scope : s.scope = before.scope)
    (identified : before.chunk.identify instr = some (s.chunk, operands))
    (fits : Code.Fits instr.op operands) (mark : Mark) :
    Ensures base (emit place instr.op operands) s fun _ later =>
      Drafting base (code ++ [⟨some place, mark, instr⟩]) ctx later ∧
        later.scope = before.scope := by
  refine Ensures.bind (append_ensures h scope identified fits mark) ?_
  intro offset later done
  exact Ensures.pure ⟨done.1, done.2.1⟩

/-- An instruction without operands is appended. -/
theorem emit_plain (h : Drafting base code ctx s) {op : Opcode} (bare : op.operands = [])
    (mark : Mark) :
    Ensures base (emit place op []) s fun _ later =>
      Drafting base (code ++ [⟨some place, mark, .plain op bare⟩]) ctx later ∧
        later.scope = s.scope :=
  emit_ensures (.plain op bare) h rfl rfl (fits_bytes [] bare (by simp)) mark

/-- Jumps are appended with a placeholder. -/
theorem jump_ensures (h : Drafting base code ctx s) (make : Int → Instr)
    (isJump : make = .jmp ∨ make = .jz) (mark : Mark) :
    Ensures base (jump place (make unknownDistance).op) s fun offset later =>
      Drafting base (code ++ [⟨some place, mark, make unknownDistance⟩]) ctx later ∧
        later.scope = s.scope ∧ offset = base.size + extent code := by
  refine append_ensures h rfl ?_ ?_ mark
  · rcases isJump with rfl | rfl <;> rfl
  · rcases isJump with rfl | rfl <;> exact ⟨rfl, rfl⟩

/-- The identifier of a string is a byte. -/
theorem string_ensures (h : Drafting base code ctx s) (name : String) :
    Ensures base (string place name) s fun id later =>
      id < 0x100 ∧ later.scope = s.scope ∧ ∃ strings,
        s.chunk.strings.intern? name = some (strings, id) ∧
          later.chunk = { s.chunk with strings } := by
  constructor
  unfold string Chunk.internString
  cases found : s.chunk.strings.intern? name with
  | none => exact ⟨h.grown, _, rfl⟩
  | some result => exact ⟨(h.chunkRoomy.strings.intern? found).2, rfl, _, rfl, rfl⟩

/-- The identifier of a number is a byte. -/
theorem constant_ensures (h : Drafting base code ctx s) (value : Float) :
    Ensures base (constant place value) s fun id later =>
      id < 0x100 ∧ later.scope = s.scope ∧ ∃ constants,
        s.chunk.constants.intern? value = some (constants, id) ∧
          later.chunk = { s.chunk with constants } := by
  constructor
  unfold constant Chunk.internConstant
  cases found : s.chunk.constants.intern? value with
  | none => exact ⟨h.grown, _, rfl⟩
  | some result => exact ⟨(h.chunkRoomy.constants.intern? found).2, rfl, _, rfl, rfl⟩

/-- An instruction is appended that names a string and nothing else. -/
theorem emit_named (h : Drafting base code ctx s) (make : String → Instr)
    (isNamed : make = .str ∨ make = .setGlobal ∨ make = .getGlobal) (name : String)
    (mark : Mark) :
    Ensures base (do emit place (make name).op [(← string place name : Nat)]) s fun _ later =>
      Drafting base (code ++ [⟨some place, mark, make name⟩]) ctx later ∧
        later.scope = s.scope := by
  refine Ensures.bind (string_ensures h name) ?_
  rintro id later ⟨small, scope, strings, interned, grown⟩
  refine emit_ensures _ h scope ?_ ?_ mark
  · rw [grown]
    rcases isNamed with rfl | rfl | rfl <;>
      exact Option.map_eq_some_iff.mpr ⟨_, interned, rfl⟩
  · refine fits_bytes [id] ?_ (by simpa using small)
    rcases isNamed with rfl | rfl | rfl <;> rfl

/-- An instruction is appended that has a slot for its operand. -/
theorem emit_slot (h : Drafting base code ctx s) (make : Nat → Instr)
    (isSlot : make = .deepGet ∨ make = .deepSet) {slot : Nat} (small : slot < 0x100)
    (mark : Mark) :
    Ensures base (emit place (make slot).op [(slot : Int)]) s fun _ later =>
      Drafting base (code ++ [⟨some place, mark, make slot⟩]) ctx later ∧
        later.scope = s.scope := by
  refine emit_ensures _ h rfl ?_ ?_ mark
  · rcases isSlot with rfl | rfl <;> rfl
  · refine fits_bytes [slot] ?_ (by simpa using small)
    rcases isSlot with rfl | rfl <;> rfl

end Lower

end StackScript
