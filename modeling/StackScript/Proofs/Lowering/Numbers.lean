/-
# Numbers in the pool

Whatever comes of a statement, the pool of constants gains nothing but numbers that the
statement names; a refused statement may leave some of them behind. Statements that were read
from a text name numbers without a sign only. In a chunk that nothing else was added to, equal
numbers are therefore the same, and every constant means just the number that was asked for.
-/

import StackScript.Proofs.Lowering.Constants
import StackScript.Proofs.Lowering.Refusal

namespace StackScript

/-- No number in a pool has a sign. -/
def Pool.Unsigned (pool : Pool Float) : Prop := ∀ value ∈ pool.entries.toList, Number.Unsigned value

/-- At the end of a step no number in the pool has a sign, whether the step succeeded or not. -/
def Lower.Leaves {α : Type} : EStateM.Result Chunk.Failure Lowering α → Prop
  | .ok _ later => later.chunk.constants.Unsigned
  | .error _ later => later.chunk.constants.Unsigned

/-- A step brings no number with a sign into the pool, whatever its outcome. -/
def Lower.Unsigned {α : Type} (x : Lower α) : Prop :=
  ∀ s : Lowering, s.chunk.constants.Unsigned → Leaves (x s)

namespace Lower.Unsigned

variable {α β : Type} {x : Lower α} {f : α → Lower β}

theorem pure (value : α) : Unsigned (pure value : Lower α) := fun _ holds => holds

theorem throw (failure : Chunk.Failure) : Unsigned (throw failure : Lower α) :=
  fun _ holds => holds

theorem get : Unsigned (get : Lower Lowering) := fun _ holds => holds

/-- Scopes may change. -/
theorem modify {change : Lowering → Lowering} (same : ∀ s, (change s).chunk = s.chunk) :
    Unsigned (modify change : Lower PUnit) := by
  intro s holds
  show (change s).chunk.constants.Unsigned
  rw [same]
  exact holds

theorem bind (first : Unsigned x) (rest : ∀ value, Unsigned (f value)) : Unsigned (x >>= f) := by
  intro s holds
  have outcome := first s holds
  rw [show (x >>= f) s = EStateM.bind x f s from rfl, EStateM.bind]
  cases found : x s with
  | ok value later =>
      rw [found] at outcome
      exact rest value later outcome
  | error failure later =>
      rw [found] at outcome
      exact outcome

/-- Asking how far a lowering has come changes nothing. -/
theorem ask {g : Lowering → α} (rest : ∀ value, Unsigned (f value)) :
    Unsigned ((do return g (← MonadState.get) : Lower α) >>= f) :=
  bind (get.bind fun _ => pure _) rest

/-- A step may be refused before it begins. -/
theorem guard {condition : Prop} [Decidable condition] {place : Location}
    {cause : Diagnostic.Cause} {next : Unit → Lower α} (rest : Unsigned (next ())) :
    Unsigned (if condition then Lower.refuse place cause >>= next else next ()) := by
  split
  · exact bind (throw _) fun _ => rest
  · exact rest

theorem deeper (depth : Depth) : Unsigned depth.deeper := by
  unfold Depth.deeper
  split
  · exact throw _
  · exact pure _

end Lower.Unsigned

namespace Lower

theorem append_unsigned (place : Location) (op : Opcode) (operands : List Int) :
    Unsigned (append place op operands) := by
  rintro ⟨⟨code, constants, strings, places⟩, scope⟩ holds
  unfold append Chunk.append
  dsimp only
  cases code.append op operands with
  | mk written outcome =>
      cases outcome with
      | ok offset => exact holds
      | error fault => exact holds

theorem emit_unsigned (place : Location) (op : Opcode) (operands : List Int) :
    Unsigned (emit place op operands) :=
  (append_unsigned place op operands).bind fun _ => .pure _

theorem jump_unsigned (place : Location) (op : Opcode) : Unsigned (jump place op) :=
  append_unsigned place op _

theorem string_unsigned (place : Location) (value : String) : Unsigned (string place value) := by
  intro s holds
  unfold string Chunk.internString
  cases s.chunk.strings.intern? value with
  | none => exact holds
  | some found => exact holds

/-- A number comes into the pool as it is. -/
theorem constant_unsigned (place : Location) {value : Float} (h : Number.Unsigned value) :
    Unsigned (constant place value) := by
  intro s holds
  unfold constant Chunk.internConstant
  cases found : s.chunk.constants.intern? value with
  | none => exact holds
  | some grown =>
      intro entry mem
      rcases Pool.mem_of_intern? found entry mem with old | rfl
      · exact holds entry old
      · exact h

theorem settle_unsigned (place : Location) (offset target : Nat) :
    Unsigned (settle place offset target) := by
  intro s holds
  unfold settle
  dsimp only
  split
  · rename_i chunk patched
    obtain ⟨-, rfl⟩ := Chunk.patch_eq_ok patched
    exact holds
  · exact holds

theorem named_unsigned (place : Location) (op : Opcode) (name : String) (more : List Int) :
    Unsigned (do emit place op ((← string place name : Nat) :: more)) :=
  (string_unsigned place name).bind fun _ => emit_unsigned _ _ _

theorem declare_unsigned (place : Location) (name : String) : Unsigned (declare place name) := by
  refine Unsigned.get.bind fun s => ?_
  split
  · exact named_unsigned place .setGlobal name []
  · split
    · exact .throw _
    · exact .modify fun _ => rfl

theorem emitTimes_unsigned (place : Location) (op : Opcode) (count : Nat) :
    Unsigned (emitTimes place op count) := by
  induction count with
  | zero => exact .pure _
  | succ count ih => exact (emit_unsigned place op []).bind fun _ => ih

theorem block_unsigned {content : Lower Unit} (place : Location) (h : Unsigned content) :
    Unsigned (block place content) := by
  unfold block
  refine .ask fun before => ?_
  refine .bind (.modify fun _ => rfl) fun _ => ?_
  refine h.bind fun _ => .ask fun after => ?_
  exact (emitTimes_unsigned place .pop _).bind fun _ => .modify fun _ => rfl

theorem enterFunction_unsigned (parameters : List Parameter) :
    Unsigned (enterFunction parameters) := by
  unfold enterFunction
  refine .bind (.modify fun _ => rfl) fun _ => ?_
  induction parameters with
  | nil => exact .pure _
  | cons first rest ih => exact (declare_unsigned _ _).bind fun _ => ih

end Lower

namespace Lowering

open Lower (Unsigned)

theorem literal_unsigned {value : Literal} (h : value.Unsigned) (place : Location) :
    Unsigned (literal place value) := by
  cases value with
  | null => exact Lower.emit_unsigned _ _ _
  | bool value => cases value <;> exact Lower.emit_unsigned _ _ _
  | number value => exact (Lower.constant_unsigned place h).bind fun _ => Lower.emit_unsigned _ _ _
  | string value => exact Lower.named_unsigned place .str value []

theorem reference_unsigned (place : Location) (name : String) : Unsigned (reference place name) := by
  refine .ask fun slot => ?_
  split
  · exact Lower.emit_unsigned _ _ _
  · exact Lower.named_unsigned place .getGlobal name []

theorem operator_unsigned (place : Location) (opcodes : List Opcode) :
    Unsigned (opcodes.forM fun opcode => Lower.emit place opcode []) := by
  induction opcodes with
  | nil => exact .pure _
  | cons first rest ih => exact (Lower.emit_unsigned _ _ _).bind fun _ => ih

mutual

theorem expression_unsigned {e : Expr} (h : e.Unsigned) (depth : Depth) :
    Unsigned (expression depth e) := by
  cases e with
  | literal place value =>
      rw [expression]
      exact literal_unsigned h place
  | reference place name =>
      rw [expression]
      exact reference_unsigned place name
  | unary place op operand =>
      rw [expression]
      have named : operand.Unsigned := h
      refine (Unsigned.deeper depth).bind fun inner => ?_
      exact (expression_unsigned named inner).bind fun _ => Lower.emit_unsigned _ _ _
  | binary place op left right =>
      rw [expression]
      refine (Unsigned.deeper depth).bind fun inner => (expression_unsigned h.1 inner).bind fun _ => ?_
      have rest (deep : Depth) := (expression_unsigned h.2 deep).bind fun _ =>
        operator_unsigned place op.opcodes
      split
      · exact (Unsigned.pure depth).bind rest
      · exact (Unsigned.deeper depth).bind rest
  | call place callee arguments =>
      rw [expression]
      split
      · exact .throw _
      · refine (argumentList_unsigned h depth).bind fun _ => ?_
        exact Lower.named_unsigned place .invoke callee _

theorem argumentList_unsigned {arguments : List Expr} (h : argumentsUnsigned arguments)
    (depth : Depth) : Unsigned (argumentList depth arguments) := by
  cases arguments with
  | nil =>
      rw [argumentList]
      exact .pure _
  | cons first rest =>
      rw [argumentList]
      refine (Unsigned.deeper depth).bind fun inner => ?_
      exact (expression_unsigned h.1 inner).bind fun _ => argumentList_unsigned h.2 depth

end

theorem definition_unsigned (place : Location) (parameters : List Parameter) (operands : List Int) :
    Unsigned (do
      Lower.emit place .func operands
      let skip ← Lower.jump place .jmp
      Lower.enterFunction parameters
      return skip) := by
  refine (Lower.emit_unsigned place .func operands).bind fun _ => ?_
  refine (Lower.jump_unsigned place .jmp).bind fun skip => ?_
  exact (Lower.enterFunction_unsigned parameters).bind fun _ => .pure _

theorem functionHead_unsigned (place : Location) (name : String) (parameters : List Parameter) :
    Unsigned (functionHead place name parameters) := by
  unfold functionHead
  refine Unsigned.get.bind fun s => ?_
  refine Unsigned.guard ?_
  split
  · exact .throw _
  · refine (Lower.string_unsigned place name).bind fun id => ?_
    refine Unsigned.ask fun here => ?_
    dsimp only
    split
    · exact .bind (.throw _) fun _ => definition_unsigned place parameters _
    · exact definition_unsigned place parameters _

theorem functionEnd_unsigned (place bodyPlace : Location) (skip : Nat) (returned : Bool) :
    Unsigned (functionEnd place bodyPlace skip returned) := by
  have rest : Unsigned (do
      Lower.leaveFunction
      Lower.settle place skip (← Lower.here)) :=
    .bind (.modify fun _ => rfl) fun _ => .ask fun _ => Lower.settle_unsigned _ _ _
  unfold functionEnd
  cases returned with
  | true => exact rest
  | false => exact (Lower.emit_unsigned _ _ _).bind fun _ => (Lower.emit_unsigned _ _ _).bind fun _ => rest

mutual

/-- A statement that names no number with a sign brings none into the pool. -/
theorem statement_unsigned {st : Stmt} (h : st.Unsigned) (depth : Depth) :
    Unsigned (statement depth st) := by
  cases st with
  | expression place value =>
      rw [statement]
      exact (expression_unsigned h depth).bind fun _ => Lower.emit_unsigned _ _ _
  | print place value =>
      rw [statement]
      exact (expression_unsigned h depth).bind fun _ => Lower.emit_unsigned _ _ _
  | declare place name value =>
      rw [statement]
      exact (expression_unsigned h depth).bind fun _ => Lower.declare_unsigned _ _
  | assign place name value =>
      rw [statement]
      refine (expression_unsigned h depth).bind fun _ => .ask fun slot => ?_
      split
      · exact Lower.emit_unsigned _ _ _
      · exact Lower.named_unsigned place .setGlobal name []
  | block place body =>
      rw [statement]
      exact Lower.block_unsigned place (statementList_unsigned h depth)
  | ifThen place condition yes =>
      rw [statement]
      refine (expression_unsigned h.1 depth).bind fun _ => (Lower.jump_unsigned _ _).bind fun skip => ?_
      refine (Lower.block_unsigned place ((Unsigned.deeper depth).bind fun inner =>
        statement_unsigned h.2 inner)).bind fun _ => ?_
      exact .ask fun _ => Lower.settle_unsigned _ _ _
  | ifElse place condition yes no =>
      rw [statement]
      have branch {st : Stmt} (fine : ∀ inner, Unsigned (statement inner st)) :
          Unsigned (Lower.block place do statement (← depth.deeper) st) :=
        Lower.block_unsigned place ((Unsigned.deeper depth).bind fine)
      refine (expression_unsigned h.1 depth).bind fun _ => (Lower.jump_unsigned _ _).bind fun skip => ?_
      refine (branch fun inner => statement_unsigned h.2.1 inner).bind fun _ => ?_
      refine (Lower.jump_unsigned _ _).bind fun leave => .ask fun _ => ?_
      refine (Lower.settle_unsigned _ _ _).bind fun _ => ?_
      refine (branch fun inner => statement_unsigned h.2.2 inner).bind fun _ => ?_
      exact .ask fun _ => Lower.settle_unsigned _ _ _
  | loop place condition body =>
      rw [statement]
      refine .ask fun start => (expression_unsigned h.1 depth).bind fun _ => ?_
      refine (Lower.jump_unsigned _ _).bind fun leave => ?_
      refine (Lower.block_unsigned place ((Unsigned.deeper depth).bind fun inner =>
        statement_unsigned h.2 inner)).bind fun _ => ?_
      refine (Lower.jump_unsigned _ _).bind fun again => ?_
      exact (Lower.settle_unsigned _ _ _).bind fun _ => .ask fun _ => Lower.settle_unsigned _ _ _
  | function place name parameters bodyPlace body =>
      rw [statement]
      refine (functionHead_unsigned place name parameters).bind fun skip => ?_
      exact (functionBody_unsigned h depth).bind fun returned => functionEnd_unsigned _ _ _ _
  | ret place value =>
      rw [statement]
      refine Unsigned.get.bind fun s => .guard ?_
      cases value with
      | none => exact (Lower.emit_unsigned _ _ _).bind fun _ => Lower.emit_unsigned _ _ _
      | some value => exact (expression_unsigned h depth).bind fun _ => Lower.emit_unsigned _ _ _

theorem statementList_unsigned {body : List Stmt} (h : listUnsigned body) (depth : Depth) :
    Unsigned (statementList depth body) := by
  cases body with
  | nil =>
      rw [statementList]
      exact .pure _
  | cons first rest =>
      rw [statementList]
      refine (Unsigned.deeper depth).bind fun inner => ?_
      exact (statement_unsigned h.1 inner).bind fun _ => statementList_unsigned h.2 depth

theorem functionBody_unsigned {body : List Stmt} (h : listUnsigned body) (depth : Depth) :
    Unsigned (functionBody depth body) := by
  cases body with
  | nil =>
      rw [functionBody]
      exact .pure _
  | cons first rest =>
      rw [functionBody]
      refine (Unsigned.deeper depth).bind fun inner => (statement_unsigned h.1 inner).bind fun _ => ?_
      split
      · exact .pure _
      · exact functionBody_unsigned h.2 depth

end

end Lowering

/-- The statements that are read from texts. -/
def Stmt.IsRead (st : Stmt) : Prop :=
  ∃ file text program, Syntax.program file text = .ok program ∧ st ∈ program

theorem listUnsigned.of_mem {body : List Stmt} (h : listUnsigned body) {st : Stmt}
    (mem : st ∈ body) : st.Unsigned := by
  induction body with
  | nil => cases mem
  | cons first rest ih =>
      rcases List.mem_cons.mp mem with rfl | later
      · exact h.1
      · exact ih h.2 later

theorem Stmt.IsRead.unsigned {st : Stmt} (h : st.IsRead) : st.Unsigned := by
  obtain ⟨file, text, program, read, mem⟩ := h
  exact (Syntax.program_unsigned read).of_mem mem

namespace Chunk

variable {chunk later : Chunk} {poolSize : Nat}

theorem addStatement_unsigned {limit : Nat} {st : Stmt} {outcome : Except Failure Nat}
    (named : st.Unsigned) (h : chunk.ConstantsUnsigned)
    (added : chunk.addStatement limit st = (later, outcome)) : later.ConstantsUnsigned := by
  have kept := Lowering.statement_unsigned named ⟨st.location, limit⟩ ⟨chunk, none⟩ h
  unfold addStatement at added
  generalize Lowering.statement ⟨st.location, limit⟩ st ⟨chunk, none⟩ = result at kept added
  cases result with
  | ok value state =>
      obtain ⟨rfl, -⟩ := Prod.mk.inj added
      exact kept
  | error failure state =>
      cases failure with
      | refused diagnostic =>
          obtain ⟨rfl, -⟩ := Prod.mk.inj added
          exact kept
      | malformed fault =>
          obtain ⟨rfl, -⟩ := Prod.mk.inj added
          exact kept

/-- Whatever statements are read from texts and added to a chunk, no number in its pool has a
sign. -/
theorem Filled.constantsUnsigned (filled : chunk.Filled Stmt.IsRead poolSize) :
    chunk.ConstantsUnsigned := by
  induction filled with
  | empty => exact constantsUnsigned_empty poolSize
  | add _ used read added ih =>
      exact addStatement_unsigned read.unsigned ih (used.addStatement_eq added)

end Chunk

end StackScript
