/-
# Constants

Equal numbers share an entry in the pool of constants, so that the machine may find
another number than the one that the draft names. In the code of a program that was
read from a text this makes no difference: its numbers have no sign, and among such
numbers those that are equal are the same.
-/

import StackScript.Proofs.Lowering.Whole
import StackScript.Proofs.Machine.Perform
import StackScript.Proofs.Syntax.Numerals

namespace StackScript

open Line (extent placed)

/-- No number that is named in the lines has a sign. -/
def Line.AllUnsigned (lines : List Line) : Prop :=
  ∀ line ∈ lines, ∀ value, line.instr = .const value → Number.Unsigned value

namespace Line.AllUnsigned

variable {line : Line} {lines more : List Line}

theorem nil : AllUnsigned [] := by simp [AllUnsigned]

theorem append (h : AllUnsigned lines) (h' : AllUnsigned more) : AllUnsigned (lines ++ more) := by
  intro line mem
  rcases List.mem_append.mp mem with mem | mem
  · exact h line mem
  · exact h' line mem

theorem cons (h : line.instr.op ≠ .const) (h' : AllUnsigned lines) :
    AllUnsigned (line :: lines) := by
  intro other mem value same
  rcases List.mem_cons.mp mem with rfl | mem
  · rw [same] at h
    exact absurd rfl h
  · exact h' other mem value same

theorem single (h : line.instr.op ≠ .const) : AllUnsigned [line] := cons h nil

end Line.AllUnsigned

open Line (AllUnsigned)

section Drafts

theorem popLines_unsigned (home : Option Nat) (place : Location) (height count : Nat) :
    AllUnsigned (popLines home place height count) := by
  induction count with
  | zero => exact .nil
  | succ count ih => exact .cons nofun ih

theorem operator_unsigned (ctx : Context) (extra : Nat) (place : Location) (op : BinaryOp) :
    AllUnsigned (ctx.operator extra place op) := by
  unfold Context.operator
  refine .cons ?_ ?_
  · cases op <;> simp [Instr.op, BinaryOp.base]
  · split
    · exact .single (by simp [Instr.op])
    · exact .nil

theorem Literal.line_unsigned {value : Literal} (h : value.Unsigned) (ctx : Context) (extra : Nat)
    (place : Location) : AllUnsigned [ctx.line extra place value.instr] := by
  cases value with
  | number value =>
      intro line mem found same
      obtain rfl := List.mem_singleton.mp mem
      cases same
      exact h
  | bool value => cases value <;> exact .single (by simp [Literal.instr, Instr.op])
  | _ => exact .single (by simp [Literal.instr, Instr.op])

mutual

theorem Expr.code_unsigned {e : Expr} (h : e.Unsigned) (ctx : Context) (extra : Nat) :
    AllUnsigned (e.code ctx extra) := by
  cases e with
  | literal place value => exact value.line_unsigned h ctx extra place
  | reference place name =>
      refine .single ?_
      simp only [Context.line_instr, Context.fetch]
      split <;> simp [Instr.op]
  | unary place op operand =>
      refine (operand.code_unsigned h ctx extra).append (.single ?_)
      cases op <;> simp [Instr.op, UnaryOp.opcode]
  | binary place op left right =>
      exact ((left.code_unsigned h.1 ctx extra).append (right.code_unsigned h.2 ctx _)).append
        (operator_unsigned ctx extra place op)
  | call place callee arguments =>
      exact (argumentCode_unsigned h ctx extra).append (.single nofun)

theorem argumentCode_unsigned {arguments : List Expr} (h : argumentsUnsigned arguments)
    (ctx : Context) (extra : Nat) : AllUnsigned (argumentCode ctx extra arguments) := by
  cases arguments with
  | nil => exact .nil
  | cons first rest =>
      exact (first.code_unsigned h.1 ctx extra).append (argumentCode_unsigned h.2 ctx (extra + 1))

end

mutual

theorem Stmt.code_unsigned {st : Stmt} (h : st.Unsigned) (offset : Nat) (ctx : Context) :
    AllUnsigned (st.code offset ctx) := by
  cases st with
  | expression place value => exact (value.code_unsigned h ctx 0).append (.single nofun)
  | print place value => exact (value.code_unsigned h ctx 0).append (.single nofun)
  | declare place name value =>
      refine (value.code_unsigned h ctx 0).append ?_
      split
      · exact .nil
      · exact .single nofun
  | assign place name value =>
      refine (value.code_unsigned h ctx 0).append (.single ?_)
      simp only [Context.line_instr, Context.store]
      split <;> simp [Instr.op]
  | block place body =>
      exact (listCode_unsigned h offset ctx).append (popLines_unsigned _ _ _ _)
  | ifThen place condition yes =>
      refine (condition.code_unsigned h.1 ctx 0).append (.cons nofun ?_)
      exact (yes.code_unsigned h.2 _ ctx).append (popLines_unsigned _ _ _ _)
  | ifElse place condition yes no =>
      refine (condition.code_unsigned h.1 ctx 0).append (.cons nofun ?_)
      refine ((yes.code_unsigned h.2.1 _ ctx).append (popLines_unsigned _ _ _ _)).append ?_
      refine .cons nofun ?_
      exact (no.code_unsigned h.2.2 _ ctx).append (popLines_unsigned _ _ _ _)
  | loop place condition body =>
      refine (condition.code_unsigned h.1 ctx 0).append (.cons nofun ?_)
      refine ((body.code_unsigned h.2 _ ctx).append (popLines_unsigned _ _ _ _)).append ?_
      exact .single nofun
  | function place name parameters bodyPlace body =>
      refine .cons nofun (.cons nofun ?_)
      exact bodyCode_unsigned h _ _ bodyPlace
  | ret place value =>
      cases value with
      | none => exact .cons nofun (.single nofun)
      | some value => exact (value.code_unsigned h ctx 0).append (.single nofun)

theorem listCode_unsigned {body : List Stmt} (h : listUnsigned body) (offset : Nat)
    (ctx : Context) : AllUnsigned (listCode offset ctx body) := by
  cases body with
  | nil => exact .nil
  | cons first rest =>
      exact (first.code_unsigned h.1 offset ctx).append (listCode_unsigned h.2 _ _)

theorem bodyCode_unsigned {body : List Stmt} (h : listUnsigned body) (offset : Nat)
    (ctx : Context) (place : Location) : AllUnsigned (bodyCode offset ctx place body) := by
  cases body with
  | nil => exact .cons nofun (.single nofun)
  | cons first rest =>
      rw [bodyCode]
      split
      · exact first.code_unsigned h.1 offset ctx
      · exact (first.code_unsigned h.1 offset ctx).append (bodyCode_unsigned h.2 _ _ place)

end

end Drafts

theorem Pool.mem_of_get? {α : Type} {pool : Pool α} {value : α} {id : Nat}
    (found : pool.get? id = some value) : value ∈ pool.entries.toList := by
  rw [Pool.get?, if_pos (Int.natCast_nonneg id)] at found
  exact Array.mem_toList_iff.mpr (Array.mem_of_getElem? found)

namespace Chunk

variable {chunk later : Chunk} {line : Line} {lines : List Line}

/-- No number in the pool of constants has a sign. -/
def ConstantsUnsigned (chunk : Chunk) : Prop :=
  ∀ value ∈ chunk.constants.entries.toList, Number.Unsigned value

theorem constantsUnsigned_empty (poolSize : Nat) : (empty poolSize).ConstantsUnsigned := by
  simp [ConstantsUnsigned, empty, Pool.empty]

/-- Only numbers that are named in the code come into the pool. -/
theorem identify_constants {grown : Chunk} {instr : Instr} {operands : List Int}
    (h : chunk.identify instr = some (grown, operands)) :
    ∀ value ∈ grown.constants.entries.toList,
      value ∈ chunk.constants.entries.toList ∨ instr = .const value := by
  intro value mem
  cases instr with
  | const named =>
      obtain ⟨⟨constants, id⟩, interned, found⟩ := Option.map_eq_some_iff.mp h
      obtain ⟨rfl, -⟩ := Prod.mk.inj found
      rcases Pool.mem_of_intern? interned value mem with old | rfl
      · exact .inl old
      · exact .inr rfl
  | plain | deepSet | deepGet | jmp | jz =>
      obtain ⟨rfl, -⟩ := Prod.mk.inj (Option.some.inj h)
      exact .inl mem
  | str | setGlobal | getGlobal | func | invoke =>
      obtain ⟨⟨strings, id⟩, -, found⟩ := Option.map_eq_some_iff.mp h
      obtain ⟨rfl, -⟩ := Prod.mk.inj found
      exact .inl mem

theorem ConstantsUnsigned.addLine (h : chunk.ConstantsUnsigned) (named : AllUnsigned [line])
    (added : chunk.addLine line = some later) : later.ConstantsUnsigned := by
  obtain ⟨grown, operands, identified, -, rfl⟩ := addLine_eq_some.mp added
  intro value mem
  rcases identify_constants identified value mem with old | same
  · exact h value old
  · exact named line List.mem_cons_self value same

theorem ConstantsUnsigned.addLines (h : chunk.ConstantsUnsigned) (named : AllUnsigned lines)
    (added : chunk.addLines lines = some later) : later.ConstantsUnsigned := by
  induction lines generalizing chunk with
  | nil =>
      obtain rfl := Option.some.inj added
      exact h
  | cons line lines ih =>
      rw [addLines_cons, Option.bind_eq_some_iff] at added
      obtain ⟨next, first, rest⟩ := added
      exact ih (h.addLine (fun other mem => named other (by simp at mem; simp [mem])) first)
        (fun other mem => named other (List.mem_cons_of_mem line mem)) rest

/-- Where all numbers are without a sign, the machine finds just what the draft says. -/
theorem Shows.reads_exactly {offset : Nat} (h : chunk.Shows offset line)
    (constants : chunk.ConstantsUnsigned) (named : AllUnsigned [line]) :
    chunk.Reads offset line.instr := by
  obtain ⟨actual, means, reads⟩ := h.reads
  suffices same : actual = line.instr from same ▸ reads
  cases found : line.instr with
  | const value =>
      rw [found] at means
      obtain ⟨entry, rfl, equal | rfl⟩ := means
      · obtain ⟨operands, -, exactly, -⟩ := reads
        obtain ⟨id, -, at'⟩ := exactly entry rfl
        have unsigned := constants entry (Pool.mem_of_get? at')
        exact congrArg Instr.const
          (unsigned.eq_of_beq (named line List.mem_cons_self value found) equal)
      · rfl
  | _ =>
      rw [found] at means
      exact means

/-- A program of numbers without a sign is accepted by a fresh chunk as it is. -/
theorem reads_of_addLines {poolSize : Nat} (small : poolSize ≤ maxPoolSize)
    (named : AllUnsigned lines) (added : (empty poolSize).addLines lines = some later) :
    (∀ p ∈ placed 0 lines, later.Reads p.1 p.2.instr) ∧ later.size = extent lines := by
  have assembled := (assembled_empty small).addLines added
  have constants := (constantsUnsigned_empty poolSize).addLines named added
  refine ⟨fun p mem => ?_, assembled.size_eq⟩
  refine (assembled.shown p mem).reads_exactly constants ?_
  intro line only
  rw [List.mem_singleton.mp only]
  exact named p.2 (Line.mem_of_mem_placed mem)

end Chunk

end StackScript
