/-
# Jumps forward

Only a loop has a jump back, to its test. The branches of a statement and the bodies of functions
are jumped over, so that in the code of a program without loops no jump leads back.
-/

import StackScript.Proofs.Draft.Scheme

namespace StackScript

mutual

/-- There is no loop in a statement. -/
def Stmt.Loopless : Stmt → Prop
  | .loop _ _ _ => False
  | .block _ body | .function _ _ _ _ body => listLoopless body
  | .ifThen _ _ yes => yes.Loopless
  | .ifElse _ _ yes no => yes.Loopless ∧ no.Loopless
  | _ => True

/-- There is no loop in statements. -/
def listLoopless : List Stmt → Prop
  | [] => True
  | first :: rest => first.Loopless ∧ listLoopless rest

end

/-- An instruction that does not lead back. -/
def Instr.Forward : Instr → Prop
  | jmp distance | jz distance => 0 ≤ distance
  | _ => True

/-- No line leads back. -/
def Line.AllForward (lines : List Line) : Prop := ∀ line ∈ lines, line.instr.Forward

namespace Line.AllForward

variable {line : Line} {lines more : List Line}

theorem nil : AllForward [] := nofun

theorem cons (h : line.instr.Forward) (rest : AllForward lines) : AllForward (line :: lines) :=
  List.forall_mem_cons.mpr ⟨h, rest⟩

theorem single (h : line.instr.Forward) : AllForward [line] := cons h nil

theorem append (h : AllForward lines) (h' : AllForward more) : AllForward (lines ++ more) :=
  List.forall_mem_append.mpr ⟨h, h'⟩

end Line.AllForward

open Line (AllForward)

theorem popLines_forward (home : Option Nat) (place : Location) (height count : Nat) :
    AllForward (popLines home place height count) := by
  induction count with
  | zero => exact .nil
  | succ count ih => exact .cons trivial ih

theorem Literal.instr_forward (value : Literal) : value.instr.Forward := by
  cases value with
  | bool value => cases value <;> trivial
  | _ => trivial

theorem Context.fetch_forward (ctx : Context) (name : String) : (ctx.fetch name).Forward := by
  rw [fetch]
  split <;> trivial

theorem Context.store_forward (ctx : Context) (name : String) : (ctx.store name).Forward := by
  rw [store]
  split <;> trivial

theorem Context.operator_forward (ctx : Context) (extra : Nat) (place : Location) (op : BinaryOp) :
    AllForward (ctx.operator extra place op) := by
  refine .cons trivial ?_
  split
  · exact .single trivial
  · exact .nil

mutual

/-- There are no jumps in an expression. -/
theorem Expr.code_forward (e : Expr) (ctx : Context) (extra : Nat) :
    AllForward (e.code ctx extra) := by
  cases e with
  | literal place value => exact .single value.instr_forward
  | reference place name => exact .single (ctx.fetch_forward name)
  | unary place op operand => exact (operand.code_forward ctx extra).append (.single trivial)
  | binary place op left right =>
      exact ((left.code_forward ctx extra).append (right.code_forward ctx _)).append
        (ctx.operator_forward extra place op)
  | call place callee arguments =>
      exact (argumentCode_forward arguments ctx extra).append (.single trivial)

theorem argumentCode_forward (arguments : List Expr) (ctx : Context) (extra : Nat) :
    AllForward (argumentCode ctx extra arguments) := by
  cases arguments with
  | nil => exact .nil
  | cons first rest =>
      exact (first.code_forward ctx extra).append (argumentCode_forward rest ctx (extra + 1))

end

mutual

/-- Without loops, all jumps lead forward. -/
theorem Stmt.code_forward {st : Stmt} (loopless : st.Loopless) (offset : Nat) (ctx : Context) :
    AllForward (st.code offset ctx) := by
  cases st with
  | expression place value => exact (value.code_forward ctx 0).append (.single trivial)
  | print place value => exact (value.code_forward ctx 0).append (.single trivial)
  | declare place name value =>
      refine (value.code_forward ctx 0).append ?_
      split
      · exact .nil
      · exact .single trivial
  | assign place name value =>
      exact (value.code_forward ctx 0).append (.single (ctx.store_forward name))
  | block place body =>
      exact (listCode_forward loopless offset ctx).append (popLines_forward _ _ _ _)
  | ifThen place condition yes =>
      refine (condition.code_forward ctx 0).append (.cons (Int.natCast_nonneg _) ?_)
      exact (yes.code_forward loopless _ ctx).append (popLines_forward _ _ _ _)
  | ifElse place condition yes no =>
      refine (condition.code_forward ctx 0).append (.cons (Int.natCast_nonneg _) ?_)
      refine ((yes.code_forward loopless.1 _ ctx).append (popLines_forward _ _ _ _)).append ?_
      refine .cons (Int.natCast_nonneg _) ?_
      exact (no.code_forward loopless.2 _ ctx).append (popLines_forward _ _ _ _)
  | loop place condition body => exact loopless.elim
  | function place name parameters bodyPlace body =>
      refine .cons trivial (.cons (Int.natCast_nonneg _) ?_)
      exact bodyCode_forward loopless _ _ bodyPlace
  | ret place value =>
      cases value with
      | none => exact .cons trivial (.single trivial)
      | some value => exact (value.code_forward ctx 0).append (.single trivial)

theorem listCode_forward {body : List Stmt} (loopless : listLoopless body) (offset : Nat)
    (ctx : Context) : AllForward (listCode offset ctx body) := by
  cases body with
  | nil => exact .nil
  | cons first rest =>
      exact (first.code_forward loopless.1 offset ctx).append (listCode_forward loopless.2 _ _)

theorem bodyCode_forward {body : List Stmt} (loopless : listLoopless body) (offset : Nat)
    (ctx : Context) (place : Location) : AllForward (bodyCode offset ctx place body) := by
  cases body with
  | nil => exact .cons trivial (.single trivial)
  | cons first rest =>
      rw [bodyCode]
      split
      · exact first.code_forward loopless.1 offset ctx
      · exact (first.code_forward loopless.1 offset ctx).append
          (bodyCode_forward loopless.2 _ _ place)

end

end StackScript
