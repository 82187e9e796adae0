/-
# Moved drafts

The draft of a statement depends on where it stands in two ways only: a definition says where
the body of the function starts, and the lines of the body are marked with it. The draft at a
later offset is therefore the earlier one, moved. Jumps are relative and do not notice.
-/

import StackScript.Proofs.Draft.Scheme

namespace StackScript

open Line (extent placed)

/-- An instruction as it is in code that starts so many bytes later. -/
def Instr.moved (distance : Nat) : Instr → Instr
  | .func name arity start => .func name arity (start + distance)
  | instr => instr

/-- The place of control in code that starts so many bytes later. -/
def Mark.moved (distance : Nat) (mark : Mark) : Mark :=
  { mark with home := mark.home.map (· + distance) }

/-- A line of code that starts so many bytes later. -/
def Line.moved (distance : Nat) (line : Line) : Line :=
  ⟨line.place, line.mark.moved distance, line.instr.moved distance⟩

/-- The surroundings of code that starts so many bytes later. -/
def Context.moved (distance : Nat) (ctx : Context) : Context :=
  { ctx with home := ctx.home.map (· + distance) }

variable {distance : Nat}

@[simp] theorem Instr.op_moved (instr : Instr) : (instr.moved distance).op = instr.op := by
  cases instr <;> rfl

namespace Line

@[simp] theorem instr_moved (line : Line) :
    (line.moved distance).instr = line.instr.moved distance := rfl

@[simp] theorem size_moved (line : Line) : (line.moved distance).size = line.size := by
  simp [size]

@[simp] theorem extent_moved (lines : List Line) :
    extent (lines.map (moved distance)) = extent lines := by
  induction lines with
  | nil => rfl
  | cons line lines ih => simp [ih]

/-- Moved lines lie as far from each other as before. -/
theorem placed_moved (offset : Nat) (lines : List Line) :
    placed (offset + distance) (lines.map (moved distance)) =
      (placed offset lines).map fun p => (p.1 + distance, p.2.moved distance) := by
  induction lines generalizing offset with
  | nil => rfl
  | cons line lines ih =>
      simp only [List.map_cons, placed_cons, size_moved, List.cons.injEq, true_and]
      rw [Nat.add_right_comm]
      exact ih (offset + line.size)

end Line

namespace Context

@[simp] theorem home_moved (ctx : Context) :
    (ctx.moved distance).home = ctx.home.map (· + distance) := rfl

theorem ofBody_moved (start : Nat) (parameters : List Parameter) :
    ofBody (start + distance) parameters = (ofBody start parameters).moved distance := rfl

theorem line_moved (ctx : Context) (extra : Nat) (place : Location) (instr : Instr) :
    (ctx.line extra place instr).moved distance =
      (ctx.moved distance).line extra place (instr.moved distance) := rfl

@[simp] theorem fetch_moved (ctx : Context) (name : String) :
    (ctx.fetch name).moved distance = (ctx.moved distance).fetch name := by
  unfold fetch
  rw [show (ctx.moved distance).slot? name = ctx.slot? name from rfl]
  cases ctx.slot? name <;> rfl

@[simp] theorem store_moved (ctx : Context) (name : String) :
    (ctx.store name).moved distance = (ctx.moved distance).store name := by
  unfold store
  rw [show (ctx.moved distance).slot? name = ctx.slot? name from rfl]
  cases ctx.slot? name <;> rfl

theorem declare_moved (ctx : Context) (name : String) :
    (ctx.moved distance).declare name = (ctx.declare name).moved distance := by
  unfold declare
  cases found : ctx.home <;> simp [moved, found]

@[simp] theorem after_moved (ctx : Context) (st : Stmt) :
    (ctx.moved distance).after st = (ctx.after st).moved distance := by
  cases st with
  | declare place name value => exact ctx.declare_moved name
  | _ => rfl

@[simp] theorem afterAll_moved (ctx : Context) (body : List Stmt) :
    (ctx.moved distance).afterAll body = (ctx.afterAll body).moved distance := by
  induction body generalizing ctx with
  | nil => rfl
  | cons first rest ih => rw [afterAll_cons, after_moved, ih, afterAll_cons]

theorem popLines_moved (home : Option Nat) (place : Location) (height count : Nat) :
    popLines (home.map (· + distance)) place height count =
      (popLines home place height count).map (Line.moved distance) := by
  induction count with
  | zero => rfl
  | succ count ih =>
      rw [popLines, ih]
      rfl

@[simp] theorem closing_moved (ctx inner : Context) (place : Location) :
    (ctx.moved distance).closing (inner.moved distance) place =
      (ctx.closing inner place).map (Line.moved distance) :=
  popLines_moved ctx.home place _ _

@[simp] theorem operator_moved (ctx : Context) (extra : Nat) (place : Location) (op : BinaryOp) :
    (ctx.moved distance).operator extra place op =
      (ctx.operator extra place op).map (Line.moved distance) := by
  unfold operator
  cases op.negates <;> rfl

end Context

theorem Literal.instr_moved (value : Literal) : value.instr.moved distance = value.instr := by
  cases value with
  | bool value => cases value <;> rfl
  | _ => rfl

mutual

theorem Expr.code_moved (e : Expr) (ctx : Context) (extra : Nat) :
    e.code (ctx.moved distance) extra = (e.code ctx extra).map (Line.moved distance) := by
  cases e with
  | literal place value =>
      simp only [Expr.code, List.map_cons, List.map_nil, Context.line_moved, value.instr_moved]
  | reference place name =>
      simp only [Expr.code, List.map_cons, List.map_nil, Context.line_moved, Context.fetch_moved]
  | unary place op operand =>
      simp only [Expr.code, operand.code_moved, List.map_append, List.map_cons, List.map_nil,
        Context.line_moved, Instr.moved]
  | binary place op left right =>
      simp only [Expr.code, left.code_moved, right.code_moved, Context.operator_moved,
        List.map_append]
  | call place callee arguments =>
      simp only [Expr.code, argumentCode_moved arguments, List.map_append, List.map_cons,
        List.map_nil, Context.line_moved, Instr.moved]

theorem argumentCode_moved (arguments : List Expr) (ctx : Context) (extra : Nat) :
    argumentCode (ctx.moved distance) extra arguments =
      (argumentCode ctx extra arguments).map (Line.moved distance) := by
  cases arguments with
  | nil => rfl
  | cons first rest =>
      simp only [argumentCode, first.code_moved, argumentCode_moved rest, List.map_append]

end

mutual

/-- The draft of a statement at a later offset is the earlier one, moved. -/
theorem Stmt.code_moved (st : Stmt) (offset : Nat) (ctx : Context) :
    st.code (offset + distance) (ctx.moved distance) =
      (st.code offset ctx).map (Line.moved distance) := by
  -- The distance comes last in every offset of the draft.
  have shift (start more : Nat) : start + distance + more = start + more + distance :=
    Nat.add_right_comm start distance more
  cases st with
  | expression place value | print place value =>
      simp only [Stmt.code, value.code_moved, List.map_append, List.map_cons, List.map_nil,
        Context.line_moved, Instr.moved]
  | declare place name value =>
      simp only [Stmt.code, value.code_moved, List.map_append, Context.home_moved, Option.isSome_map]
      cases ctx.home <;> rfl
  | assign place name value =>
      simp only [Stmt.code, value.code_moved, List.map_append, List.map_cons, List.map_nil,
        Context.line_moved, Context.store_moved]
  | block place body =>
      simp only [Stmt.code, listCode_moved body, Context.afterAll_moved, Context.closing_moved,
        List.map_append]
  | ifThen place condition yes =>
      -- The parts are moved as wholes first: the distances of jumps are the extents of parts.
      simp only [Stmt.code, Line.extent_moved, condition.code_moved, shift, yes.code_moved,
        Context.after_moved, Context.closing_moved, ← List.map_append]
      simp only [List.map_append, List.map_cons, Context.line_moved, Instr.moved]
  | ifElse place condition yes no =>
      simp only [Stmt.code, Line.extent_moved, condition.code_moved, shift, yes.code_moved,
        no.code_moved, Context.after_moved, Context.closing_moved, ← List.map_append]
      simp only [List.map_append, List.map_cons, Context.line_moved, Instr.moved]
  | loop place condition body =>
      simp only [Stmt.code, Line.extent_moved, condition.code_moved, shift, body.code_moved,
        Context.after_moved, Context.closing_moved, ← List.map_append]
      simp only [List.map_append, List.map_cons, List.map_nil, Context.line_moved, Instr.moved]
  | function place name parameters bodyPlace body =>
      simp only [Stmt.code, shift, Context.ofBody_moved, bodyCode_moved body, Line.extent_moved,
        List.map_cons, Context.line_moved, Instr.moved]
  | ret place value =>
      cases value with
      | none => rfl
      | some value =>
          simp only [Stmt.code, value.code_moved, List.map_append, List.map_cons, List.map_nil,
            Context.line_moved, Instr.moved]

theorem listCode_moved (body : List Stmt) (offset : Nat) (ctx : Context) :
    listCode (offset + distance) (ctx.moved distance) body =
      (listCode offset ctx body).map (Line.moved distance) := by
  cases body with
  | nil => rfl
  | cons first rest =>
      simp only [listCode, first.code_moved, Line.extent_moved, Context.after_moved,
        List.map_append, Nat.add_right_comm offset distance, listCode_moved rest]

theorem bodyCode_moved (body : List Stmt) (offset : Nat) (ctx : Context) (bodyPlace : Location) :
    bodyCode (offset + distance) (ctx.moved distance) bodyPlace body =
      (bodyCode offset ctx bodyPlace body).map (Line.moved distance) := by
  cases body with
  | nil => rfl
  | cons first rest =>
      rw [bodyCode, bodyCode]
      cases first.isReturn with
      | true => exact first.code_moved offset ctx
      | false =>
          simp only [Bool.false_eq_true, if_false, first.code_moved, Line.extent_moved,
            Context.after_moved, List.map_append, Nat.add_right_comm offset distance,
            bodyCode_moved rest]

end

end StackScript
