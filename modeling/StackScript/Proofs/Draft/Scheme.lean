/-
# The scheme of code

The draft of every expression and statement, as a function of the syntax tree
and of where it stands. Nothing here can fail and nothing is written twice: the
distances of jumps are known from the drafts between their ends. What stands
against a limit of the format is not the concern of the scheme; a draft may be
too large to be written down.
-/

import StackScript.Lowering.Statement
import StackScript.Proofs.Draft.Line

namespace StackScript

open Line (extent)

/-- Where a piece of code stands: the start of the function body around it, if
there is one, and the names of the local variables, the last one first. -/
structure Context where
  home : Option Nat
  names : List String

namespace Context

/-- Outside of functions. -/
def top : Context := ⟨none, []⟩

/-- At the beginning of the body of a function. -/
def ofBody (start : Nat) (parameters : List Parameter) : Context :=
  ⟨some start, (parameters.map Parameter.name).reverse⟩

/-- The mark of a line, given how many values lie above the local variables. -/
def mark (ctx : Context) (extra : Nat) : Mark := ⟨ctx.home, ctx.names.length + extra⟩

/-- A line that stands here. -/
def line (ctx : Context) (extra : Nat) (place : Location) (instr : Instr) : Line :=
  ⟨some place, ctx.mark extra, instr⟩

@[simp] theorem line_mark (ctx : Context) (extra : Nat) (place : Location) (instr : Instr) :
    (ctx.line extra place instr).mark = ctx.mark extra := rfl

@[simp] theorem line_instr (ctx : Context) (extra : Nat) (place : Location) (instr : Instr) :
    (ctx.line extra place instr).instr = instr := rfl

@[simp] theorem line_size (ctx : Context) (extra : Nat) (place : Location) (instr : Instr) :
    (ctx.line extra place instr).size = instr.op.size := rfl

@[simp] theorem mark_home (ctx : Context) (extra : Nat) : (ctx.mark extra).home = ctx.home := rfl

/-- The slot of a name: the last one declared with it. -/
def slot? (ctx : Context) (name : String) : Option Nat :=
  (ctx.names.findIdx? (· == name)).map fun index => ctx.names.length - 1 - index

/-- The instruction that fetches a variable. -/
def fetch (ctx : Context) (name : String) : Instr :=
  match ctx.slot? name with
  | some slot => .deepGet slot
  | none => .getGlobal name

/-- The instruction that gives a variable a new value. -/
def store (ctx : Context) (name : String) : Instr :=
  match ctx.slot? name with
  | some slot => .deepSet slot
  | none => .setGlobal name

/-- After the declaration of a name. Only functions have local variables. -/
def declare (ctx : Context) (name : String) : Context :=
  if ctx.home.isSome then { ctx with names := name :: ctx.names } else ctx

/-- After a statement. -/
def after (ctx : Context) : Stmt → Context
  | .declare _ name _ => ctx.declare name
  | _ => ctx

/-- After several statements. -/
def afterAll (ctx : Context) (body : List Stmt) : Context := body.foldl after ctx

@[simp] theorem afterAll_nil (ctx : Context) : ctx.afterAll [] = ctx := rfl

@[simp] theorem afterAll_cons (ctx : Context) (first : Stmt) (rest : List Stmt) :
    ctx.afterAll (first :: rest) = (ctx.after first).afterAll rest := rfl

@[simp] theorem declare_home (ctx : Context) (name : String) :
    (ctx.declare name).home = ctx.home := by
  unfold declare
  split <;> rfl

@[simp] theorem after_home (ctx : Context) (st : Stmt) : (ctx.after st).home = ctx.home := by
  cases st <;> simp [after]

@[simp] theorem afterAll_home (ctx : Context) (body : List Stmt) :
    (ctx.afterAll body).home = ctx.home := by
  induction body generalizing ctx with
  | nil => rfl
  | cons first rest ih => exact (ih (ctx.after first)).trans (ctx.after_home first)

@[simp] theorem after_top (st : Stmt) : top.after st = top := by
  cases st <;> rfl

@[simp] theorem afterAll_top (body : List Stmt) : top.afterAll body = top := by
  induction body with
  | nil => rfl
  | cons first rest ih => rw [afterAll_cons, after_top, ih]

end Context

/-- Lines that take values off the stack, down to the given height. -/
def popLines (home : Option Nat) (place : Location) (height : Nat) : Nat → List Line
  | 0 => []
  | count + 1 =>
    ⟨some place, ⟨home, height + count + 1⟩, .plain .pop rfl⟩ :: popLines home place height count

/-- The end of a block: the variables that it has declared go. -/
def Context.closing (ctx inner : Context) (place : Location) : List Line :=
  popLines ctx.home place ctx.names.length (inner.names.length - ctx.names.length)

/-- The instruction of a literal. -/
def Literal.instr : Literal → Instr
  | null => .plain .null rfl
  | bool true => .plain .true rfl
  | bool false => .plain .false rfl
  | number value => .const value
  | string value => .str value

/-- The comparison or calculation that an operator is made of. -/
def BinaryOp.base : BinaryOp → Opcode
  | equal | notEqual => .eq
  | less | greaterEqual => .lt
  | greater | lessEqual => .gt
  | add => .add
  | subtract => .sub
  | multiply => .mul
  | divide => .div
  | remainder => .mod

/-- Is an operator the negation of what it is made of? -/
def BinaryOp.negates : BinaryOp → Bool
  | notEqual | lessEqual | greaterEqual => true
  | _ => false

theorem BinaryOp.opcodes_eq (op : BinaryOp) :
    op.opcodes = op.base :: if op.negates then [Opcode.not] else [] := by
  cases op <;> rfl

theorem BinaryOp.base_bare (op : BinaryOp) : op.base.operands = [] := by
  cases op <;> rfl

theorem UnaryOp.opcode_bare (op : UnaryOp) : op.opcode.operands = [] := by
  cases op <;> rfl

/-- The lines of a binary operator. -/
def Context.operator (ctx : Context) (extra : Nat) (place : Location) (op : BinaryOp) :
    List Line :=
  ctx.line (extra + 2) place (.plain op.base op.base_bare) ::
    if op.negates then [ctx.line (extra + 1) place (.plain .not rfl)] else []

mutual

/-- The draft of an expression: it leaves one more value on the stack. -/
def Expr.code (ctx : Context) (extra : Nat) : Expr → List Line
  | .literal place value => [ctx.line extra place value.instr]
  | .reference place name => [ctx.line extra place (ctx.fetch name)]
  | .unary place op operand =>
    operand.code ctx extra ++ [ctx.line (extra + 1) place (.plain op.opcode op.opcode_bare)]
  | .binary place op left right =>
    left.code ctx extra ++ right.code ctx (extra + 1) ++ ctx.operator extra place op
  | .call place callee arguments =>
    argumentCode ctx extra arguments ++
      [ctx.line (extra + arguments.length) place (.invoke callee arguments.length)]

/-- The draft of arguments: each leaves one more value on the stack. -/
def argumentCode (ctx : Context) (extra : Nat) : List Expr → List Line
  | [] => []
  | first :: rest => first.code ctx extra ++ argumentCode ctx (extra + 1) rest

end

mutual

/-- The draft of a statement at an offset. -/
def Stmt.code (offset : Nat) (ctx : Context) : Stmt → List Line
  | .expression place value => value.code ctx 0 ++ [ctx.line 1 place (.plain .pop rfl)]
  | .print place value => value.code ctx 0 ++ [ctx.line 1 place (.plain .print rfl)]
  | .declare place name value =>
    value.code ctx 0 ++ if ctx.home.isSome then [] else [ctx.line 1 place (.setGlobal name)]
  | .assign place name value => value.code ctx 0 ++ [ctx.line 1 place (ctx.store name)]
  | .block place body => listCode offset ctx body ++ ctx.closing (ctx.afterAll body) place
  | .ifThen place condition yes =>
    let test := condition.code ctx 0
    let part := yes.code (offset + extent test + Opcode.jz.size) ctx ++
      ctx.closing (ctx.after yes) place
    test ++ ctx.line 1 place (.jz (extent part)) :: part
  | .ifElse place condition yes no =>
    let test := condition.code ctx 0
    let first := yes.code (offset + extent test + Opcode.jz.size) ctx ++
      ctx.closing (ctx.after yes) place
    let second :=
      no.code (offset + extent test + Opcode.jz.size + extent first + Opcode.jmp.size) ctx ++
        ctx.closing (ctx.after no) place
    test ++ ctx.line 1 place (.jz (extent first + Opcode.jmp.size : Nat)) ::
      (first ++ ctx.line 0 place (.jmp (extent second)) :: second)
  | .loop place condition body =>
    let test := condition.code ctx 0
    let part := body.code (offset + extent test + Opcode.jz.size) ctx ++
      ctx.closing (ctx.after body) place
    let whole := extent test + Opcode.jz.size + extent part + Opcode.jmp.size
    test ++ ctx.line 1 place (.jz (extent part + Opcode.jmp.size : Nat)) ::
      (part ++ [ctx.line 0 place (.jmp (-(whole : Int)))])
  | .function place name parameters bodyPlace body =>
    let start := offset + Opcode.func.size + Opcode.jmp.size
    let inner := bodyCode start (Context.ofBody start parameters) bodyPlace body
    ctx.line 0 place (.func name parameters.length start) ::
      ctx.line 0 place (.jmp (extent inner)) :: inner
  | .ret place none => [ctx.line 0 place (.plain .null rfl), ctx.line 1 place (.plain .ret rfl)]
  | .ret place (some value) => value.code ctx 0 ++ [ctx.line 1 place (.plain .ret rfl)]

/-- The draft of statements in a row. -/
def listCode (offset : Nat) (ctx : Context) : List Stmt → List Line
  | [] => []
  | first :: rest =>
    let code := first.code offset ctx
    code ++ listCode (offset + extent code) (ctx.after first) rest

/-- The draft of the body of a function, up to the first statement that returns.
A body without one returns nothing at its end. -/
def bodyCode (offset : Nat) (ctx : Context) (bodyPlace : Location) : List Stmt → List Line
  | [] =>
    [ctx.line 0 bodyPlace (.plain .null rfl), ctx.line 1 bodyPlace (.plain .ret rfl)]
  | first :: rest =>
    let code := first.code offset ctx
    if first.isReturn then code
    else code ++ bodyCode (offset + extent code) (ctx.after first) bodyPlace rest

end

mutual

/-- May a statement stand here? Values are returned only inside functions, and
functions are declared only outside of them. -/
def Stmt.Legal (inside : Bool) : Stmt → Prop
  | .block _ body => listLegal inside body
  | .ifThen _ _ yes => yes.Legal inside
  | .ifElse _ _ yes no => yes.Legal inside ∧ no.Legal inside
  | .loop _ _ body => body.Legal inside
  | .function _ _ _ _ body => inside = false ∧ bodyLegal body
  | .ret _ _ => inside = true
  | _ => True

/-- May statements stand here in a row? -/
def listLegal (inside : Bool) : List Stmt → Prop
  | [] => True
  | first :: rest => first.Legal inside ∧ listLegal inside rest

/-- May statements be the body of a function? What comes after the first return
does not matter. -/
def bodyLegal : List Stmt → Prop
  | [] => True
  | first :: rest => first.Legal true ∧ (first.isReturn = false → bodyLegal rest)

end

end StackScript
