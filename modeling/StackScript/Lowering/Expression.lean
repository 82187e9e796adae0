/-
# Lowering expressions

The code of an expression leaves its value on the stack. Operands come first,
from left to right, and the instructions of the operator follow. Three of the
comparisons have instructions of their own, and the other three negate those.
-/

import StackScript.Lowering.Basic

namespace StackScript

/-- The instruction of a unary operator. -/
def UnaryOp.opcode : UnaryOp → Opcode
  | negate => .negate
  | not => .not

/-- The instructions of a binary operator. -/
def BinaryOp.opcodes : BinaryOp → List Opcode
  | equal => [.eq]
  | notEqual => [.eq, .not]
  | less => [.lt]
  | lessEqual => [.gt, .not]
  | greater => [.gt]
  | greaterEqual => [.lt, .not]
  | add => [.add]
  | subtract => [.sub]
  | multiply => [.mul]
  | divide => [.div]
  | remainder => [.mod]

/-- Can this expression stand to the right of an operator without parentheses? -/
def Expr.fitsRightOf (op : BinaryOp) : Expr → Bool
  | binary _ inner _ _ => op.tightness < inner.tightness
  | _ => true

namespace Lowering

/-- The number of arguments that a call can have. -/
def maxArguments : Nat := 255

/-- Lowers a literal. -/
def literal (place : Location) : Literal → Lower Unit
  | .null => Lower.emit place .null []
  | .bool true => Lower.emit place .true []
  | .bool false => Lower.emit place .false []
  | .number value => do Lower.emit place .const [← Lower.constant place value]
  | .string value => do Lower.emit place .str [← Lower.string place value]

/-- Lowers a use of a name. -/
def reference (place : Location) (name : String) : Lower Unit := do
  match ← Lower.slot? name with
  | some slot => Lower.emit place .deepGet [slot]
  | none => Lower.emit place .getGlobal [← Lower.string place name]

mutual

/-- Lowers an expression. A left operand is one level further down; a right
operand is so only where it needs parentheses. -/
def expression (depth : Depth) : Expr → Lower Unit
  | .literal place value => literal place value
  | .reference place name => reference place name
  | .unary place op operand => do
    expression (← depth.deeper) operand
    Lower.emit place op.opcode []
  | .binary place op left right => do
    expression (← depth.deeper) left
    expression (← if right.fitsRightOf op then pure depth else depth.deeper) right
    op.opcodes.forM fun opcode => Lower.emit place opcode []
  | .call place callee arguments => do
    match arguments[maxArguments]? with
    | some extra => Lower.refuse extra.location .tooManyArguments
    | none =>
      argumentList depth arguments
      let id ← Lower.string place callee
      Lower.emit place .invoke [id, arguments.length]

/-- Lowers arguments from left to right. -/
def argumentList (depth : Depth) : List Expr → Lower Unit
  | [] => return ()
  | first :: rest => do
    expression (← depth.deeper) first
    argumentList depth rest

end

end Lowering

end StackScript
