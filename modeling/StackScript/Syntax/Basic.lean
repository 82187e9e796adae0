/-
# Syntax trees

Expressions and statements. Every node carries the place that diagnostics and
stack traces name for it. Parentheses leave no node: the shape of the tree
says what they said.
-/

import StackScript.Token.Basic

namespace StackScript

/-- The operators in front of an operand. -/
inductive UnaryOp where
  | negate | not
deriving DecidableEq, Inhabited, Repr

/-- The punctuator of a unary operator. -/
def UnaryOp.mark : UnaryOp → Punctuator
  | negate => .minus
  | not => .bang

/-- The operators between two operands. -/
inductive BinaryOp where
  | equal | notEqual
  | less | lessEqual | greater | greaterEqual
  | add | subtract
  | multiply | divide | remainder
deriving DecidableEq, Inhabited, Repr

namespace BinaryOp

/-- The punctuator of a binary operator. -/
def mark : BinaryOp → Punctuator
  | equal => .equalEqual
  | notEqual => .bangEqual
  | less => .less
  | lessEqual => .lessEqual
  | greater => .greater
  | greaterEqual => .greaterEqual
  | add => .plus
  | subtract => .minus
  | multiply => .star
  | divide => .slash
  | remainder => .percent

/-- The binary operator of a punctuator. -/
def ofMark? : Punctuator → Option BinaryOp
  | .equalEqual => some equal
  | .bangEqual => some notEqual
  | .less => some less
  | .lessEqual => some lessEqual
  | .greater => some greater
  | .greaterEqual => some greaterEqual
  | .plus => some add
  | .minus => some subtract
  | .star => some multiply
  | .slash => some divide
  | .percent => some remainder
  | _ => none

/-- How tightly an operator binds. Equality binds least, products most. -/
def tightness : BinaryOp → Nat
  | equal | notEqual => 1
  | less | lessEqual | greater | greaterEqual => 2
  | add | subtract => 3
  | multiply | divide | remainder => 4

@[simp] theorem ofMark?_mark (op : BinaryOp) : ofMark? op.mark = some op := by cases op <;> rfl

end BinaryOp

/-- The values that can be written down. -/
inductive Literal where
  | null
  | bool (value : Bool)
  | number (value : Float)
  | string (value : String)
deriving DecidableEq, Inhabited, Repr

/-- Expressions. A callee is a name, not an expression. -/
inductive Expr where
  | literal (place : Location) (value : Literal)
  | reference (place : Location) (name : String)
  | unary (place : Location) (op : UnaryOp) (operand : Expr)
  | binary (place : Location) (op : BinaryOp) (left right : Expr)
  | call (place : Location) (callee : String) (arguments : List Expr)
deriving Inhabited, Repr

/-- The place of an expression. -/
def Expr.location : Expr → Location
  | literal place _ => place
  | reference place _ => place
  | unary place _ _ => place
  | binary place _ _ _ => place
  | call place _ _ => place

/-- A parameter of a function. -/
structure Parameter where
  location : Location
  name : String
deriving DecidableEq, Inhabited, Repr

/-- Statements. The body of a function is a block, whose place is kept beside
that of the function itself. -/
inductive Stmt where
  | expression (place : Location) (value : Expr)
  | print (place : Location) (value : Expr)
  | declare (place : Location) (name : String) (value : Expr)
  | assign (place : Location) (name : String) (value : Expr)
  | block (place : Location) (body : List Stmt)
  | ifThen (place : Location) (condition : Expr) (yes : Stmt)
  | ifElse (place : Location) (condition : Expr) (yes no : Stmt)
  | loop (place : Location) (condition : Expr) (body : Stmt)
  | function (place : Location) (name : String) (parameters : List Parameter)
      (bodyPlace : Location) (body : List Stmt)
  | ret (place : Location) (value : Option Expr)
deriving Inhabited, Repr

namespace Stmt

/-- The place of a statement. -/
def location : Stmt → Location
  | expression place _ => place
  | print place _ => place
  | declare place _ _ => place
  | assign place _ _ => place
  | block place _ => place
  | ifThen place _ _ => place
  | ifElse place _ _ _ => place
  | loop place _ _ => place
  | function place _ _ _ _ => place
  | ret place _ => place

/-- Is this a return statement, with a value or without? -/
def isReturn : Stmt → Bool
  | ret _ _ => true
  | _ => false

end Stmt

end StackScript
