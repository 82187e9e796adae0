/-
# Sizes

How many bytes the code of an expression or a statement takes, told from the syntax tree alone,
and which trees take more than the format can say: a jump reaches only so far, and a function must
start near the beginning of a chunk. Only the part of a program that has code counts. The body of
a function ends with the first statement that returns.
-/

import StackScript.Lowering.Statement

namespace StackScript

/-- The bytes of a literal. -/
def Literal.bytes : Literal → Nat
  | number _ | string _ => 2
  | null | bool _ => 1

/-- The bytes of a binary operator. Three of the comparisons negate another one. -/
def BinaryOp.bytes : BinaryOp → Nat
  | notEqual | lessEqual | greaterEqual => 2
  | _ => 1

mutual

/-- The bytes of an expression. -/
def Expr.bytes : Expr → Nat
  | .literal _ value => value.bytes
  | .reference _ _ => 2
  | .unary _ _ operand => operand.bytes + 1
  | .binary _ op left right => left.bytes + right.bytes + op.bytes
  | .call _ _ arguments => argumentBytes arguments + 3

/-- The bytes of arguments. -/
def argumentBytes : List Expr → Nat
  | [] => 0
  | first :: rest => first.bytes + argumentBytes rest

end

/-- The number of slots that a statement takes in the block around it. Outside of functions there
are no slots. -/
def Stmt.slots (inside : Bool) : Stmt → Nat
  | .declare _ _ _ => if inside then 1 else 0
  | _ => 0

/-- The number of slots that statements in a row take in the block around them. -/
def listSlots (inside : Bool) : List Stmt → Nat
  | [] => 0
  | first :: rest => first.slots inside + listSlots inside rest

mutual

/-- The bytes of a statement. At the end of a block, a branch or the body of a loop there is one
byte for every slot that it has taken itself. -/
def Stmt.bytes (inside : Bool) : Stmt → Nat
  | .expression _ value => value.bytes + 1
  | .print _ value => value.bytes + 1
  | .declare _ _ value => value.bytes + if inside then 0 else 2
  | .assign _ _ value => value.bytes + 2
  | .block _ body => listBytes inside body + listSlots inside body
  | .ifThen _ condition yes => condition.bytes + 3 + (yes.bytes inside + yes.slots inside)
  | .ifElse _ condition yes no =>
    condition.bytes + 3 + (yes.bytes inside + yes.slots inside) + 3 +
      (no.bytes inside + no.slots inside)
  | .loop _ condition body => condition.bytes + 3 + (body.bytes inside + body.slots inside) + 3
  | .function _ _ _ _ body => 7 + bodyBytes body
  | .ret _ none => 2
  | .ret _ (some value) => value.bytes + 1

/-- The bytes of statements in a row. -/
def listBytes (inside : Bool) : List Stmt → Nat
  | [] => 0
  | first :: rest => first.bytes inside + listBytes inside rest

/-- The bytes of the body of a function, up to its first return, or with the two bytes of the
return that a body without one is given. -/
def bodyBytes : List Stmt → Nat
  | [] => 2
  | first :: rest => first.bytes true + if first.isReturn then 0 else bodyBytes rest

end

/-- The bytes of a statement that is a block of its own. -/
def Stmt.branchBytes (inside : Bool) (st : Stmt) : Nat := st.bytes inside + st.slots inside

/-- The longest distance of a jump forward. A jump backward can reach one byte further. -/
def maxDistance : Nat := 32767

mutual

/-- Must some jump of a statement reach further than the format can say? The jump over a first
branch also skips the jump at its end, and the jump back to the start of a loop counts from its own
end. -/
def Stmt.Overlong (inside : Bool) : Stmt → Prop
  | .block _ body => listOverlong inside body
  | .ifThen _ _ yes => maxDistance < yes.branchBytes inside ∨ yes.Overlong inside
  | .ifElse _ _ yes no =>
    maxDistance < yes.branchBytes inside + 3 ∨ maxDistance < no.branchBytes inside ∨
      yes.Overlong inside ∨ no.Overlong inside
  | .loop _ condition body =>
    maxDistance + 1 < condition.bytes + body.branchBytes inside + 6 ∨ body.Overlong inside
  | .function _ _ _ _ body => maxDistance < bodyBytes body ∨ bodyOverlong body
  | _ => False

/-- Must some jump of statements in a row reach too far? -/
def listOverlong (inside : Bool) : List Stmt → Prop
  | [] => False
  | first :: rest => first.Overlong inside ∨ listOverlong inside rest

/-- Must some jump in the body of a function reach too far? -/
def bodyOverlong : List Stmt → Prop
  | [] => False
  | first :: rest => first.Overlong true ∨ (first.isReturn = false ∧ bodyOverlong rest)

end

mutual

/-- Would some function of a statement outside of functions, at an offset, start its body too
late? -/
def Stmt.Late (offset : Nat) : Stmt → Prop
  | .block _ body => listLate offset body
  | .ifThen _ condition yes => yes.Late (offset + condition.bytes + 3)
  | .ifElse _ condition yes no =>
    yes.Late (offset + condition.bytes + 3) ∨
      no.Late (offset + condition.bytes + 3 + yes.branchBytes false + 3)
  | .loop _ condition body => body.Late (offset + condition.bytes + 3)
  | .function _ _ _ _ _ => Lowering.maxFunctionStart < offset + 7
  | _ => False

/-- Would some function among statements in a row start its body too late? -/
def listLate (offset : Nat) : List Stmt → Prop
  | [] => False
  | first :: rest => first.Late offset ∨ listLate (offset + first.bytes false) rest

end

end StackScript
