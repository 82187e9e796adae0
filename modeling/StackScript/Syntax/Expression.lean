/-
# Reading expressions

Operands are literals, names, calls, expressions in parentheses, and operands
with an operator in front. Binary operators form four layers by tightness, and
within a layer they group to the left: each layer is a chain of operands of the
next tighter one.

Two numbers bound the recursion. `bound` exceeds the number of tokens, hence
the length of every chain and list. `depth` says how many levels of nesting are
still allowed; below the last level every reader fails.
-/

import StackScript.Number.Numeral
import StackScript.Syntax.Basic
import StackScript.Syntax.Reader
import StackScript.Token.Literal

namespace StackScript.Syntax

/-- Takes an operator of the given tightness, if one is next. -/
def acceptOperator (tightness : Nat) : Reader (Option BinaryOp) := do
  match ← Reader.kindAfter 0 with
  | some (.punctuator mark) =>
    match BinaryOp.ofMark? mark with
    | some op =>
      if op.tightness = tightness then
        let _ ← Reader.next
        return some op
      else
        return none
    | none => return none
  | _ => return none

/-- Extends an expression to the right by operators of one tightness. The place
of each new expression is that of its left operand. -/
def chainFrom (tightness : Nat) (operand : Reader Expr) : Nat → Expr → Reader Expr
  | 0, left => return left
  | bound + 1, left => do
    match ← acceptOperator tightness with
    | none => return left
    | some op =>
      let right ← operand
      chainFrom tightness operand bound (.binary left.location op left right)

/-- Reads a chain of operators of one tightness. -/
def chain (bound tightness : Nat) (operand : Reader Expr) : Reader Expr := do
  let left ← operand
  chainFrom tightness operand bound left

/-- Reads an expression over the given operands: the four layers. -/
def layered (bound : Nat) (operand : Reader Expr) : Reader Expr :=
  chain bound 1 (chain bound 2 (chain bound 3 (chain bound 4 operand)))

/-- Reads an operand, given how to read an operand one level further down. -/
def operandStep (bound : Nat) (deeper : Reader Expr) : Reader Expr := do
  let token ← Reader.next
  match token.kind with
  | .punctuator .minus => return .unary token.location .negate (← deeper)
  | .punctuator .bang => return .unary token.location .not (← deeper)
  | .punctuator .leftParen =>
    let inner ← layered bound deeper
    Reader.mark .rightParen
    return inner
  | .name =>
    if (← Reader.kindAfter 0) = some (.punctuator .leftParen) then
      let arguments ← Reader.parenthesized bound (layered bound deeper)
      return .call token.location token.text arguments
    else
      return .reference token.location token.text
  | .number =>
    return .literal token.location (.number (Number.Numeral.ofText token.text.toList).value)
  | .string => return .literal token.location (.string (StringLiteral.value token.text))
  | .keyword .kwNull => return .literal token.location .null
  | .keyword .kwTrue => return .literal token.location (.bool true)
  | .keyword .kwFalse => return .literal token.location (.bool false)
  | _ => throw (.unexpected token [])

/-- Reads an operand that nests less deeply than `depth`. -/
def operand (bound : Nat) : Nat → Reader Expr
  | 0 => throw .tooDeep
  | depth + 1 => operandStep bound (operand bound depth)

/-- Reads an expression that nests less deeply than `depth`. -/
def expression (bound depth : Nat) : Reader Expr := layered bound (operand bound depth)

end StackScript.Syntax
