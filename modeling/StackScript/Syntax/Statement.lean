/-
# Reading statements

The first token of a statement decides its form, except that a name needs one
more token: an equals sign after it makes an assignment, anything else an
expression. An `else` belongs to the nearest `if` that is still open.
-/

import StackScript.Syntax.Expression

namespace StackScript.Syntax

/-- Reads an expression and the semicolon after it. -/
def finished (expression : Reader Expr) : Reader Expr := do
  let value ← expression
  Reader.mark .semicolon
  return value

/-- Reads a condition in parentheses. -/
def condition (expression : Reader Expr) : Reader Expr := do
  Reader.mark .leftParen
  let value ← expression
  Reader.mark .rightParen
  return value

/-- Reads a name, an equals sign, a value and a semicolon. -/
def binding (expression : Reader Expr) : Reader (Token × Expr) := do
  let name ← Reader.expect [.name]
  Reader.mark .equal
  let value ← finished expression
  return (name, value)

/-- Reads one parameter. -/
def parameter : Reader Parameter := do
  let name ← Reader.expect [.name]
  return ⟨name.location, name.text⟩

/-- Reads a statement, given how to read the expressions in it and how to read
a statement one level further down. -/
def statementStep (bound : Nat) (expression : Reader Expr) (deeper : Reader Stmt) :
    Reader Stmt := do
  match ← Reader.kindAfter 0 with
  | some (.punctuator .leftBrace) =>
    let brace ← Reader.next
    return .block brace.location (← Reader.itemsToBrace deeper bound)
  | some (.keyword .kwPrint) =>
    let word ← Reader.next
    return .print word.location (← finished expression)
  | some (.keyword .kwLet) =>
    let word ← Reader.next
    let (name, value) ← binding expression
    return .declare word.location name.text value
  | some (.keyword .kwFn) =>
    let word ← Reader.next
    let name ← Reader.expect [.name]
    let parameters ← Reader.parenthesized bound parameter
    let brace ← Reader.expect [.punctuator .leftBrace]
    let body ← Reader.itemsToBrace deeper bound
    return .function word.location name.text parameters brace.location body
  | some (.keyword .kwReturn) =>
    let word ← Reader.next
    if ← Reader.accept (.punctuator .semicolon) then
      return .ret word.location none
    else
      return .ret word.location (some (← finished expression))
  | some (.keyword .kwIf) =>
    let word ← Reader.next
    let test ← condition expression
    let yes ← deeper
    if ← Reader.accept (.keyword .kwElse) then
      return .ifElse word.location test yes (← deeper)
    else
      return .ifThen word.location test yes
  | some (.keyword .kwWhile) =>
    let word ← Reader.next
    let test ← condition expression
    return .loop word.location test (← deeper)
  | some .name =>
    if (← Reader.kindAfter 1) = some (.punctuator .equal) then
      let (name, value) ← binding expression
      return .assign name.location name.text value
    else
      let value ← finished expression
      return .expression value.location value
  | _ =>
    let value ← finished expression
    return .expression value.location value

/-- Reads a statement that nests less deeply than `depth`. -/
def statement (bound : Nat) : Nat → Reader Stmt
  | 0 => throw .tooDeep
  | depth + 1 =>
    statementStep bound (expression bound (depth + 1)) (statement bound depth)

end StackScript.Syntax
