/-
# Lowering statements

The code of a statement leaves the stack as it was, but for the declaration of
a local variable, which leaves its value there. Code is laid out in the order of
the text; conditions, loops and functions add jumps around the parts that are
not always run.
-/

import StackScript.Lowering.Expression

namespace StackScript.Lowering

/-- The number of parameters that a function can have. -/
def maxParameters : Nat := 255

/-- The last offset at which the body of a function can start. -/
def maxFunctionStart : Nat := 255

/-- The head of a function: its definition and the jump around its body, whose
offset is given. -/
def functionHead (place : Location) (name : String) (parameters : List Parameter) :
    Lower Nat := do
  if (← get).scope.isSome then
    Lower.refuse place (.nestedFunction name)
  match parameters[maxParameters]? with
  | some extra => Lower.refuse extra.location .tooManyParameters
  | none =>
    let id ← Lower.string place name
    let start := (← Lower.here) + Opcode.func.size + Opcode.jmp.size
    if maxFunctionStart < start then
      Lower.refuse place (.functionTooFar name)
    Lower.emit place .func [id, parameters.length, start]
    let skip ← Lower.jump place .jmp
    Lower.enterFunction parameters
    return skip

/-- The end of a function: its result, unless the body has returned, and the
target of the jump around the body. -/
def functionEnd (place bodyPlace : Location) (skip : Nat) (returned : Bool) : Lower Unit := do
  if !returned then
    Lower.emit bodyPlace .null []
    Lower.emit bodyPlace .ret []
  Lower.leaveFunction
  Lower.settle place skip (← Lower.here)

mutual

/-- Lowers a statement. Statements inside it are one level further down. -/
def statement (depth : Depth) : Stmt → Lower Unit
  | .expression place value => do
    expression depth value
    Lower.emit place .pop []
  | .print place value => do
    expression depth value
    Lower.emit place .print []
  | .declare place name value => do
    expression depth value
    Lower.declare place name
  | .assign place name value => do
    expression depth value
    match ← Lower.slot? name with
    | some slot => Lower.emit place .deepSet [slot]
    | none => Lower.emit place .setGlobal [← Lower.string place name]
  | .block place body => Lower.block place (statementList depth body)
  | .ifThen place condition yes => do
    expression depth condition
    let skip ← Lower.jump place .jz
    Lower.block place (do statement (← depth.deeper) yes)
    Lower.settle place skip (← Lower.here)
  | .ifElse place condition yes no => do
    expression depth condition
    let skip ← Lower.jump place .jz
    Lower.block place (do statement (← depth.deeper) yes)
    let leave ← Lower.jump place .jmp
    Lower.settle place skip (← Lower.here)
    Lower.block place (do statement (← depth.deeper) no)
    Lower.settle place leave (← Lower.here)
  | .loop place condition body => do
    let start ← Lower.here
    expression depth condition
    let leave ← Lower.jump place .jz
    Lower.block place (do statement (← depth.deeper) body)
    let again ← Lower.jump place .jmp
    Lower.settle place again start
    Lower.settle place leave (← Lower.here)
  | .function place name parameters bodyPlace body => do
    let skip ← functionHead place name parameters
    let returned ← functionBody depth body
    functionEnd place bodyPlace skip returned
  | .ret place value => do
    if (← get).scope.isNone then
      Lower.refuse place .returnOutsideFunction
    match value with
    | none => Lower.emit place .null []
    | some value => expression depth value
    Lower.emit place .ret []

/-- Lowers the statements of a block. -/
def statementList (depth : Depth) : List Stmt → Lower Unit
  | [] => return ()
  | first :: rest => do
    statement (← depth.deeper) first
    statementList depth rest

/-- Lowers the statements of a function up to the first that returns, and says
whether there was one. What follows it cannot be reached and has no code. -/
def functionBody (depth : Depth) : List Stmt → Lower Bool
  | [] => return false
  | first :: rest => do
    statement (← depth.deeper) first
    if first.isReturn then
      return true
    else
      functionBody depth rest

end

end StackScript.Lowering
