/-
# Programs in chunks

Statements are added to a chunk one after the other. A statement that cannot
be lowered leaves no code behind, only the pools may have grown; the chunk can
still be used. A whole program ends with the instruction to stop.
-/

import StackScript.Lowering.Statement
import StackScript.Syntax.Program

namespace StackScript

/-- What a caller may hand over as a statement. Reading a text gives nothing
but statements; the other forms are refused. -/
inductive Node where
  | statement (value : Stmt)
  | expression (value : Expr)
  | bareStatement (place : Location)
  | foreign
deriving Inhabited, Repr

namespace Node

/-- The name of a form in diagnostics. -/
def kindName : Node → String
  | expression (.literal _ _) => "LiteralExpression"
  | expression (.reference _ _) => "VariableExpression"
  | expression (.unary _ _ _) => "UnaryExpression"
  | expression (.binary _ _ _ _) => "BinaryExpression"
  | expression (.call _ _ _) => "CallExpression"
  | foreign => "object"
  | _ => "Statement"

/-- The place of a form, if it has one. -/
def location? : Node → Option Location
  | statement value => some value.location
  | expression value => some value.location
  | bareStatement place => some place
  | foreign => none

end Node

namespace Chunk

/-- Adds a statement that nests at most `limit` levels, and gives the number of
bytes of its code. -/
def addStatement (limit : Nat) (chunk : Chunk) (statement : Stmt) :
    Chunk × Except Failure Nat :=
  let start := chunk.size
  match Lowering.statement ⟨statement.location, limit⟩ statement ⟨chunk, none⟩ with
  | .ok _ state => (state.chunk, .ok (state.chunk.size - start))
  | .error (.refused diagnostic) state =>
    (state.chunk.truncate start, .error (.refused diagnostic))
  | .error failure state => (state.chunk, .error failure)

/-- Adds what may be a statement. -/
def addNode (limit : Nat) (chunk : Chunk) : Node → Chunk × Except Failure Nat
  | .statement value => chunk.addStatement limit value
  | node => (chunk, .error (.refused ⟨node.location?, .unknownNode node.kindName⟩))

/-- Adds nodes up to the first that is refused, and gives the number of bytes. -/
def addNodes (limit : Nat) (chunk : Chunk) : List Node → Chunk × Except Failure Nat
  | [] => (chunk, .ok 0)
  | node :: rest =>
    match chunk.addNode limit node with
    | (chunk, .error failure) => (chunk, .error failure)
    | (chunk, .ok bytes) =>
      match addNodes limit chunk rest with
      | (chunk, .error failure) => (chunk, .error failure)
      | (chunk, .ok more) => (chunk, .ok (bytes + more))

/-- Adds a whole program. The instruction to stop is marked with the place of
the last statement. -/
def addProgram (limit : Nat) (chunk : Chunk) (program : List Node) :
    Chunk × Except Failure Nat :=
  match chunk.addNodes limit program with
  | (chunk, .error failure) => (chunk, .error failure)
  | (chunk, .ok bytes) =>
    match chunk.append (program.getLast?.bind Node.location?) .exit [] with
    | (chunk, .error fault) => (chunk, .error (.malformed fault))
    | (chunk, .ok _) => (chunk, .ok (bytes + Opcode.exit.size))

end Chunk

end StackScript
