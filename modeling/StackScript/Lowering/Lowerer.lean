/-
# Lowerers

A lowerer adds statements to chunks for a caller that keeps it from one
statement to the next. What it could carry over is the scope of a function that
it was in when a statement was refused; it forgets the scope at the end of every
statement, whatever came of it.
-/

import StackScript.Lowering.Program

namespace StackScript

/-- What lowers statements. It has a scope while it is inside a function. -/
structure Lowerer where
  scope : Option Scope := none
deriving DecidableEq, Repr

namespace Lowerer

/-- Adds a statement that nests at most `limit` levels to a chunk, and gives the
number of bytes of its code. The code of a statement that is refused is cut off. -/
def add (lowerer : Lowerer) (limit : Nat) (chunk : Chunk) (statement : Stmt) :
    Lowerer × Chunk × Except Chunk.Failure Nat :=
  let start := chunk.size
  match Lowering.statement ⟨statement.location, limit⟩ statement ⟨chunk, lowerer.scope⟩ with
  | .ok _ state => ({ scope := none }, state.chunk, .ok (state.chunk.size - start))
  | .error (.refused diagnostic) state =>
    ({ scope := none }, state.chunk.truncate start, .error (.refused diagnostic))
  | .error failure state => ({ scope := none }, state.chunk, .error failure)

/-- Adds statements one after the other, each with its own limit, and goes on where one
is refused. -/
def addEach (lowerer : Lowerer) (chunk : Chunk) :
    List (Nat × Stmt) → Lowerer × Chunk × List (Except Chunk.Failure Nat)
  | [] => (lowerer, chunk, [])
  | (limit, statement) :: rest =>
    let (lowerer, chunk, outcome) := lowerer.add limit chunk statement
    let (lowerer, chunk, outcomes) := addEach lowerer chunk rest
    (lowerer, chunk, outcome :: outcomes)

end Lowerer

end StackScript
