/-
# Scopes

The parameters and local variables of a function live on the stack, in slots
numbered from the start of its frame. A scope knows the names of the slots in
use. Blocks nest: a name may be declared again in an inner block and hides the
outer one there, and the slots of a block are free again after it.
-/

import StackScript.Diagnostic

namespace StackScript

/-- The names in scope, the one declared last first. The innermost block starts
at slot `base`, and `outer` holds the starts of the blocks around it, from the
inside out. -/
structure Scope where
  capacity : Nat
  names : List String := []
  base : Nat := 0
  outer : List Nat := []
deriving DecidableEq, Inhabited, Repr

namespace Scope

/-- The number of variables that the format can address. -/
def maxVariables : Nat := 256

/-- The number of slots in use. -/
def size (scope : Scope) : Nat := scope.names.length

/-- The names that the innermost block has declared itself. -/
def innermost (scope : Scope) : List String := scope.names.take (scope.size - scope.base)

/-- Declares a variable in the innermost block and gives its slot. -/
def declare (scope : Scope) (place : Location) (name : String) : Except Diagnostic (Scope × Nat) :=
  if name ∈ scope.innermost then .error ⟨some place, .localVariableExists name⟩
  else if scope.capacity ≤ scope.size then .error ⟨some place, .tooManyLocalVariables⟩
  else .ok ({ scope with names := name :: scope.names }, scope.size)

/-- The slot of the variable that a name means: the last one declared with it. -/
def find? (scope : Scope) (name : String) : Option Nat :=
  (scope.names.findIdx? (· == name)).map fun index => scope.size - 1 - index

/-- Starts a block. -/
def enter (scope : Scope) : Scope :=
  { scope with base := scope.size, outer := scope.base :: scope.outer }

/-- Ends the innermost block, and with it the variables declared in it. -/
def leave (scope : Scope) : Scope :=
  match scope.outer with
  | [] => scope
  | base :: outer =>
    { scope with names := scope.names.drop (scope.size - scope.base), base, outer }

end Scope

end StackScript
