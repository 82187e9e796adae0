/-
# Runs

Several steps in a row. A run stops at the first step that fails or after
which the machine is halted; the counted runs stop after a number of steps as
well.
-/

import StackScript.Machine.Step

namespace StackScript.Machine

/-- How a counted run ended: all steps were made, the machine halted, or it
came to a fault. -/
inductive RunEnd where
  | counted
  | halted
  | failed (fault : Fault)
deriving DecidableEq, Inhabited, Repr

/-- Makes at most `count` steps, and gives the state after each that did not
fail, the last one first. -/
def walkFrom (machine : Machine) (seen : List Machine) :
    Nat → Machine × List Machine × RunEnd
  | 0 => (machine, seen, .counted)
  | count + 1 =>
    match machine.step with
    | (after, .error fault) => (after, seen, .failed fault)
    | (after, .ok false) => (after, after :: seen, .halted)
    | (after, .ok true) => walkFrom after (after :: seen) count

/-- Makes at most `count` steps, with the states on the way. -/
def walk (machine : Machine) (count : Nat) : Machine × List Machine × RunEnd :=
  let (after, seen, ending) := machine.walkFrom [] count
  (after, seen.reverse, ending)

/-- Makes steps until `count` of them have left the machine running, and gives
the number of those. -/
def runFor (machine : Machine) (made : Nat) : Nat → Machine × Nat × RunEnd
  | 0 => (machine, made, .counted)
  | count + 1 =>
    match machine.step with
    | (after, .error fault) => (after, made, .failed fault)
    | (after, .ok false) => (after, made, .halted)
    | (after, .ok true) => runFor after (made + 1) count

end StackScript.Machine
