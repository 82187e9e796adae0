/-
# Evaluation

What a program means, told by its syntax alone: there is no code here, no stack
and no limit. Outside of calls every name is global. In a call the parameters and
the variables declared in the body are local; they end with the block that
declares them, and the last one declared with a name is meant by it.

A program may run forever, so that evaluation goes down a number of levels: each
call and each further round of a loop is one level down. Whoever gets an ending
with some number of levels has the ending of the program.
-/

import StackScript.Machine.Fault
import StackScript.Number.Remainder
import StackScript.Syntax.Basic

namespace StackScript

/-- What a program computes with. A function is what its declaration says. -/
inductive Datum where
  | number (value : Float)
  | bool (value : Bool)
  | string (value : String)
  | function (name : String) (parameters : List Parameter) (body : List Stmt)
  | null

namespace Datum

/-- The kind of a datum, as faults name it. -/
def kind : Datum → ValueKind
  | number _ => .number
  | bool _ => .bool
  | string _ => .string
  | function _ _ _ => .function
  | null => .null

/-- How a datum is printed. -/
def text : Datum → String
  | number value => Number.text value
  | bool true => "true"
  | bool false => "false"
  | string value => value
  | function name _ _ => "<fn " ++ name ++ ">"
  | null => "null"

/-- Calculates with two numbers. -/
def calculate (operator : String) (operation : Float → Float → Datum) :
    Datum → Datum → Except Fault Datum
  | number x, number y => .ok (operation x y)
  | first, second => .error (.incompatibleOperands operator [first.kind, second.kind])

/-- Compares two data of the same kind. Functions cannot be compared. -/
def equal : Datum → Datum → Except Fault Datum
  | number x, number y => .ok (bool (x == y))
  | bool x, bool y => .ok (bool (x == y))
  | string x, string y => .ok (bool (x == y))
  | null, null => .ok (bool true)
  | first, second => .error (.incompatibleOperands "==" [first.kind, second.kind])

/-- Is the first number less? -/
def less : Datum → Datum → Except Fault Datum := calculate "<" fun x y => bool (x < y)

/-- Is the first number greater? -/
def greater : Datum → Datum → Except Fault Datum := calculate ">" fun x y => bool (y < x)

/-- Negates a truth value. -/
def invert : Datum → Except Fault Datum
  | bool value => .ok (bool (!value))
  | value => .error (.incompatibleOperands "!" [value.kind])

/-- Negates a number. -/
def negate : Datum → Except Fault Datum
  | number value => .ok (number (-value))
  | value => .error (.incompatibleOperands "-" [value.kind])

/-- A condition must be a truth value. -/
def truth : Datum → Except Fault Bool
  | bool value => .ok value
  | value => .error (.incompatibleOperands "if" [value.kind])

end Datum

/-- The datum of a literal. -/
def Literal.datum : Literal → Datum
  | null => .null
  | bool value => .bool value
  | number value => .number value
  | string value => .string value

/-- What a unary operator makes of its operand. -/
def UnaryOp.apply : UnaryOp → Datum → Except Fault Datum
  | negate => Datum.negate
  | not => Datum.invert

/-- What a binary operator makes of its operands. Three comparisons are the
negations of the other three. -/
def BinaryOp.apply (op : BinaryOp) (first second : Datum) : Except Fault Datum :=
  match op with
  | equal => Datum.equal first second
  | notEqual => do Datum.invert (← Datum.equal first second)
  | less => Datum.less first second
  | greaterEqual => do Datum.invert (← Datum.less first second)
  | greater => Datum.greater first second
  | lessEqual => do Datum.invert (← Datum.greater first second)
  | add => Datum.calculate "+" (fun x y => .number (x + y)) first second
  | subtract => Datum.calculate "-" (fun x y => .number (x - y)) first second
  | multiply => Datum.calculate "*" (fun x y => .number (x * y)) first second
  | divide => Datum.calculate "/" (fun x y => .number (x / y)) first second
  | remainder => Datum.calculate "%" (fun x y => .number (Number.remainder x y)) first second

/-- Names with what they stand for, the last one bound first. -/
abbrev Bindings : Type := List (String × Datum)

/-- Gives the last binding of a name a new value. -/
def Bindings.update (name : String) (value : Datum) : Bindings → Bindings
  | [] => []
  | (other, old) :: rest =>
    if name = other then (other, value) :: rest else (other, old) :: update name value rest

/-- What evaluation reads and changes. There are local variables only in a call. -/
structure World where
  globals : Bindings := []
  locals : Option Bindings := none
  output : List String := []

/-- Why evaluation does not come to a result: a fault of the program, or there
were not enough levels. -/
inductive Stop where
  | fault (fault : Fault)
  | exhausted

/-- An evaluation in progress. -/
abbrev Eval (α : Type) : Type := EStateM Stop World α

namespace Eval

/-- Ends the evaluation with a fault. -/
def fail {α : Type} (fault : Fault) : Eval α := throw (.fault fault)

/-- Goes on with the outcome of an operation. -/
def lift {α : Type} : Except Fault α → Eval α
  | .ok value => return value
  | .error fault => fail fault

/-- The value of a name: a local variable, or else a global one. -/
def read (name : String) : Eval Datum := do
  let world ← get
  match world.locals.bind fun locals => locals.lookup name with
  | some value => return value
  | none =>
    match world.globals.lookup name with
    | some value => return value
    | none => fail (.variableNotDefined name)

/-- Binds a global name. -/
def bindGlobal (name : String) (value : Datum) : Eval Unit :=
  modify fun world => { world with globals := (name, value) :: world.globals }

/-- Declares a variable: a local one in a call, and a global one elsewhere. -/
def declare (name : String) (value : Datum) : Eval Unit := do
  match (← get).locals with
  | none => bindGlobal name value
  | some locals => modify fun world => { world with locals := some ((name, value) :: locals) }

/-- Gives a variable a new value. A name that is not local is global. -/
def assign (name : String) (value : Datum) : Eval Unit := do
  let world ← get
  match world.locals with
  | none => bindGlobal name value
  | some locals =>
    if (locals.lookup name).isSome then
      modify fun world => { world with locals := some (Bindings.update name value locals) }
    else
      bindGlobal name value

/-- The local variables that are left after the end of a block. -/
def leave (before after : Option Bindings) : Option Bindings :=
  after.map fun locals => locals.drop (locals.length - (before.elim 0 List.length))

/-- Evaluates the content of a block. The variables that it declares end with it. -/
def inBlock {α : Type} (content : Eval α) : Eval α := do
  let before := (← get).locals
  let result ← content
  modify fun world => { world with locals := leave before world.locals }
  return result

/-- Evaluates the body of a function with local variables of its own. -/
def inCall {α : Type} (arguments : Bindings) (body : Eval α) : Eval α := do
  let outside := (← get).locals
  modify fun world => { world with locals := some arguments }
  let result ← body
  modify fun world => { world with locals := outside }
  return result

end Eval

/-- The local variables at the beginning of a call, the last parameter first. -/
def Bindings.ofCall (parameters : List Parameter) (arguments : List Datum) : Bindings :=
  ((parameters.map Parameter.name).zip arguments).reverse

section Levels

-- How statements are executed one level further down.
variable (deeper : List Stmt → Eval (Option Datum))

/-- Calls a global name with arguments that have been evaluated. -/
def call (callee : String) (arguments : List Datum) : Eval Datum := do
  match (← get).globals.lookup callee with
  | none => Eval.fail (.functionNotDefined callee)
  | some (.function _ parameters body) =>
    if arguments.length = parameters.length then
      let result ← Eval.inCall (.ofCall parameters arguments) (deeper body)
      return result.getD .null
    else
      Eval.fail (.arityMismatch callee parameters.length arguments.length)
  | some value => Eval.fail (.notCallable callee value.kind)

mutual

/-- Evaluates an expression. Operands come first, from left to right. -/
def Expr.evaluate : Expr → Eval Datum
  | .literal _ value => return value.datum
  | .reference _ name => Eval.read name
  | .unary _ op operand => do
    let value ← operand.evaluate
    Eval.lift (op.apply value)
  | .binary _ op left right => do
    let first ← left.evaluate
    let second ← right.evaluate
    Eval.lift (op.apply first second)
  | .call _ callee arguments => do
    let values ← evaluateAll arguments
    call deeper callee values

/-- Evaluates expressions from left to right. -/
def evaluateAll : List Expr → Eval (List Datum)
  | [] => return []
  | first :: rest => do
    let value ← first.evaluate
    let values ← evaluateAll rest
    return value :: values

end

mutual

/-- Executes a statement, and gives the value that it returns if it returns. -/
def Stmt.execute : Stmt → Eval (Option Datum)
  | .expression _ value => do
    let _ ← value.evaluate deeper
    return none
  | .print _ value => do
    let value ← value.evaluate deeper
    modify fun world => { world with output := world.output ++ [value.text] }
    return none
  | .declare _ name value => do
    let value ← value.evaluate deeper
    Eval.declare name value
    return none
  | .assign _ name value => do
    let value ← value.evaluate deeper
    Eval.assign name value
    return none
  | .block _ body => Eval.inBlock (executeAll body)
  | .ifThen _ condition yes => do
    let value ← condition.evaluate deeper
    if ← Eval.lift value.truth then
      Eval.inBlock yes.execute
    else
      return none
  | .ifElse _ condition yes no => do
    let value ← condition.evaluate deeper
    if ← Eval.lift value.truth then
      Eval.inBlock yes.execute
    else
      Eval.inBlock no.execute
  | .loop place condition body => do
    let value ← condition.evaluate deeper
    if ← Eval.lift value.truth then
      match ← Eval.inBlock body.execute with
      | some result => return some result
      | none => deeper [.loop place condition body]
    else
      return none
  | .function _ name parameters _ body => do
    Eval.bindGlobal name (.function name parameters body)
    return none
  | .ret _ none => return some .null
  | .ret _ (some value) => do
    let value ← value.evaluate deeper
    return some value

/-- Executes statements up to the first that returns. -/
def executeAll : List Stmt → Eval (Option Datum)
  | [] => return none
  | first :: rest => do
    match ← first.execute with
    | some result => return some result
    | none => executeAll rest

end

end Levels

/-- Executes statements with the given number of levels. -/
def executeWithin : Nat → List Stmt → Eval (Option Datum)
  | 0, _ => throw .exhausted
  | levels + 1, body => executeAll (executeWithin levels) body

/-- How far a program gets from the beginning with the given number of levels. -/
def Stmt.run (levels : Nat) (program : List Stmt) : EStateM.Result Stop World (Option Datum) :=
  executeWithin levels program {}

end StackScript
