/-
# Values

What the machine computes with. Functions and return addresses are values like
any other, although programs can only name the former and never see the latter.
-/

import StackScript.Number.Fixed

namespace StackScript

/-- A function: where its body starts, and how many arguments it takes. -/
structure Function where
  name : String
  arity : Int
  start : Int
deriving DecidableEq, Inhabited, Repr

/-- A value. A pointer is the offset that a call returns to. -/
inductive Value where
  | number (value : Float)
  | bool (value : Bool)
  | string (value : String)
  | function (value : Function)
  | pointer (offset : Int)
  | null
deriving DecidableEq, Inhabited, Repr

/-- The kinds of values. -/
inductive ValueKind where
  | number | bool | string | function | pointer | null
deriving DecidableEq, Inhabited, Repr

/-- Every kind of value. -/
def ValueKind.all : List ValueKind := [number, bool, string, function, pointer, null]

/-- How diagnostics name a kind of values. -/
def ValueKind.name : ValueKind → String
  | number => "number"
  | bool => "bool"
  | string => "str"
  | function => "function"
  | pointer => "pointer"
  | null => "null"

namespace Value

/-- The kind of a value. -/
def kind : Value → ValueKind
  | number _ => .number
  | bool _ => .bool
  | string _ => .string
  | function _ => .function
  | pointer _ => .pointer
  | null => .null

/-- How a value is printed. A string stands for itself. -/
def text : Value → String
  | number value => Number.text value
  | bool true => "true"
  | bool false => "false"
  | string value => value
  | function value => "<fn " ++ value.name ++ ">"
  | pointer offset => "<pointer " ++ toString offset ++ ">"
  | null => "null"

end Value

end StackScript
