/-
# Global names

One table of names serves variables and functions alike, so that a definition
of either replaces the other. Names are listed in the order of their characters.
-/

import Std.Data.TreeMap
import StackScript.Machine.Value

namespace StackScript

/-- The values of the global names. -/
structure Globals where
  table : Std.TreeMap String Value

namespace Globals

/-- No names. -/
def empty : Globals := ⟨∅⟩

instance : Inhabited Globals := ⟨empty⟩

/-- Gives a name a value, in place of any value it had. -/
def insert (globals : Globals) (name : String) (value : Value) : Globals :=
  ⟨globals.table.insert name value⟩

/-- The value of a name. -/
def find? (globals : Globals) (name : String) : Option Value := globals.table[name]?

/-- Does a name have a value? -/
def contains (globals : Globals) (name : String) : Bool := globals.table.contains name

/-- The number of names. -/
def size (globals : Globals) : Nat := globals.table.size

/-- The names with their values, in order. -/
def toList (globals : Globals) : List (String × Value) := globals.table.toList

end Globals

end StackScript
