/-
# Source locations

A location names a file together with a line and a column, both counted from
one and measured in characters. It is the only way in which the library speaks
about places: tokens, syntax trees, instructions and diagnostics all carry one.
-/

namespace StackScript

/-- A place in a named source text. -/
structure Location where
  file : String
  line : Nat
  column : Nat
deriving DecidableEq, Inhabited, Repr

namespace Location

/-- The place of the first character of a file. -/
def start (file : String) : Location := ⟨file, 1, 1⟩

/-- The place after one more character. Only a line feed begins a new line;
every other character, whatever it looks like, takes up one column. -/
def next (place : Location) (c : Char) : Location :=
  if c = '\n' then { place with line := place.line + 1, column := 1 }
  else { place with column := place.column + 1 }

/-- The place after a whole piece of text. -/
def advance (place : Location) (text : List Char) : Location := text.foldl next place

/-- A location is written as file, line and column, joined by colons. -/
def text (place : Location) : String :=
  place.file ++ ":" ++ toString place.line ++ ":" ++ toString place.column

@[simp] theorem advance_nil (place : Location) : place.advance [] = place := rfl

@[simp] theorem advance_cons (place : Location) (c : Char) (text : List Char) :
    place.advance (c :: text) = (place.next c).advance text := rfl

/-- Advancing over two pieces of text is advancing over one after the other. -/
theorem advance_append (place : Location) (first second : List Char) :
    place.advance (first ++ second) = (place.advance first).advance second := by
  simp [advance]

end Location

end StackScript
