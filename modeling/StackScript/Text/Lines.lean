/-
# Line ends

Programs are read from files as UTF-8. A carriage return, with a line feed
after it or without, ends a line just as a line feed does; after reading, line
feeds are the only line ends. Nothing else is changed or left out.
-/

namespace StackScript.Text

/-- Replaces every line end by a line feed. -/
def unifyLines : List Char → List Char
  | [] => []
  | '\r' :: '\n' :: rest => '\n' :: unifyLines rest
  | '\r' :: rest => '\n' :: unifyLines rest
  | c :: rest => c :: unifyLines rest

/-- The text in the bytes of a file, if they are valid UTF-8. -/
def ofFile? (bytes : ByteArray) : Option String :=
  (String.fromUTF8? bytes).map fun text => String.ofList (unifyLines text.toList)

end StackScript.Text
