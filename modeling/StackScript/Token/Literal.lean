/-
# String literals

A string is written between double quotes on one line. A backslash gives the
next character another meaning, and there are six such characters; all other
characters stand for themselves.
-/

import StackScript.Text.Quoted

namespace StackScript.StringLiteral

open Text (backslash doubleQuote)

/-- The character that a backslash and the given character stand for. -/
def escaped? : Char → Option Char
  | 'n' => some '\n'
  | 'r' => some '\r'
  | 't' => some '\t'
  | '0' => some '\x00'
  | '\x5c' => some backslash
  | '\x22' => some doubleQuote
  | _ => none

/-- The meaning of the characters between the quotes. -/
def unescape : List Char → List Char
  | [] => []
  | [c] => [c]
  | c :: d :: rest =>
    if c = backslash then (escaped? d).getD d :: unescape rest
    else c :: unescape (d :: rest)

/-- The meaning of a string as it is written, quotes included. -/
def value (text : String) : String := String.ofList (unescape (text.toList.drop 1).dropLast)

end StackScript.StringLiteral
