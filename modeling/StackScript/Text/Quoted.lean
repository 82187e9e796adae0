/-
# Quoted text

Diagnostics and listings show a piece of text between quotes, on one line and
in printable characters only. The apostrophe is the usual quote; text that
holds an apostrophe and no double quote is set in double quotes instead, so
that it needs no escape.
-/

import StackScript.Text.Hex
import StackScript.Text.Printable

namespace StackScript.Text

/-- The apostrophe, the usual quote. -/
def apostrophe : Char := '\x27'

/-- The double quote, used around text with an apostrophe. -/
def doubleQuote : Char := '\x22'

/-- The backslash, which begins every escape. -/
def backslash : Char := '\x5c'

/-- The quote that goes around a text. -/
def quoteFor (text : List Char) : Char :=
  if text.contains apostrophe && !text.contains doubleQuote then doubleQuote else apostrophe

/-- One character between the given quotes. The quote and the backslash are
escaped by a backslash, three layout characters have names of their own, and
whatever else is not printable is written by its code point, in as few of two,
four or eight digits as hold it. -/
def escapeChar (quote c : Char) : List Char :=
  if c = quote || c = backslash then [backslash, c]
  else if c = '\n' then [backslash, 'n']
  else if c = '\r' then [backslash, 'r']
  else if c = '\t' then [backslash, 't']
  else if isPrintable c then [c]
  else if c.toNat < 0x100 then backslash :: 'x' :: hexDigits 2 c.toNat
  else if c.toNat < 0x10000 then backslash :: 'u' :: hexDigits 4 c.toNat
  else backslash :: 'U' :: hexDigits 8 c.toNat

/-- A text between quotes. -/
def quoted (text : String) : String :=
  let chars := text.toList
  let quote := quoteFor chars
  String.ofList (quote :: chars.flatMap (escapeChar quote) ++ [quote])

end StackScript.Text
