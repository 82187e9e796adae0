/-
# The tokens of a text

A text is split into tokens from its beginning to its end, or to the first
place where no token can be read. The tokens lie end to end, and each carries
the place that its text is at.
-/

import StackScript.Diagnostic
import StackScript.Token.Lexeme

namespace StackScript

/-- A text that has been split. Without a problem, `stop` is the end of the
text; with one, it is the place of the character that is wrong, or of the end
of the text where a token is incomplete. -/
structure TokenStream where
  tokens : List Token
  stop : Location
  problem : Option Diagnostic
deriving Repr

namespace TokenStream

/-- What is wrong where a text breaks off: its next character, if there is one. -/
def breakCause : List Char → Diagnostic.Cause
  | [] => .endOfFile
  | c :: _ => .unexpectedChar c

/-- Splits the rest of a text, which starts at a known place, after the tokens
that have been seen, the last one first. -/
def splitFrom (place : Location) (text : List Char) (seen : List Token) : TokenStream :=
  match text with
  | [] => ⟨seen.reverse, place, none⟩
  | c :: more =>
    let lexeme := Lexeme.read (c :: more)
    let stop := place.advance lexeme.text
    match h : lexeme.kind with
    | none => ⟨seen.reverse, stop, some ⟨stop, breakCause lexeme.rest⟩⟩
    | some kind =>
      have : lexeme.rest.length < (c :: more).length :=
        Lexeme.length_rest_lt (Option.isSome_of_eq_some h)
      splitFrom stop lexeme.rest (⟨kind, String.ofList lexeme.text, place⟩ :: seen)
termination_by text.length
decreasing_by exact this

/-- Splits a text. -/
def ofText (file text : String) : TokenStream := splitFrom (Location.start file) text.toList []

/-- The end of the text seen as a token: it has no text, and it is there only
if the whole text could be split. -/
def endToken (stream : TokenStream) : List Token :=
  match stream.problem with
  | none => [⟨.endOfFile, "", stream.stop⟩]
  | some _ => []

/-- The tokens that the grammar deals with. -/
def significant (stream : TokenStream) : List Token :=
  stream.tokens.filter fun token => !token.kind.isTrivia

end TokenStream

end StackScript
