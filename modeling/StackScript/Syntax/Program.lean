/-
# Reading programs

A program is a list of statements that uses up all the tokens. Here a failure
of a reader becomes a diagnostic: an unexpected token is reported where it
stands, running out of tokens is the problem that ended the text or else its
end, and nesting too deeply is reported at the first token of the statement of
the program that does so.
-/

import StackScript.Syntax.Statement
import StackScript.Token.Stream

namespace StackScript.Syntax

/-- The number of levels that statements and expressions may nest. -/
def nestingLimit : Nat := 500

/-- How a text ends for a reader that wants more tokens. -/
def ending (stream : TokenStream) : Diagnostic :=
  stream.problem.getD ⟨stream.stop, .endOfFile⟩

/-- The diagnostic of a failure in a statement that starts at a known place. -/
def diagnose (ending : Diagnostic) (start : Location) : Reader.Failure → Diagnostic
  | .unexpected found expected => ⟨found.location, .unexpectedToken found.text expected⟩
  | .exhausted => ending
  | .tooDeep => ⟨start, .nestingTooDeep⟩

/-- Reads the statements of a program, at most `bound` of them. -/
def statements (limit bound : Nat) (ending : Diagnostic) :
    Nat → List Token → Except Diagnostic (List Stmt)
  | _, [] => .ok []
  | 0, _ => .error ending
  | count + 1, token :: rest =>
    match statement bound limit (token :: rest) with
    | .error failure => .error (diagnose ending token.location failure)
    | .ok (first, rest) => do return first :: (← statements limit bound ending count rest)

/-- Reads a program from its tokens. A text that could not be split to its end
is no program, but a wrong token before that place is the first thing wrong. -/
def programOf (limit : Nat) (stream : TokenStream) : Except Diagnostic (List Stmt) := do
  let tokens := stream.significant
  let bound := tokens.length + 1
  let program ← statements limit bound (ending stream) bound tokens
  match stream.problem with
  | some problem => .error problem
  | none => return program

/-- Reads the program in a text. -/
def program (file text : String) : Except Diagnostic (List Stmt) :=
  programOf nestingLimit (TokenStream.ofText file text)

end StackScript.Syntax
