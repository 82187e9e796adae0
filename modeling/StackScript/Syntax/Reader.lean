/-
# Readers

A reader takes tokens from the front of a list and builds something of them.
It fails at the first token that does not fit, or when the tokens run out, or
when the text nests too deeply; how a text ends is not its concern.
-/

import StackScript.Token.Basic

namespace StackScript

/-- Why a reader fails. -/
inductive Reader.Failure where
  | unexpected (found : Token) (expected : List TokenKind)
  | exhausted
  | tooDeep
deriving DecidableEq, Inhabited, Repr

/-- A reader of values of a type. -/
abbrev Reader (α : Type) : Type := StateT (List Token) (Except Reader.Failure) α

namespace Reader

/-- The kind of the token after `count` others; nothing is taken. -/
def kindAfter (count : Nat) : Reader (Option TokenKind) := fun tokens =>
  .ok (tokens[count]?.map Token.kind, tokens)

/-- Takes the next token, whatever it is. -/
def next : Reader Token
  | [] => .error .exhausted
  | token :: rest => .ok (token, rest)

/-- Takes the next token if it is of the given kind, and says whether it was. -/
def accept (kind : TokenKind) : Reader Bool
  | [] => .ok (false, [])
  | token :: rest => .ok (if token.kind = kind then (true, rest) else (false, token :: rest))

/-- Takes the next token, which must be of one of the given kinds. -/
def expect (kinds : List TokenKind) : Reader Token
  | [] => .error .exhausted
  | token :: rest =>
    if kinds.contains token.kind then .ok (token, rest) else .error (.unexpected token kinds)

/-- Takes the given punctuator. -/
def mark (mark : Punctuator) : Reader Unit := do
  let _ ← expect [.punctuator mark]

/-- Reads items up to and with the closing parenthesis, a comma between any
two. There are fewer than `bound` items. -/
def itemsToParen (item : Reader α) : Nat → Reader (List α)
  | 0 => throw .exhausted
  | bound + 1 => do
    let first ← item
    let separator ← expect [.punctuator .comma, .punctuator .rightParen]
    if separator.kind = .punctuator .rightParen then
      return [first]
    else
      return first :: (← itemsToParen item bound)

/-- Reads a list in parentheses, which may be empty. -/
def parenthesized (bound : Nat) (item : Reader α) : Reader (List α) := do
  mark .leftParen
  if ← accept (.punctuator .rightParen) then
    return []
  else
    itemsToParen item bound

/-- Reads items up to and with the closing brace. There are fewer than `bound` items. -/
def itemsToBrace (item : Reader α) : Nat → Reader (List α)
  | 0 => throw .exhausted
  | bound + 1 => do
    if ← accept (.punctuator .rightBrace) then
      return []
    else
      let first ← item
      return first :: (← itemsToBrace item bound)

end Reader

end StackScript
