/-
# Tokens

The alphabet of the grammar: keywords, punctuators, and the open classes of
names, numbers and strings. White space and comments are tokens as well, so
that the tokens of a text can be laid end to end to give the text back; the
grammar skips them.
-/

import StackScript.Location

namespace StackScript

/-- The reserved words, in alphabetical order. -/
inductive Keyword where
  | kwElse | kwFalse | kwFn | kwIf | kwLet | kwNull | kwPrint | kwReturn | kwTrue | kwWhile
deriving DecidableEq, Inhabited, Repr

namespace Keyword

/-- The spelling of a reserved word. -/
def text : Keyword → String
  | kwElse => "else"
  | kwFalse => "false"
  | kwFn => "fn"
  | kwIf => "if"
  | kwLet => "let"
  | kwNull => "null"
  | kwPrint => "print"
  | kwReturn => "return"
  | kwTrue => "true"
  | kwWhile => "while"

/-- Every reserved word. -/
def all : List Keyword :=
  [kwElse, kwFalse, kwFn, kwIf, kwLet, kwNull, kwPrint, kwReturn, kwTrue, kwWhile]

/-- The reserved word with a given spelling. -/
def ofText? (text : String) : Option Keyword := all.find? fun word => word.text == text

end Keyword

/-- Operators and brackets. -/
inductive Punctuator where
  | lessEqual | greaterEqual | equalEqual | bangEqual
  | less | greater | equal | bang
  | plus | minus | star | slash | percent
  | comma | semicolon
  | leftParen | rightParen | leftBrace | rightBrace
deriving DecidableEq, Inhabited, Repr

namespace Punctuator

/-- The spelling of a punctuator. -/
def text : Punctuator → String
  | lessEqual => "<="
  | greaterEqual => ">="
  | equalEqual => "=="
  | bangEqual => "!="
  | less => "<"
  | greater => ">"
  | equal => "="
  | bang => "!"
  | plus => "+"
  | minus => "-"
  | star => "*"
  | slash => "/"
  | percent => "%"
  | comma => ","
  | semicolon => ";"
  | leftParen => "("
  | rightParen => ")"
  | leftBrace => "\x7b"
  | rightBrace => "\x7d"

/-- Every punctuator, those of two characters first. -/
def all : List Punctuator :=
  [lessEqual, greaterEqual, equalEqual, bangEqual, less, greater, equal, bang, plus, minus,
    star, slash, percent, comma, semicolon, leftParen, rightParen, leftBrace, rightBrace]

end Punctuator

/-- The classes of tokens. The end of the text is a class too: it is what a
reader meets when nothing else is left. -/
inductive TokenKind where
  | endOfFile
  | comment
  | whiteSpace
  | number
  | string
  | name
  | keyword (word : Keyword)
  | punctuator (mark : Punctuator)
deriving DecidableEq, Inhabited, Repr

namespace TokenKind

/-- How diagnostics name a class of tokens. -/
def describe : TokenKind → String
  | endOfFile => "<end-of-file>"
  | comment => "<comment>"
  | whiteSpace => "<white-space>"
  | number => "<number-literal>"
  | string => "<string-literal>"
  | name => "<identifier>"
  | keyword word => "keyword '" ++ word.text ++ "'"
  | punctuator mark => "`" ++ mark.text ++ "`"

/-- White space and comments separate tokens and mean nothing to the grammar. -/
def isTrivia : TokenKind → Bool
  | comment => true
  | whiteSpace => true
  | _ => false

/-- Every class that is not a punctuator. -/
def words : List TokenKind :=
  [endOfFile, comment, whiteSpace, number, string, name] ++ Keyword.all.map keyword

end TokenKind

/-- A token is a piece of the source text with its class and its place. -/
structure Token where
  kind : TokenKind
  text : String
  location : Location
deriving DecidableEq, Inhabited, Repr

end StackScript
