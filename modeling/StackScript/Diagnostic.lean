/-
# Diagnostics

Everything that can be wrong with a program before it runs. A diagnostic is a
cause, in the terms of the language, together with the place where it was
noticed; its wording is one function of the cause, so that no other module
deals with messages.
-/

import StackScript.Text.Quoted
import StackScript.Token.Basic

namespace StackScript

/-- What is wrong with a program. The first three causes concern its text, the
others its meaning or the limits of the code format. -/
inductive Diagnostic.Cause where
  | endOfFile
  | unexpectedChar (found : Char)
  | unexpectedToken (found : String) (expected : List TokenKind)
  | localVariableExists (name : String)
  | tooManyLocalVariables
  | tooManyParameters
  | tooManyArguments
  | constantPoolTooLarge
  | stringPoolTooLarge
  | jumpTooLarge
  | functionTooFar (name : String)
  | returnOutsideFunction
  | nestedFunction (name : String)
  | unknownNode (kind : String)
  | nestingTooDeep
deriving DecidableEq, Inhabited, Repr

/-- The wording of a cause. -/
def Diagnostic.Cause.describe : Diagnostic.Cause → String
  | endOfFile => "end of file"
  | unexpectedChar found => "unexpected char " ++ Text.quoted (String.singleton found)
  | unexpectedToken found [] => "unexpected token " ++ Text.quoted found
  | unexpectedToken found expected =>
    "unexpected token " ++ Text.quoted found ++ ", expect " ++
      String.intercalate " or " (expected.map TokenKind.describe)
  | localVariableExists name => "local variable `" ++ name ++ "` exists"
  | tooManyLocalVariables => "too many local variables"
  | tooManyParameters => "too many parameters"
  | tooManyArguments => "too many arguments"
  | constantPoolTooLarge => "constant pool too large"
  | stringPoolTooLarge => "string pool too large"
  | jumpTooLarge => "jump too large"
  | functionTooFar name => "function `" ++ name ++ "` starts beyond byte 255"
  | returnOutsideFunction => "return outside function"
  | nestedFunction name => "function `" ++ name ++ "` declared inside function"
  | unknownNode kind => "unknown AST node " ++ kind
  | nestingTooDeep => "nesting too deep"

/-- A cause and, where one is known, its place. -/
structure Diagnostic where
  location : Option Location
  cause : Diagnostic.Cause
deriving DecidableEq, Inhabited, Repr

/-- The message that a user reads: the place, if there is one, and the cause. -/
def Diagnostic.message (diagnostic : Diagnostic) : String :=
  match diagnostic.location with
  | none => diagnostic.cause.describe
  | some place => place.text ++ ": " ++ diagnostic.cause.describe

end StackScript
