/-
# Sessions

From a text to a chunk, and from the end of a run to the report that a user
reads. A text that is no program is reported without running any part of it.
-/

import StackScript.Lowering.Program
import StackScript.Machine.Run
import StackScript.Machine.Trace

namespace StackScript

/-- The wording of a mistake in a request for code. -/
def Code.Fault.describe : Code.Fault → String
  | operandCount => "wrong number of operands"
  | byteRange => "operand is no byte"
  | wordRange => "operand is no word"
  | outside => "offset outside of the code"
  | notJump => "not a jump"
  | jumpRange => "jump too large"

/-- The wording of a failure. -/
def Chunk.Failure.message : Chunk.Failure → String
  | refused diagnostic => diagnostic.message
  | malformed fault => fault.describe

namespace Session

/-- The chunk of the program in a text. -/
def compile (file text : String) : Except Chunk.Failure Chunk :=
  match Syntax.program file text with
  | .error diagnostic => .error (.refused diagnostic)
  | .ok program =>
    let start := Chunk.empty Chunk.maxPoolSize
    match start.addProgram Syntax.nestingLimit (program.map .statement) with
    | (chunk, .ok _) => .ok chunk
    | (_, .error failure) => .error failure

/-- The report of a text that is no program. -/
def compileReport (failure : Chunk.Failure) : String := "compilation error: " ++ failure.message

/-- The places of a stack trace, outermost first, each on a line of its own. -/
def traceText (trace : List Location) : String :=
  if trace.isEmpty then ""
  else "stack trace:\n" ++ String.join (trace.reverse.map fun place => "\tat " ++ place.text ++ "\n")

/-- The report of a run that came to a fault. -/
def faultReport (machine : Machine) (fault : Fault) : String :=
  traceText machine.trace ++ "runtime error: " ++ fault.message ++ "."

end Session

end StackScript
