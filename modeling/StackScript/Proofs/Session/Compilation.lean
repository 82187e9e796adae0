/-
# Compiling a text

Compiling converts the tokens of a text and asks for code, and both can go wrong on other inputs:
a text may be no number, an escape may break off, an operator may have no instruction, an operand
may not fit its byte. None of it happens on the way from a text to a chunk. A text is refused with
a diagnostic, or its program is in the chunk as a whole, with the instruction to stop behind it.
-/

import StackScript.Proofs.Machine.Safety
import StackScript.Proofs.Token.Splitting
import StackScript.Session

namespace StackScript

open Line (extent placed)

namespace StringLiteral

open Text (backslash)

/-- The meaning of the characters between the quotes, if no escape is unknown or breaks off. -/
def decode? : List Char → Option (List Char)
  | [] => some []
  | c :: rest =>
    if c = backslash then
      match rest with
      | [] => none
      | d :: rest => do return (← escaped? d) :: (← decode? rest)
    else do return c :: (← decode? rest)

/-- What stands between the quotes of a token has a meaning. -/
theorem decode?_eq {text : List Char} (h : Lexeme.IsStringBody text) :
    decode? text = some (unescape text) := by
  induction h with
  | nil => rfl
  | @plain c rest _ slash _ _ ih =>
      rw [unescape_cons slash, decode?.eq_def]
      simp [slash, ih]
  | @escape d rest known _ ih =>
      obtain ⟨meaning, found⟩ := Option.isSome_iff_exists.mp known
      rw [decode?, unescape]
      simp [found, ih]

end StringLiteral

/-- The instructions by the punctuators of unary operators. -/
def unaryOpcodes : List (Punctuator × Opcode) := [(.minus, .negate), (.bang, .not)]

/-- The instructions by the punctuators of binary operators. -/
def binaryOpcodes : List (Punctuator × List Opcode) := [
  (.equalEqual, [.eq]),
  (.bangEqual, [.eq, .not]),
  (.less, [.lt]),
  (.lessEqual, [.gt, .not]),
  (.greater, [.gt]),
  (.greaterEqual, [.lt, .not]),
  (.plus, [.add]),
  (.minus, [.sub]),
  (.star, [.mul]),
  (.slash, [.div]),
  (.percent, [.mod])]

/-- Conversions of the tokens of a text, and of the operators that are read from them, always have
a result. -/
structure TokenStream.Convertible (stream : TokenStream) : Prop where
  numbers : ∀ token ∈ stream.tokens, token.kind = .number →
    Lexeme.IsNumeral token.text.toList
  strings : ∀ token ∈ stream.tokens, token.kind = .string →
    StringLiteral.decode? (token.text.toList.drop 1).dropLast =
      some (StringLiteral.value token.text).toList
  unary : ∀ op : UnaryOp, unaryOpcodes.lookup op.mark = some op.opcode
  binary : ∀ op : BinaryOp, binaryOpcodes.lookup op.mark = some op.opcodes

theorem TokenStream.ofText_convertible (file text : String) : (ofText file text).Convertible where
  numbers := by
    intro token mem number
    have spelled := ofText_spelled file text token mem (by rw [number]; rfl)
    rwa [Word.Spelled, Token.word, number] at spelled
  strings := by
    intro token mem string
    have spelled := ofText_spelled file text token mem (by rw [string]; rfl)
    rw [Word.Spelled, Token.word, string] at spelled
    obtain ⟨body, same, isBody⟩ := spelled
    have inner : (token.text.toList.drop 1).dropLast = body := by
      dsimp only at same
      rw [same, List.drop_succ_cons, List.drop_zero, List.dropLast_concat]
    rw [StringLiteral.value, inner, String.toList_ofList]
    exact StringLiteral.decode?_eq isBody
  unary := by
    intro op
    cases op <;> rfl
  binary := by
    intro op
    cases op <;> rfl

namespace Chunk

variable {chunk later : Chunk} {bytes : Nat}

/-- Statements are added as a whole, or one of them is refused. No request for code goes wrong. -/
theorem addNodes_cases (roomy : chunk.Roomy) (limit : Nat) (program : List Stmt) :
    (∃ later bytes, chunk.addNodes limit (program.map .statement) = (later, .ok bytes) ∧
        later.size = chunk.size + bytes) ∨
      ∃ later diagnostic, chunk.addNodes limit (program.map .statement) =
        (later, .error (.refused diagnostic)) := by
  induction program generalizing chunk with
  | nil => exact .inl ⟨chunk, 0, rfl, rfl⟩
  | cons first rest ih =>
      rw [List.map_cons, addNodes, addNode]
      rcases addStatement_cases roomy limit first with
        ⟨found, same, lines, -⟩ | ⟨grown, diagnostic, -, same⟩
      · obtain ⟨extended, -, size, -⟩ := addLines_spec lines
        rw [same]
        dsimp only
        rcases ih (extended.roomy roomy) with ⟨later, more, others, length⟩ | ⟨later, why, others⟩
        · rw [others]
          refine .inl ⟨later, _, rfl, ?_⟩
          rw [length, size, Nat.add_assoc]
        · rw [others]
          exact .inr ⟨later, why, rfl⟩
      · rw [same]
        exact .inr ⟨_, diagnostic, rfl⟩

/-- The instruction to stop can always be appended. -/
theorem append_exit (chunk : Chunk) (place : Option Location) :
    ∃ later, chunk.append place .exit [] = (later, .ok chunk.size) ∧
      later.size = chunk.size + Opcode.exit.size := by
  refine ⟨_, append_eq_ok.mpr ⟨⟨rfl, rfl⟩, rfl, rfl⟩, ?_⟩
  simp [size, Code.size, Code.instructionBytes, Code.operandsBytes, Opcode.size, Opcode.operands,
    OperandKind.widths]

theorem addProgram_cases (roomy : chunk.Roomy) (limit : Nat) (program : List Stmt) :
    (∃ later bytes, chunk.addProgram limit (program.map .statement) = (later, .ok bytes) ∧
        later.size = chunk.size + bytes) ∨
      ∃ later diagnostic, chunk.addProgram limit (program.map .statement) =
        (later, .error (.refused diagnostic)) := by
  rw [addProgram]
  rcases addNodes_cases roomy limit program with ⟨grown, bytes, same, size⟩ | ⟨later, why, same⟩
  · obtain ⟨later, appended, length⟩ :=
      grown.append_exit ((program.map Node.statement).getLast?.bind Node.location?)
    rw [same]
    dsimp only
    rw [appended]
    refine .inl ⟨later, _, rfl, ?_⟩
    rw [length, size, Nat.add_assoc]
  · rw [same]
    exact .inr ⟨later, why, rfl⟩

/-- A whole program in a new chunk is its draft, with the instruction to stop behind it. -/
theorem assembled_of_addProgram {program : List Stmt}
    (added : (empty maxPoolSize).addProgram limit (program.map .statement) = (later, .ok bytes)) :
    listLegal false program ∧
      ∃ place, later.Assembled (listCode 0 .top program ++ [exitLine place]) := by
  have start := assembled_empty (Nat.le_refl maxPoolSize)
  obtain ⟨more, place, same, legal, lines⟩ := addProgram_spec start.roomy added
  obtain rfl : program = more := List.map_injective_iff.mpr (fun _ _ => Node.statement.inj) same
  exact ⟨legal, place, start.addLines lines⟩

end Chunk

namespace Session

/-- A chunk that holds the whole program of a text, and the instruction to stop behind it. -/
structure Complete (file text : String) (chunk : Chunk) : Prop where
  whole : ∃ program, Syntax.program file text = .ok program ∧
    (Chunk.empty Chunk.maxPoolSize).addProgram Syntax.nestingLimit (program.map .statement) =
      (chunk, .ok chunk.size)
  ends : chunk.Has (chunk.size - Opcode.exit.size) .exit []

/-- A text is refused with a diagnostic, or its program is compiled as a whole. -/
theorem compile_cases (file text : String) :
    (∃ diagnostic, compile file text = .error (.refused diagnostic)) ∨
      ∃ chunk, compile file text = .ok chunk ∧ Complete file text chunk := by
  have roomy := Chunk.roomy_empty (Nat.le_refl Chunk.maxPoolSize)
  unfold compile
  cases read : Syntax.program file text with
  | error diagnostic => exact .inl ⟨diagnostic, rfl⟩
  | ok program =>
      dsimp only
      rcases Chunk.addProgram_cases roomy Syntax.nestingLimit program with
        ⟨chunk, bytes, added, size⟩ | ⟨chunk, diagnostic, refused⟩
      · obtain rfl : chunk.size = bytes := size.trans (Nat.zero_add bytes)
        rw [added]
        refine .inr ⟨chunk, rfl, ⟨program, read, added⟩, ?_⟩
        obtain ⟨legal, place, assembled⟩ := Chunk.assembled_of_addProgram added
        have last : chunk.size - Opcode.exit.size = extent (listCode 0 .top program) := by
          rw [assembled.size_eq, Line.extent_append]
          rfl
        have listed : (extent (listCode 0 .top program), exitLine place) ∈
            placed 0 (listCode 0 .top program ++ [exitLine place]) := by simp
        rw [last]
        exact assembled.has_exit listed rfl
      · rw [refused]
        exact .inl ⟨diagnostic, rfl⟩

end Session

end StackScript
