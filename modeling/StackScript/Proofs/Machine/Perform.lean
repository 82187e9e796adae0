/-
# Performing instructions

What the machine does when it comes to a line of a draft: it reads operands,
looks up what they stand for and carries out the instruction. Reading is the
same for all instructions and never fails where a chunk shows the line; what
remains is an action on the stack, the frames and the globals.
-/

import StackScript.Machine.Step
import StackScript.Proofs.Draft.Assembly

namespace StackScript

/-- An instruction as a chunk shows it, and as the machine finds it: a number may
have been replaced by an equal one. -/
def Instr.Means : Instr → Instr → Prop
  | .const value, actual => ∃ entry, actual = .const entry ∧ (entry == value ∨ entry = value)
  | instr, actual => actual = instr

theorem Instr.Means.op_eq {instr actual : Instr} (h : instr.Means actual) :
    actual.op = instr.op := by
  cases instr with
  | const value =>
      obtain ⟨entry, rfl, -⟩ := h
      rfl
  | _ => exact congrArg Instr.op h

/-- Jumps are found as they are. -/
theorem Instr.Means.eq_of_jump {instr actual : Instr} (h : instr.Means actual)
    (jump : actual.op.isJump = true) : instr = actual := by
  cases instr with
  | const value =>
      obtain ⟨entry, rfl, -⟩ := h
      cases jump
  | _ => exact h.symm

namespace Chunk

/-- What the machine makes of operands: a number is the one that is really in the
pool. -/
structure Finds (chunk : Chunk) (instr : Instr) (operands : List Int) : Prop where
  resolves : chunk.Resolves instr operands
  exact_number : ∀ value, instr = .const value →
    ∃ id : Nat, operands = [(id : Int)] ∧ chunk.constants.get? id = some value

/-- The machine finds an instruction at an offset, with the number that is really
in the pool. -/
def Reads (chunk : Chunk) (offset : Nat) (instr : Instr) : Prop :=
  ∃ operands, chunk.Resolves instr operands ∧
    (∀ value, instr = .const value →
      ∃ id : Nat, operands = [(id : Int)] ∧ chunk.constants.get? id = some value) ∧
    Code.Fits instr.op operands ∧
    Code.instructionBytes instr.op operands <+: chunk.code.bytes.toList.drop offset

/-- Where a line is shown, the machine finds it. -/
theorem Shows.reads {chunk : Chunk} {offset : Nat} {line : Line} (h : chunk.Shows offset line) :
    ∃ instr, line.instr.Means instr ∧ chunk.Reads offset instr := by
  obtain ⟨operands, resolves, fits, shown⟩ := h
  cases same : line.instr with
  | const value =>
      rw [same] at resolves fits shown
      obtain ⟨id, entry, rfl, found, equal⟩ := resolves
      refine ⟨.const entry, ⟨entry, rfl, equal⟩, _, ⟨id, entry, rfl, found, .inr rfl⟩, ?_, fits,
        shown⟩
      rintro _ ⟨⟩
      exact ⟨id, rfl, found⟩
  | _ =>
      rw [same] at resolves fits shown
      exact ⟨_, rfl, operands, resolves, by simp, fits, shown⟩

end Chunk

namespace Exec

/-- Carries out an instruction whose operands have been read. -/
def perform : Instr → Exec Unit
  | .plain op _ => instruction op
  | .const value => push (.number value)
  | .str value => push (.string value)
  | .setGlobal name => do
    let value ← pop
    define name value
  | .getGlobal name => do
    match (← get).globals.find? name with
    | none => throw (.variableNotDefined name)
    | some value => push value
  | .deepSet slot => do
    let value ← pop
    let place ← position slot
    modify fun machine => { machine with stack := machine.stack.setIfInBounds place value }
  | .deepGet slot => do
    let place ← position slot
    match (← get).stack[place]? with
    | none => throw (.invalidSlot slot)
    | some value => push value
  | .jmp distance => jumpBy distance
  | .jz distance => do
    match ← pop with
    | .bool true => return ()
    | .bool false => jumpBy distance
    | value => throw (.incompatibleOperands "if" [value.kind])
  | .func name arity start =>
    define name (.function { name, arity := arity, start := start })
  | .invoke name count => do
    match (← get).globals.find? name with
    | none => throw (.functionNotDefined name)
    | some (.function function) =>
      if (count : Int) ≠ function.arity then
        throw (.arityMismatch name function.arity count)
      let machine ← get
      if machine.frameLimit ≤ machine.frames.size then
        throw .frameOverflow
      let arguments ← popMany count
      push (.pointer machine.ip)
      modify fun machine => { machine with frames := machine.frames.push machine.stack.size }
      pushMany arguments.reverse
      modify fun machine => { machine with ip := function.start - 1 }
    | some value => throw (.notCallable name value.kind)

section Results

variable {α β : Type} {m : Machine}

theorem bind_of_ok {x : Exec α} {f : α → Exec β} {later : Machine} {value : α}
    (h : x m = .ok value later) : (x >>= f) m = f value later := by
  rw [show (x >>= f) m = EStateM.bind x f m from rfl, EStateM.bind, h]

theorem bind_of_error {x : Exec α} {f : α → Exec β} {later : Machine} {fault : Fault}
    (h : x m = .error fault later) : (x >>= f) m = .error fault later := by
  rw [show (x >>= f) m = EStateM.bind x f m from rfl, EStateM.bind, h]

@[simp] theorem bind_get (f : Machine → Exec β) : (get >>= f) m = f m m := rfl

@[simp] theorem bind_modify (change : Machine → Machine) (f : Unit → Exec β) :
    ((modify change : Exec Unit) >>= f) m = f () (change m) := rfl

@[simp] theorem bind_pure (value : α) (f : α → Exec β) :
    ((pure value : Exec α) >>= f) m = f value m := rfl

@[simp] theorem pure_eq (value : α) : (pure value : Exec α) m = .ok value m := rfl

@[simp] theorem modify_eq (change : Machine → Machine) :
    (modify change : Exec Unit) m = .ok () (change m) := rfl

@[simp] theorem throw_eq (fault : Fault) : (throw fault : Exec α) m = .error fault m := rfl

@[simp] theorem bind_throw (fault : Fault) (f : α → Exec β) :
    ((throw fault : Exec α) >>= f) m = .error fault m := rfl

end Results

section Reading

variable {m : Machine} {chunk : Chunk} {offset : Nat} {rest : List UInt8}

/-- The byte behind the instruction pointer is read. -/
theorem readByte_eq {byte : UInt8} (ip : m.ip = offset)
    (h : m.code.bytes.toList.drop (offset + 1) = byte :: rest) :
    readByte m = .ok byte { m with ip := (offset + 1 : Nat) } := by
  have found : m.code.bytes[offset + 1]? = some byte := by
    rw [← Array.getElem?_toList]
    have first : (m.code.bytes.toList.drop (offset + 1))[0]? = some byte := by rw [h]; rfl
    simpa using first
  have moved : m.ip + 1 = (offset + 1 : Nat) := by
    rw [ip]
    rfl
  have nonneg : ¬ (((offset + 1 : Nat) : Int) < 0) := by omega
  simp only [readByte, bind_modify, bind_get, moved, nonneg, if_false, Int.toNat_natCast, found,
    pure_eq]

theorem readString_eq {byte : UInt8} {name : String} (ip : m.ip = offset)
    (loaded : m.chunk = some chunk) (h : m.code.bytes.toList.drop (offset + 1) = byte :: rest)
    (named : chunk.strings.get? byte.toNat = some name) :
    readString m = .ok name { m with ip := (offset + 1 : Nat) } := by
  rw [readString, bind_of_ok (readByte_eq ip h)]
  simp only [bind_get, loaded, Option.bind_some, named, pure_eq]

theorem readConstant_eq {byte : UInt8} {value : Float} (ip : m.ip = offset)
    (loaded : m.chunk = some chunk) (h : m.code.bytes.toList.drop (offset + 1) = byte :: rest)
    (named : chunk.constants.get? byte.toNat = some value) :
    readConstant m = .ok value { m with ip := (offset + 1 : Nat) } := by
  rw [readConstant, bind_of_ok (readByte_eq ip h)]
  simp only [bind_get, loaded, Option.bind_some, named, pure_eq]

theorem drop_succ_of_drop {bytes : List UInt8} {byte : UInt8} {start : Nat}
    (h : bytes.drop start = byte :: rest) : bytes.drop (start + 1) = rest := by
  rw [← List.drop_drop, h, List.drop_one, List.tail_cons]

theorem readDistance_eq {high low : UInt8} (ip : m.ip = offset)
    (h : m.code.bytes.toList.drop (offset + 1) = high :: low :: rest) :
    readDistance m = .ok (Code.wordValue high low) { m with ip := (offset + 2 : Nat) } := by
  rw [readDistance, bind_of_ok (readByte_eq ip h),
    bind_of_ok (readByte_eq (m := { m with ip := (offset + 1 : Nat) }) rfl (drop_succ_of_drop h))]
  rfl

end Reading

/-- Behind the opcode are the operands. -/
theorem operands_of_shown {bytes : List UInt8} {offset : Nat} {op : Opcode} {operands : List Int}
    (shown : Code.instructionBytes op operands <+: bytes.drop offset) :
    ∃ rest, bytes.drop (offset + 1) = (Code.operandsBytes op.operands operands).1 ++ rest := by
  obtain ⟨rest, same⟩ := shown
  exact ⟨rest, drop_succ_of_drop same.symm⟩

/-- Behind the opcode of an instruction with operands of one byte each, there are
these bytes. -/
theorem bytes_of_shown {bytes : List UInt8} {offset : Nat} {op : Opcode} (values : List Nat)
    (kinds : op.operands = values.map fun _ => .u8)
    (fits : Code.Fits op (values.map Int.ofNat))
    (shown : Code.instructionBytes op (values.map Int.ofNat) <+: bytes.drop offset) :
    ∃ found rest : List UInt8, bytes.drop (offset + 1) = found ++ rest ∧
      found.map UInt8.toNat = values := by
  obtain ⟨rest, same⟩ := operands_of_shown shown
  rw [kinds] at same
  exact ⟨_, rest, same, Code.operandsBytes_u8 (kinds ▸ fits.2)⟩

theorem byte_of_shown {bytes : List UInt8} {offset : Nat} {op : Opcode} {value : Nat}
    (kinds : op.operands = [.u8]) (fits : Code.Fits op [(value : Int)])
    (shown : Code.instructionBytes op [(value : Int)] <+: bytes.drop offset) :
    ∃ (byte : UInt8) (rest : List UInt8), bytes.drop (offset + 1) = byte :: rest ∧
      byte.toNat = value := by
  obtain ⟨found, rest, same, back⟩ := bytes_of_shown [value] kinds fits shown
  obtain ⟨byte, rfl, rfl⟩ := List.map_eq_singleton_iff.mp back
  exact ⟨byte, rest, same, rfl⟩

theorem word_of_shown {bytes : List UInt8} {offset : Nat} {op : Opcode} {value : Int}
    (kinds : op.operands = [.i16]) (fits : Code.Fits op [value])
    (shown : Code.instructionBytes op [value] <+: bytes.drop offset) :
    ∃ (high low : UInt8) (rest : List UInt8), bytes.drop (offset + 1) = high :: low :: rest ∧
      Code.wordValue high low = value := by
  obtain ⟨rest, same⟩ := operands_of_shown shown
  have encoded := fits.2
  rw [kinds] at same encoded
  obtain ⟨bytes, found, encoded, -⟩ := Code.operandsBytes_cons encoded
  obtain ⟨high, low, rfl, back⟩ := Code.operandBytes_i16 found
  refine ⟨high, low, rest, ?_, back⟩
  rw [same, encoded]
  rfl

section Performing

variable {m : Machine} {chunk : Chunk} {offset : Nat} {instr : Instr}

/-- Reading the operands moves the instruction pointer to the last byte of the
instruction. -/
theorem instruction_of_shown {operands : List Int} (loaded : m.chunk = some chunk)
    (ip : m.ip = offset) (finds : chunk.Finds instr operands)
    (fits : Code.Fits instr.op operands)
    (shown : Code.instructionBytes instr.op operands <+: m.code.bytes.toList.drop offset) :
    instruction instr.op m = perform instr { m with ip := (offset + (instr.op.size - 1) : Nat) } := by
  obtain ⟨resolves, exact_number⟩ := finds
  cases instr with
  | plain op bare =>
      have still : (offset + ((Instr.plain op bare).op.size - 1) : Nat) = m.ip := by
        simp [Instr.op, Opcode.size, bare, OperandKind.widths, ip]
      rw [still]
      rfl
  | const value =>
      obtain ⟨id, rfl, found⟩ := exact_number value rfl
      obtain ⟨byte, rest, behind, rfl⟩ := byte_of_shown rfl fits shown
      exact bind_of_ok (readConstant_eq ip loaded behind found)
  | str value =>
      obtain ⟨id, rfl, found⟩ := resolves
      obtain ⟨byte, rest, behind, rfl⟩ := byte_of_shown rfl fits shown
      exact bind_of_ok (readString_eq ip loaded behind found)
  | setGlobal name =>
      obtain ⟨id, rfl, found⟩ := resolves
      obtain ⟨byte, rest, behind, rfl⟩ := byte_of_shown rfl fits shown
      exact bind_of_ok (readString_eq ip loaded behind found)
  | getGlobal name =>
      obtain ⟨id, rfl, found⟩ := resolves
      obtain ⟨byte, rest, behind, rfl⟩ := byte_of_shown rfl fits shown
      exact bind_of_ok (readString_eq ip loaded behind found)
  | deepSet slot =>
      obtain rfl := resolves
      obtain ⟨byte, rest, behind, rfl⟩ := byte_of_shown rfl fits shown
      exact bind_of_ok (readByte_eq ip behind)
  | deepGet slot =>
      obtain rfl := resolves
      obtain ⟨byte, rest, behind, rfl⟩ := byte_of_shown rfl fits shown
      exact bind_of_ok (readByte_eq ip behind)
  | jmp distance =>
      obtain rfl := resolves
      obtain ⟨high, low, rest, behind, rfl⟩ := word_of_shown rfl fits shown
      exact bind_of_ok (readDistance_eq ip behind)
  | jz distance =>
      obtain rfl := resolves
      obtain ⟨high, low, rest, behind, rfl⟩ := word_of_shown rfl fits shown
      exact bind_of_ok (readDistance_eq ip behind)
  | func name arity start =>
      obtain ⟨id, rfl, found⟩ := resolves
      obtain ⟨bytes, rest, behind, back⟩ := bytes_of_shown [id, arity, start] rfl fits shown
      obtain ⟨first, others, rfl, rfl, back'⟩ := List.map_eq_cons_iff.mp back
      obtain ⟨second, others, rfl, rfl, back''⟩ := List.map_eq_cons_iff.mp back'
      obtain ⟨third, rfl, rfl⟩ := List.map_eq_singleton_iff.mp back''
      refine (bind_of_ok (readString_eq ip loaded behind found)).trans ?_
      refine (bind_of_ok (readByte_eq (m := { m with ip := (offset + 1 : Nat) }) rfl
        (drop_succ_of_drop behind))).trans ?_
      exact bind_of_ok (readByte_eq (m := { m with ip := (offset + 2 : Nat) }) rfl
        (drop_succ_of_drop (drop_succ_of_drop behind)))
  | invoke name count =>
      obtain ⟨id, rfl, found⟩ := resolves
      obtain ⟨bytes, rest, behind, back⟩ := bytes_of_shown [id, count] rfl fits shown
      obtain ⟨first, others, rfl, rfl, back'⟩ := List.map_eq_cons_iff.mp back
      obtain ⟨second, rfl, rfl⟩ := List.map_eq_singleton_iff.mp back'
      refine (bind_of_ok (readString_eq ip loaded behind found)).trans ?_
      exact bind_of_ok (readByte_eq (m := { m with ip := (offset + 1 : Nat) }) rfl
        (drop_succ_of_drop behind))

end Performing

end Exec

end StackScript
