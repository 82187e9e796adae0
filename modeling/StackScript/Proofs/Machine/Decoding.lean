/-
# Decoding and execution

The decoder reads operands by the forms that an opcode has, and the machine reads them one by one
while it carries the instruction out. Both find the same: in any state, at any offset, a step that
does not fail performs what the decoder finds there and goes on behind it, or where a listing says
that the instruction leads. An instruction that the code is too short for fails before it has any
effect.
-/

import StackScript.Listing
import StackScript.Proofs.Machine.Onward

namespace StackScript

/-- The instruction that operands stand for, if the pools have what they name. -/
def Chunk.resolve? (chunk : Chunk) : Opcode → List Int → Option Instr
  | .const, [id] => (chunk.constants.get? id).map .const
  | .str, [id] => (chunk.strings.get? id).map .str
  | .setGlobal, [id] => (chunk.strings.get? id).map .setGlobal
  | .getGlobal, [id] => (chunk.strings.get? id).map .getGlobal
  | .deepSet, [slot] => some (.deepSet slot.toNat)
  | .deepGet, [slot] => some (.deepGet slot.toNat)
  | .jmp, [distance] => some (.jmp distance)
  | .jz, [distance] => some (.jz distance)
  | .func, [id, arity, start] =>
    (chunk.strings.get? id).map fun name => .func name arity.toNat start.toNat
  | .invoke, [id, count] => (chunk.strings.get? id).map fun name => .invoke name count.toNat
  | op, _ => if bare : op.operands = [] then some (.plain op bare) else none

namespace Code

variable {offset start : Nat} {kinds : List OperandKind} {operands : List Int}
  {bytes rest : List UInt8}

/-- What decoding finds first has been read at the offset. -/
theorem read_of_decode {code : Code} {entry : Entry}
    (h : (code.decode offset).entries.head? = some (start, entry)) :
    ∃ byte bytes rest, code.bytes.toList.drop offset = byte :: bytes ∧
      readEntry byte bytes = some (entry, rest) := by
  unfold decode at h
  cases here : code.bytes.toList.drop offset with
  | nil => simp [here, decodeBytes] at h
  | cons byte bytes =>
      rw [here, decodeBytes] at h
      split at h
      · cases h
      · rename_i found rest read
        obtain ⟨-, rfl⟩ := Prod.mk.inj (Option.some.inj h)
        exact ⟨byte, bytes, rest, rfl, read⟩

/-- Where decoding breaks off at once, an instruction is incomplete. -/
theorem incomplete_of_decode {code : Code} (h : code.decode offset = ⟨[], true⟩) :
    ∃ byte bytes op, code.bytes.toList.drop offset = byte :: bytes ∧
      Opcode.ofByte? byte = some op ∧ readOperands op.operands bytes = none := by
  unfold decode at h
  cases here : code.bytes.toList.drop offset with
  | nil => simp [here, decodeBytes] at h
  | cons byte bytes =>
      rw [here, decodeBytes] at h
      split at h
      · rename_i incomplete
        unfold readEntry at incomplete
        split at incomplete
        · cases incomplete
        · rename_i op found
          exact ⟨byte, bytes, op, rfl, found, by simpa using incomplete⟩
      · cases h

theorem readOperands_u8 (h : readOperands (.u8 :: kinds) bytes = some (operands, rest)) :
    ∃ (byte : UInt8) (more : List UInt8) (others : List Int), bytes = byte :: more ∧
      operands = (byte.toNat : Int) :: others ∧ readOperands kinds more = some (others, rest) := by
  cases bytes with
  | nil => cases h
  | cons byte more =>
      obtain ⟨⟨others, rest'⟩, read, same⟩ := Option.map_eq_some_iff.mp h
      obtain ⟨rfl, rfl⟩ := Prod.mk.inj same
      exact ⟨byte, more, others, rfl, rfl, read⟩

theorem readOperands_i16 (h : readOperands [.i16] bytes = some (operands, rest)) :
    ∃ high low, bytes = high :: low :: rest ∧ operands = [wordValue high low] := by
  match bytes with
  | [] | [_] => cases h
  | high :: low :: more =>
      cases h
      exact ⟨high, low, rfl, rfl⟩

end Code

namespace Chunk

variable {chunk : Chunk} {op : Opcode} {operands : List Int} {bytes rest : List UInt8}
  {instr : Instr}

/-- The machine takes decoded operands for the same instruction. -/
theorem finds_of_resolve? (read : Code.readOperands op.operands bytes = some (operands, rest))
    (h : chunk.resolve? op operands = some instr) : instr.op = op ∧ chunk.Finds instr operands := by
  cases op with
  | const =>
      obtain ⟨byte, more, others, rfl, rfl, last⟩ := Code.readOperands_u8 read
      cases last
      obtain ⟨value, found, rfl⟩ := Option.map_eq_some_iff.mp h
      refine ⟨rfl, ⟨byte.toNat, value, rfl, found, .inr rfl⟩, ?_⟩
      rintro _ ⟨⟩
      exact ⟨byte.toNat, rfl, found⟩
  | str | setGlobal | getGlobal =>
      obtain ⟨byte, more, others, rfl, rfl, last⟩ := Code.readOperands_u8 read
      cases last
      obtain ⟨name, found, rfl⟩ := Option.map_eq_some_iff.mp h
      exact ⟨rfl, ⟨byte.toNat, rfl, found⟩, nofun⟩
  | deepSet | deepGet =>
      obtain ⟨byte, more, others, rfl, rfl, last⟩ := Code.readOperands_u8 read
      cases last
      cases h
      exact ⟨rfl, rfl, nofun⟩
  | jmp | jz =>
      obtain ⟨high, low, rfl, rfl⟩ := Code.readOperands_i16 read
      cases h
      exact ⟨rfl, rfl, nofun⟩
  | func =>
      obtain ⟨first, more, others, rfl, rfl, behind⟩ := Code.readOperands_u8 read
      obtain ⟨second, more, others, rfl, rfl, behind'⟩ := Code.readOperands_u8 behind
      obtain ⟨third, more, others, rfl, rfl, last⟩ := Code.readOperands_u8 behind'
      cases last
      obtain ⟨name, found, rfl⟩ := Option.map_eq_some_iff.mp h
      exact ⟨rfl, ⟨first.toNat, rfl, found⟩, nofun⟩
  | invoke =>
      obtain ⟨first, more, others, rfl, rfl, behind⟩ := Code.readOperands_u8 read
      obtain ⟨second, more, others, rfl, rfl, last⟩ := Code.readOperands_u8 behind
      cases last
      obtain ⟨name, found, rfl⟩ := Option.map_eq_some_iff.mp h
      exact ⟨rfl, ⟨first.toNat, rfl, found⟩, nofun⟩
  | _ =>
      cases read
      cases h
      exact ⟨rfl, rfl, nofun⟩

end Chunk

namespace Exec

/-- An action that fails while it reads operands: nothing has happened so far. -/
def Futile {α : Type} (x : Exec α) (m : Machine) : Prop :=
  ∃ fault ip, x m = .error fault { m with ip }

section Reading

variable {α β : Type} {m : Machine} {chunk : Chunk} {offset : Nat} {bytes : List UInt8}

theorem Futile.bind {x : Exec α} {f : α → Exec β} (h : Futile x m) : Futile (x >>= f) m := by
  obtain ⟨fault, ip, failed⟩ := h
  exact ⟨fault, ip, bind_of_error failed⟩

theorem Futile.after {x : Exec α} {f : α → Exec β} {value : α} {ip : Int}
    (read : x m = .ok value { m with ip }) (h : Futile (f value) { m with ip }) :
    Futile (x >>= f) m := by
  obtain ⟨fault, ip, failed⟩ := h
  exact ⟨fault, ip, (bind_of_ok read).trans failed⟩

/-- Without a byte to read there is nothing that could have an effect. -/
theorem readByte_futile {f : UInt8 → Exec α} (ip : m.ip = offset)
    (behind : m.code.bytes.toList.drop (offset + 1) = bytes)
    (h : ∀ byte rest, bytes = byte :: rest → Futile (f byte) { m with ip := (offset + 1 : Nat) }) :
    Futile (readByte >>= f) m := by
  cases bytes with
  | nil =>
      have missing : m.code.bytes[offset + 1]? = none := by
        rw [List.drop_eq_nil_iff, Array.length_toList] at behind
        exact Array.getElem?_eq_none behind
      have moved : m.ip + 1 = (offset + 1 : Nat) := by
        rw [ip]
        rfl
      have nonneg : ¬ (((offset + 1 : Nat) : Int) < 0) := by omega
      refine Futile.bind ⟨.outOfRange (offset + 1 : Nat), (offset + 1 : Nat), ?_⟩
      simp only [readByte, bind_modify, bind_get, moved, nonneg, if_false, Int.toNat_natCast,
        missing, throw_eq]
  | cons byte rest => exact .after (readByte_eq ip behind) (h byte rest rfl)

theorem readString_futile {f : String → Exec α} (ip : m.ip = offset) (loaded : m.chunk = some chunk)
    (behind : m.code.bytes.toList.drop (offset + 1) = bytes)
    (h : ∀ byte rest name, bytes = byte :: rest → chunk.strings.get? byte.toNat = some name →
      Futile (f name) { m with ip := (offset + 1 : Nat) }) : Futile (readString >>= f) m := by
  cases bytes with
  | nil => exact (readByte_futile ip behind nofun).bind
  | cons byte rest =>
      cases named : chunk.strings.get? byte.toNat with
      | none =>
          refine Futile.bind (.after (readByte_eq ip behind)
            ⟨.invalidString byte.toNat, (offset + 1 : Nat), ?_⟩)
          simp only [bind_get, loaded, Option.bind_some, named, throw_eq]
      | some name =>
          exact .after (readString_eq ip loaded behind named) (h byte rest name rfl named)

theorem readConstant_futile {f : Float → Exec α} (ip : m.ip = offset)
    (loaded : m.chunk = some chunk) (behind : m.code.bytes.toList.drop (offset + 1) = bytes)
    (missing : ∀ byte rest, bytes = byte :: rest → chunk.constants.get? byte.toNat = none) :
    Futile (readConstant >>= f) m := by
  refine (readByte_futile ip behind ?_).bind
  intro byte rest same
  refine ⟨.invalidConstant byte.toNat, (offset + 1 : Nat), ?_⟩
  simp only [bind_get, loaded, Option.bind_some, missing byte rest same, throw_eq]

end Reading

variable {m : Machine} {chunk : Chunk} {offset : Nat} {bytes : List UInt8} {op : Opcode}

/-- Where operands are missing, or a pool does not have what they name, an instruction has no
effect. -/
theorem instruction_futile (ip : m.ip = offset) (loaded : m.chunk = some chunk)
    (behind : m.code.bytes.toList.drop (offset + 1) = bytes)
    (h : ∀ operands rest, Code.readOperands op.operands bytes = some (operands, rest) →
      chunk.resolve? op operands = none) : Futile (instruction op) m := by
  cases op with
  | const =>
      refine readConstant_futile ip loaded behind ?_
      rintro byte rest rfl
      exact Option.map_eq_none_iff.mp (h _ _ rfl)
  | str | setGlobal | getGlobal =>
      refine readString_futile ip loaded behind ?_
      rintro byte rest name rfl named
      cases named.symm.trans (Option.map_eq_none_iff.mp (h _ _ rfl))
  | deepSet | deepGet =>
      refine readByte_futile ip behind ?_
      rintro byte rest rfl
      cases h _ _ rfl
  | jmp | jz =>
      refine (readByte_futile ip behind ?_).bind
      rintro high rest rfl
      refine readByte_futile rfl (drop_succ_of_drop behind) ?_
      rintro low rest rfl
      cases h _ _ rfl
  | func =>
      refine readString_futile ip loaded behind ?_
      rintro first rest name rfl named
      have behind := drop_succ_of_drop behind
      refine readByte_futile rfl behind ?_
      rintro second rest rfl
      refine readByte_futile rfl (drop_succ_of_drop behind) ?_
      rintro third rest rfl
      cases named.symm.trans (Option.map_eq_none_iff.mp (h _ _ rfl))
  | invoke =>
      refine readString_futile ip loaded behind ?_
      rintro first rest name rfl named
      refine readByte_futile rfl (drop_succ_of_drop behind) ?_
      rintro second rest rfl
      cases named.symm.trans (Option.map_eq_none_iff.mp (h _ _ rfl))
  | _ => cases h _ _ rfl

end Exec

namespace Machine

/-- Where an address says that a jump at an offset leads, a listing says so too. -/
def Lands (offset : Nat) (op : Opcode) (distance : Int) (after : Machine) : Prop :=
  after.ip = offset + 3 + distance ∧ Listing.meaning offset op [distance] = .target after.ip

/-- How the machine goes on after an instruction at an offset. -/
def Continues (offset : Nat) (m after : Machine) : Instr → Prop
  | .jmp distance => Lands offset .jmp distance after
  | .jz distance =>
    (m.stack.back? = some (.bool true) ∧ after.ip = (offset + Opcode.jz.size : Nat)) ∨
      m.stack.back? = some (.bool false) ∧ Lands offset .jz distance after
  | .invoke name count => ∃ callee kept taken,
    m.globals.find? name = some (.function callee) ∧ after.ip = callee.start ∧
      m.stack.toList = kept ++ taken ∧ taken.length = count ∧
      after.stack.toList = kept ++ .pointer (offset + 2 : Nat) :: taken ∧
      after.frames.toList = m.frames.toList ++ [kept.length + 1]
  | .plain .ret _ => ∃ frame target, m.frames.back? = some frame ∧
    (m.stack.pop.extract 0 frame).back? = some (.pointer target) ∧ after.ip = target + 1 ∧
      ∀ back : Nat, target = (back + 2 : Nat) → after.ip = (back + 3 : Nat)
  | .plain .exit _ => after.halted = true
  | instr => after.ip = (offset + instr.op.size : Nat)

/-- The decoder and the machine agree on what is at an offset. -/
structure AgreesAt (m : Machine) (chunk : Chunk) (offset : Nat) : Prop where
  /-- A step that does not fail performs what is decoded, and goes on accordingly. -/
  performs : ∀ start op operands,
    (m.code.decode offset).entries.head? = some (start, .instruction op operands) →
      ∀ after goesOn, m.step = (after, .ok goesOn) →
        ∃ instr, chunk.resolve? op operands = some instr ∧ instr.op = op ∧
          m.step = finish (Exec.perform instr (m.begun offset instr)) ∧
            Continues offset m after instr
  /-- An incomplete instruction fails and has no effect. -/
  incomplete : m.code.decode offset = ⟨[], true⟩ →
    ∃ fault, m.step.2 = .error fault ∧ m.step.1.stack = m.stack ∧ m.step.1.frames = m.frames ∧
      m.step.1.globals = m.globals
  /-- A byte that is no opcode is reported as such. -/
  unknown : ∀ start byte, (m.code.decode offset).entries.head? = some (start, .unknown byte) →
    m.step.2 = .error (.unknownOpcode byte offset)

variable {m after : Machine} {chunk : Chunk} {offset : Nat} {instr : Instr} {goesOn : Bool}
  {byte : UInt8} {bytes : List UInt8} {op : Opcode}

/-- An instruction that fails while it reads leaves everything but the place as it was. -/
theorem step_futile (running : m.halted = false) (loaded : m.chunk = some chunk)
    (ip : m.ip = offset) (here : m.code.bytes.toList.drop offset = byte :: bytes)
    (found : Opcode.ofByte? byte = some op)
    (h : ∀ operands rest, Code.readOperands op.operands bytes = some (operands, rest) →
      chunk.resolve? op operands = none) :
    ∃ fault ip, m.step = ({ m with offset := m.ip, ip, halted := true }, .error fault) := by
  obtain ⟨fault, last, failed⟩ := Exec.instruction_futile (m := { m with offset := m.ip }) ip loaded
    (Exec.drop_succ_of_drop here) h
  have executed : Exec.execute byte { m with offset := m.ip } =
      .error fault { m with offset := m.ip, ip := last } := by
    simp only [Exec.execute, found]
    exact Exec.bind_of_error failed
  refine ⟨fault, last, ?_⟩
  rw [step, if_neg (by simp [running]), current?_of_drop ip here]
  simp only [executed]

/-- A step that has performed an instruction goes on accordingly. -/
theorem continues_of_step (running : m.halted = false)
    (performs : m.step = finish (Exec.perform instr (m.begun offset instr)))
    (succeeds : m.step = (after, .ok goesOn)) : Continues offset m after instr := by
  obtain ⟨later, performed, -, same⟩ := finish_eq_ok (performs.symm.trans succeeds)
  have ip := begun_ip (m := m) offset instr
  have onward (still : later.halted = m.halted) : after = { later with ip := later.ip + 1 } := by
    rw [same, if_neg (by simp [still, running])]
  have straight (stays : instr.op.switches = false) (noJump : instr.op.isJump = false) :
      after.ip = (offset + instr.op.size : Nat) := by
    have level := Exec.perform_level (m := m.begun offset instr) stays noJump
    rw [performed, Exec.ends_ok] at level
    rw [onward level.halted]
    show later.ip + 1 = _
    rw [level.ip, ip]
  have lands {op : Opcode} {distance : Int} (jump : op = .jmp ∨ op = .jz) (size : instr.op.size = 3)
      (still : later.halted = m.halted) (jumped : later.ip = (m.begun offset instr).ip + distance) :
      Lands offset op distance after := by
    have target : after.ip = offset + 3 + distance := by
      rw [onward still]
      show later.ip + 1 = _
      rw [size] at ip
      omega
    refine ⟨target, ?_⟩
    rw [target]
    rcases jump with rfl | rfl <;> rfl
  cases instr with
  | jmp distance =>
      cases performed
      exact lands (.inl rfl) rfl rfl rfl
  | jz distance =>
      have inCall := @Exec.perform_inCall (m.begun offset (.jz distance)) (.jz distance) rfl
      rw [performed, Exec.ends_ok] at inCall
      obtain ⟨truth, top, jumped⟩ := Exec.perform_jz_ok performed
      cases truth with
      | true =>
          refine .inl ⟨top, ?_⟩
          rw [onward inCall.halted]
          show later.ip + 1 = _
          rw [jumped, if_pos rfl, ip]
          rfl
      | false => exact .inr ⟨top, lands (.inr rfl) rfl inCall.halted jumped⟩
  | invoke name count =>
      obtain ⟨callee, found, -, entered⟩ := Exec.perform_invoke_ok performed
      obtain ⟨kept, taken, stack, length, rfl⟩ := Exec.eq_of_enter entered
      rw [onward rfl]
      exact ⟨callee, kept, taken, found, Int.sub_add_cancel _ _, stack, length, rfl, rfl⟩
  | plain op bare =>
      cases op with
      | ret =>
          obtain ⟨value, frame, target, -, innermost, address, rfl⟩ := Exec.perform_ret_ok performed
          rw [onward rfl]
          refine ⟨frame, target, innermost, address, rfl, ?_⟩
          rintro back rfl
          rfl
      | exit =>
          cases performed
          rw [same]
          rfl
      | const | str | setGlobal | getGlobal | deepSet | deepGet | jmp | jz | func | invoke =>
          cases bare
      | _ => exact straight rfl rfl
  | _ => exact straight rfl rfl

/-- An instruction that stays within its call leads behind itself, or as far beyond as it jumps. -/
theorem Continues.distance (h : Continues offset m after instr)
    (stays : instr.op.switches = false) :
    ∃ distance, after.ip = (offset + instr.op.size : Nat) + distance ∧
      (distance = 0 ∨ instr = .jmp distance ∨ instr = .jz distance) := by
  cases instr with
  | jmp distance => exact ⟨distance, h.1, .inr (.inl rfl)⟩
  | jz distance =>
      rcases h with ⟨-, onward⟩ | ⟨-, target, -⟩
      · exact ⟨0, by rw [onward, Int.add_zero]; rfl, .inl rfl⟩
      · exact ⟨distance, target, .inr (.inr rfl)⟩
  | invoke name count => cases stays
  | plain op bare =>
      cases op with
      | ret | exit => cases stays
      | const | str | setGlobal | getGlobal | deepSet | deepGet | jmp | jz | func | invoke =>
          cases bare
      | _ => exact ⟨0, by rw [Int.add_zero]; exact h, .inl rfl⟩
  | _ => exact ⟨0, by rw [Int.add_zero]; exact h, .inl rfl⟩

/-- Whatever the code, the pools and the state are: what the decoder finds where the machine is, is
what a step performs. -/
theorem agreesAt_ip (running : m.halted = false) (loaded : m.chunk = some chunk)
    (ip : m.ip = offset) : m.AgreesAt chunk offset where
  performs := by
    intro start op operands decoded after goesOn succeeds
    obtain ⟨byte, bytes, rest, here, read⟩ := Code.read_of_decode decoded
    obtain ⟨found, operandsRead⟩ := Code.readEntry_instruction read
    cases resolved : chunk.resolve? op operands with
    | none =>
        obtain ⟨fault, last, failed⟩ := step_futile running loaded ip here found (by
          rintro others rest' same
          rw [operandsRead] at same
          cases same
          exact resolved)
        cases (Prod.mk.inj (failed.symm.trans succeeds)).2
    | some instr =>
        obtain ⟨rfl, finds⟩ := Chunk.finds_of_resolve? operandsRead resolved
        obtain ⟨fits, shown⟩ := Code.instructionBytes_of_readEntry read
        have performs := step_of_shown running loaded ip finds fits ⟨rest, shown.trans here.symm⟩
        exact ⟨instr, rfl, rfl, performs, continues_of_step running performs succeeds⟩
  incomplete := by
    intro broken
    obtain ⟨byte, bytes, op, here, found, missing⟩ := Code.incomplete_of_decode broken
    obtain ⟨fault, last, failed⟩ := step_futile running loaded ip here found (by simp [missing])
    rw [failed]
    exact ⟨fault, rfl, rfl, rfl, rfl⟩
  unknown := by
    intro start byte decoded
    obtain ⟨first, bytes, rest, here, read⟩ := Code.read_of_decode decoded
    obtain ⟨rfl, missing⟩ := Code.readEntry_unknown read
    rw [step, if_neg (by simp [running]), current?_of_drop ip here]
    simp only [Exec.execute, missing, Exec.bind_get, Exec.bind_throw, ip]

/-- A jump back to itself. -/
theorem agreesAt_ip_jump :
    ((Machine.new 4 4).load { Chunk.empty 4 with code := ⟨#[22, 255, 253]⟩ }).AgreesAt
      { Chunk.empty 4 with code := ⟨#[22, 255, 253]⟩ } 0 :=
  agreesAt_ip rfl rfl rfl

end Machine

end StackScript
