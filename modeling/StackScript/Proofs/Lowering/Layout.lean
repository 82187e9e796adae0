/-
# The layout of code

What decoding finds in a chunk that was made by adding statements. The code is
complete, every operand means something, jumps lead to instructions and stay in
the statement that they belong to, and what concerns a call or its variables is
only found in the body of a function.
-/

import Mathlib.Data.List.Forall2
import StackScript.Proofs.Draft.Bodies
import StackScript.Proofs.Draft.Marks
import StackScript.Proofs.Lowering.History

namespace StackScript

open Line (extent placed located)

namespace Chunk

variable {chunk : Chunk} {lines : List Line} {line : Line} {offset : Nat}

/-- Decoding finds an entry at an offset. -/
def Lists (chunk : Chunk) (offset : Nat) : Prop :=
  ∃ entry, (offset, entry) ∈ (chunk.code.decode 0).entries

/-- Decoding finds this instruction at an offset. -/
def Has (chunk : Chunk) (offset : Nat) (op : Opcode) (operands : List Int) : Prop :=
  (offset, .instruction op operands) ∈ (chunk.code.decode 0).entries

/-- An entry is the instruction of a line. -/
def Denotes (chunk : Chunk) (line : Line) (entry : Code.Entry) : Prop :=
  ∃ operands, entry = .instruction line.instr.op operands ∧ chunk.Resolves line.instr operands

/-- Decoding finds the lines that are shown to the end of the code, in their order and nothing
else. -/
theorem decode_shown (shown : ∀ p ∈ placed offset lines, chunk.Shows p.1 p.2)
    (length : chunk.size = offset + extent lines) :
    (chunk.code.decode offset).truncated = false ∧
      List.Forall₂ (fun p entry => p.1 = entry.1 ∧ chunk.Denotes p.2 entry.2)
        (placed offset lines) (chunk.code.decode offset).entries := by
  unfold Code.decode
  induction lines generalizing offset with
  | nil =>
      have none_left : chunk.code.bytes.toList.drop offset = [] := by
        rw [List.drop_eq_nil_iff]
        simp [size, Code.size] at length
        simp [length]
      rw [none_left, Code.decodeBytes]
      exact ⟨rfl, .nil⟩
  | cons line lines ih =>
      obtain ⟨operands, resolves, fits, rest, same⟩ := shown (offset, line) List.mem_cons_self
      have behind : rest = chunk.code.bytes.toList.drop (offset + line.size) := by
        rw [← List.drop_drop, ← same, Line.size, ← Code.length_instructionBytes fits]
        simp
      have later := @ih (offset + line.size)
        (fun p mem => shown p (List.mem_cons_of_mem _ mem))
        (by rw [length, Line.extent_cons, Nat.add_assoc])
      rw [← behind] at later
      rw [← same, Code.decodeBytes_instructionBytes fits]
      exact ⟨later.1, .cons ⟨rfl, operands, rfl, resolves⟩ later.2⟩

/-- What is in one of two lists that correspond has its counterpart in the other. -/
theorem exists_counterpart {α β : Type} {R : α → β → Prop} {items : List α} {others : List β}
    (h : List.Forall₂ R items others) {item : α} (mem : item ∈ items) :
    ∃ other ∈ others, R item other := by
  induction h with
  | nil => cases mem
  | cons related _ ih =>
      rcases List.mem_cons.mp mem with rfl | mem
      · exact ⟨_, List.mem_cons_self, related⟩
      · obtain ⟨other, mem', related'⟩ := ih mem
        exact ⟨other, List.mem_cons_of_mem _ mem', related'⟩

namespace Assembled

theorem decode_eq (h : chunk.Assembled lines) :
    (chunk.code.decode 0).truncated = false ∧
      List.Forall₂ (fun p entry => p.1 = entry.1 ∧ chunk.Denotes p.2 entry.2) (placed 0 lines)
        (chunk.code.decode 0).entries :=
  decode_shown h.shown (by simpa using h.size_eq)

theorem complete (h : chunk.Assembled lines) : (chunk.code.decode 0).truncated = false :=
  h.decode_eq.1

/-- What decoding finds is the instruction of a line. -/
theorem line_of_mem (h : chunk.Assembled lines) {entry : Code.Entry}
    (mem : (offset, entry) ∈ (chunk.code.decode 0).entries) :
    ∃ line, (offset, line) ∈ placed 0 lines ∧ chunk.Denotes line entry := by
  obtain ⟨⟨start, line⟩, found, same, denotes⟩ := exists_counterpart h.decode_eq.2.flip mem
  obtain rfl : start = offset := same
  exact ⟨line, found, denotes⟩

/-- The instruction of a line is found. -/
theorem mem_of_line (h : chunk.Assembled lines) (mem : (offset, line) ∈ placed 0 lines) :
    ∃ operands, chunk.Has offset line.instr.op operands ∧ chunk.Resolves line.instr operands := by
  obtain ⟨⟨start, entry⟩, found, same, operands, rfl, resolves⟩ :=
    exists_counterpart h.decode_eq.2 mem
  obtain rfl : offset = start := same
  exact ⟨operands, found, resolves⟩

theorem lists_iff (h : chunk.Assembled lines) :
    chunk.Lists offset ↔ ∃ line, (offset, line) ∈ placed 0 lines := by
  constructor
  · rintro ⟨entry, mem⟩
    obtain ⟨line, found, -⟩ := h.line_of_mem mem
    exact ⟨line, found⟩
  · rintro ⟨line, mem⟩
    obtain ⟨operands, found, -⟩ := h.mem_of_line mem
    exact ⟨_, found⟩

theorem line_of_has (h : chunk.Assembled lines) {op : Opcode} {operands : List Int}
    (found : chunk.Has offset op operands) :
    ∃ line, (offset, line) ∈ placed 0 lines ∧ line.instr.op = op ∧
      chunk.Resolves line.instr operands := by
  obtain ⟨line, mem, operands', same, resolves⟩ := h.line_of_mem found
  obtain ⟨rfl, rfl⟩ := Code.Entry.instruction.inj same
  exact ⟨line, mem, rfl, resolves⟩

end Assembled

/-- A definition at an offset, and where the body of the function ends: the
body starts behind the jump around it. -/
def HasBody (chunk : Chunk) (offset stop : Nat) : Prop :=
  (∃ id arity : Nat, chunk.Has offset .func [(id : Int), (arity : Int), (offset + 7 : Nat)]) ∧
    chunk.Has (offset + 4) .jmp [(stop : Int) - (offset + 7 : Nat)]

/-- What is guaranteed about the code of a chunk, given the ranges of the
statements that it was made from. -/
structure WellFormed (chunk : Chunk) (ranges : List (Nat × Nat)) : Prop where
  complete : (chunk.code.decode 0).truncated = false
  known : ∀ offset byte, (offset, Code.Entry.unknown byte) ∉ (chunk.code.decode 0).entries
  located : ∀ offset : Int, (chunk.locate offset).isSome ↔
    ∃ start : Nat, offset = start ∧ chunk.Lists start
  constants : ∀ offset operands, chunk.Has offset .const operands →
    ∃ id : Nat, operands = [(id : Int)] ∧ id < chunk.constants.size
  strings : ∀ offset op operands, op ∈ [.str, .setGlobal, .getGlobal, .func, .invoke] →
    chunk.Has offset op operands →
      ∃ (id : Nat) (others : List Int), operands = (id : Int) :: others ∧ id < chunk.strings.size
  jumps : ∀ offset op operands, op.isJump → chunk.Has offset op operands →
    ∃ (distance : Int) (target : Nat), operands = [distance] ∧ distance ≠ Lower.unknownDistance ∧
      (target : Int) = offset + 3 + distance ∧ (chunk.Lists target ∨ target = chunk.size) ∧
      ∃ range ∈ ranges, range.1 ≤ offset ∧ offset + 3 ≤ range.2 ∧
        range.1 ≤ target ∧ target ≤ range.2
  functions : ∀ offset operands, chunk.Has offset .func operands →
    ∃ (id arity : Nat) (stop : Nat), operands = [(id : Int), (arity : Int), (offset + 7 : Nat)] ∧
      chunk.HasBody offset stop
  locals : ∀ offset op operands, op ∈ [.deepGet, .deepSet, .ret] → chunk.Has offset op operands →
    ∃ definition stop, chunk.HasBody definition stop ∧ definition + 7 ≤ offset ∧ offset < stop
  bodies : ∀ definition stop, chunk.HasBody definition stop →
    definition + 7 < stop ∧ stop ≤ chunk.size ∧ chunk.Has (stop - 1) .ret [] ∧
      ∀ offset op operands, definition + 7 ≤ offset → offset < stop → op.isJump →
        chunk.Has offset op operands →
          ∃ target : Nat, operands = [(target : Int) - (offset + 3 : Nat)] ∧
            chunk.Lists target ∧ definition + 7 ≤ target ∧ target < stop

end Chunk

/-- A part of some lines, with the offset that it starts at. -/
def Line.Part (start : Nat) (lines : List Line) (offset : Nat) (part : List Line) : Prop :=
  ∃ front back, lines = front ++ (part ++ back) ∧ offset = start + extent front

theorem Line.Part.mem {start offset : Nat} {lines part : List Line}
    (h : Part start lines offset part) {p : Nat × Line} (mem : p ∈ placed offset part) :
    p ∈ placed start lines := by
  obtain ⟨front, back, rfl, rfl⟩ := h
  simp [mem]

/-- Behind a part there is another line, or nothing. -/
theorem Line.Part.behind {start offset : Nat} {lines part : List Line}
    (h : Part start lines offset part) :
    (∃ line, (offset + extent part, line) ∈ placed start lines) ∨
      offset + extent part = start + extent lines := by
  obtain ⟨front, back, rfl, rfl⟩ := h
  cases back with
  | nil => exact .inr (by simp [Nat.add_assoc])
  | cons line back => exact .inl ⟨line, by simp⟩

/-- A line that starts within a part belongs to it. -/
theorem Line.Part.mem_of_bounds {start offset : Nat} {lines part : List Line}
    (h : Part start lines offset part) {p : Nat × Line} (mem : p ∈ placed start lines)
    (low : offset ≤ p.1) (high : p.1 < offset + extent part) : p ∈ placed offset part := by
  obtain ⟨front, back, rfl, rfl⟩ := h
  rw [Line.placed_append, Line.placed_append, List.mem_append, List.mem_append] at mem
  have := p.2.size_pos
  rcases mem with mem | mem | mem
  · have := (Line.bounds_of_mem_placed mem).2
    omega
  · exact mem
  · have := (Line.bounds_of_mem_placed mem).1
    omega

/-- Every line belongs to one of the statements. -/
theorem statement_of_mem {start : Nat} {body : List Stmt} {p : Nat × Line}
    (legal : listLegal false body) (mem : p ∈ placed start (listCode start .top body)) :
    ∃ (offset : Nat) (st : Stmt), p ∈ placed offset (st.code offset .top) ∧ st.Legal false ∧
      (offset, offset + extent (st.code offset .top)) ∈ Chunk.rangesOf start body ∧
      Line.Part start (listCode start .top body) offset (st.code offset .top) := by
  induction body generalizing start with
  | nil => simp [listCode] at mem
  | cons first rest ih =>
      rw [listCode, Context.after_top, Line.placed_append, List.mem_append] at mem
      rcases mem with mem | mem
      · exact ⟨start, first, mem, legal.1, List.mem_cons_self, [], _, rfl, rfl⟩
      · obtain ⟨offset, st, found, fine, range, front, back, same, rfl⟩ := ih legal.2 mem
        refine ⟨_, st, found, fine, List.mem_cons_of_mem _ range,
          first.code start .top ++ front, back, ?_, by simp [Nat.add_assoc]⟩
        rw [listCode, Context.after_top, same, List.append_assoc]

/-- The marks that hold in a statement: those of its lines, and the mark behind it. -/
def Stmt.Reaches (offset : Nat) (st : Stmt) (target : Nat) (mark : Mark) : Prop :=
  (∃ line, (target, line) ∈ placed offset (st.code offset .top) ∧ line.mark = mark) ∨
    target = offset + extent (st.code offset .top) ∧ mark = Context.top.mark 0

theorem Stmt.checked {offset : Nat} {st : Stmt} (legal : st.Legal false) {p : Nat × Line}
    (mem : p ∈ placed offset (st.code offset .top)) :
    p.2.Checked (st.Reaches offset) p.1 := by
  have carried : Line.Carries (st.Reaches offset) offset _ _ _ :=
    st.carries Context.fair_top offset legal
  refine (carried ?_ ?_).2 p mem
  · intro q mem
    exact .inl ⟨q.2, mem, rfl⟩
  · exact .inr ⟨rfl, by rw [Context.after_top]⟩

/-- Jumps keep to the function that they belong to. -/
theorem Stmt.jump_reaches {offset : Nat} {st : Stmt} (legal : st.Legal false) {p : Nat × Line}
    (mem : p ∈ placed offset (st.code offset .top)) {distance : Int}
    (isJump : p.2.instr = .jmp distance ∨ p.2.instr = .jz distance) :
    ∃ target : Nat, (target : Int) = p.1 + 3 + distance ∧
      ∃ height, st.Reaches offset target ⟨p.2.mark.home, height⟩ := by
  have checked := (Stmt.checked legal mem).2
  rcases isJump with same | same
  · simp only [same] at checked
    obtain ⟨target, lands, reached⟩ := checked
    refine ⟨target, ?_, _, reached⟩
    simp only [lands, Line.size, same, Instr.op, Opcode.size, Opcode.operands,
      OperandKind.widths, OperandKind.width]
    omega
  · simp only [same] at checked
    obtain ⟨-, target, lands, reached⟩ := checked
    refine ⟨target, ?_, _, reached⟩
    simp only [lands, Line.size, same, Instr.op, Opcode.size, Opcode.operands,
      OperandKind.widths, OperandKind.width]
    omega

theorem Opcode.size_func : Opcode.func.size = 4 := rfl

theorem Opcode.size_jmp : Opcode.jmp.size = 3 := rfl

theorem Instr.eq_of_isJump {instr : Instr} (h : instr.op.isJump) :
    ∃ distance, (instr = .jmp distance ∨ instr = .jz distance) ∧ instr.op.size = 3 := by
  cases instr with
  | jmp distance => exact ⟨distance, .inl rfl, rfl⟩
  | jz distance => exact ⟨distance, .inr rfl, rfl⟩
  | plain op bare => cases op <;> first | nomatch (show Bool.false = true from h) | nomatch bare
  | _ => cases h

namespace Chunk.Assembled

variable {chunk : Chunk} {body : List Stmt}

/-- Where a statement defines a function, decoding finds its body. -/
theorem hasBody_of_defines {lines : List Line} (h : chunk.Assembled lines) {start offset : Nat}
    {code inner : List Line} (part : Line.Part 0 lines start code)
    (defines : Line.Defines start code offset inner) :
    chunk.HasBody offset (offset + 7 + extent inner) := by
  obtain ⟨head, name, arity, headMem, isFunc⟩ := defines.head
  obtain ⟨skip, skipMem, isJmp⟩ := defines.skip
  obtain ⟨operands, found, resolves⟩ := h.mem_of_line (part.mem headMem)
  obtain ⟨operands', found', resolves'⟩ := h.mem_of_line (part.mem skipMem)
  rw [isFunc] at found resolves
  rw [isJmp] at found' resolves'
  obtain ⟨id, rfl, -⟩ := resolves
  obtain rfl : operands' = [(extent inner : Int)] := resolves'
  refine ⟨⟨id, arity, found⟩, ?_⟩
  have same : ((offset + 7 + extent inner : Nat) : Int) - (offset + 7 : Nat) = extent inner := by
    omega
  rw [same]
  exact found'

/-- Where decoding finds a body, a statement defines a function. -/
theorem defines_of_hasBody (legal : listLegal false body)
    (h : chunk.Assembled (listCode 0 .top body)) {offset stop : Nat}
    (found : chunk.HasBody offset stop) :
    ∃ (start : Nat) (st : Stmt) (inner : List Line), st.Legal false ∧
      Line.Part 0 (listCode 0 .top body) start (st.code start .top) ∧
      Line.Defines start (st.code start .top) offset inner ∧
      stop = offset + 7 + extent inner := by
  obtain ⟨⟨id, arity, func⟩, jmp⟩ := found
  obtain ⟨line, mem, isFunc, -⟩ := h.line_of_has func
  obtain ⟨start, st, within, fine, -, part⟩ := statement_of_mem legal mem
  have settled := (st.homed start .top fine).outside rfl _ within
  have notInner {definition : Nat} {inner : List Line}
      (defines : Line.Defines start (st.code start .top) definition inner) :
      ¬ (offset, line) ∈ placed (definition + Opcode.func.size + Opcode.jmp.size) inner :=
    fun mem' => (defines.uniform _ (Line.mem_of_mem_placed mem')).2 isFunc
  rcases settled with ⟨-, defined⟩ | ⟨definition, inner, defines, mem'⟩
  · obtain ⟨inner, defines⟩ := defined isFunc
    refine ⟨start, st, inner, fine, part, defines, ?_⟩
    obtain ⟨skip, skipMem, isJmp⟩ := defines.skip
    obtain ⟨skip', skipMem', -, resolves⟩ := h.line_of_has jmp
    obtain rfl := Line.placed_unique (part.mem skipMem) skipMem'
    rw [isJmp] at resolves
    have same := (List.cons.inj (show [(stop : Int) - (offset + 7 : Nat)] = [_] from resolves)).1
    omega
  · exact absurd mem' (notInner defines)

/-- Where a line belongs to a function, its body is around the line. -/
theorem body_of_home {start : Nat} {st : Stmt} (legal : st.Legal false) {p : Nat × Line}
    {home : Nat} (mem : p ∈ placed start (st.code start .top)) (inside : p.2.mark.home = some home) :
    ∃ definition inner, Line.Defines start (st.code start .top) definition inner ∧
      home = definition + 7 ∧ definition + 7 ≤ p.1 ∧ p.1 < definition + 7 + extent inner := by
  rcases (st.homed start .top legal).outside rfl p mem with
    ⟨⟨outside, -⟩, -⟩ | ⟨definition, inner, defines, within⟩
  · rw [outside] at inside
    cases inside
  · have belongs := (defines.uniform _ (Line.mem_of_mem_placed within)).1.1
    rw [belongs] at inside
    have bounds := Line.bounds_of_mem_placed within
    have := p.2.size_pos
    rw [Opcode.size_func, Opcode.size_jmp] at bounds inside
    have := Option.some.inj inside
    exact ⟨definition, inner, defines, by omega, by omega, by omega⟩

/-- A jump has one operand, and leads to an instruction of the same statement or
to its end. -/
theorem jumps (legal : listLegal false body) (h : chunk.Assembled (listCode 0 .top body))
    {offset : Nat} {op : Opcode} {operands : List Int} (isJump : op.isJump)
    (found : chunk.Has offset op operands) :
    ∃ (distance : Int) (target : Nat), operands = [distance] ∧
      distance ≠ Lower.unknownDistance ∧ (target : Int) = offset + 3 + distance ∧
      (chunk.Lists target ∨ target = chunk.size) ∧
      ∃ range ∈ rangesOf 0 body, range.1 ≤ offset ∧ offset + 3 ≤ range.2 ∧
        range.1 ≤ target ∧ target ≤ range.2 := by
  obtain ⟨line, mem, rfl, resolves⟩ := h.line_of_has found
  obtain ⟨distance, same, size⟩ := Instr.eq_of_isJump isJump
  obtain ⟨start, st, within, fine, range, part⟩ := statement_of_mem legal mem
  obtain ⟨target, lands, height, reached⟩ := Stmt.jump_reaches fine within same
  have operand : operands = [distance] := by
    rcases same with same | same <;> exact (same ▸ resolves :)
  have bounds := Line.bounds_of_mem_placed within
  rw [Line.size, size] at bounds
  have whole := Line.bounds_of_mem_placed mem
  rw [Line.size, size] at whole
  refine ⟨distance, target, operand, ?_, lands, ?_, _, range, bounds.1, bounds.2, ?_⟩
  · rintro rfl
    -- A jump without a target would lead into itself.
    have inside : target = offset + 2 := by
      rw [Lower.unknownDistance] at lands
      omega
    rcases reached with ⟨other, otherMem, -⟩ | ⟨last, -⟩
    · have apart := Line.placed_apart within otherMem (by omega)
      rw [Line.size, size] at apart
      omega
    · omega
  · rcases reached with ⟨other, otherMem, -⟩ | ⟨last, -⟩
    · exact .inl (h.lists_iff.mpr ⟨other, part.mem otherMem⟩)
    · rw [last]
      rcases part.behind with listed | stop
      · exact .inl (h.lists_iff.mpr listed)
      · exact .inr (by rw [stop, Nat.zero_add, h.size_eq])
  · rcases reached with ⟨other, otherMem, -⟩ | ⟨last, -⟩
    · have := Line.bounds_of_mem_placed otherMem
      exact ⟨this.1, by omega⟩
    · exact ⟨by omega, by omega⟩

/-- What is needed to run code only in a call is found only in bodies. -/
theorem locals (legal : listLegal false body) (h : chunk.Assembled (listCode 0 .top body))
    {offset : Nat} {op : Opcode} {operands : List Int} (local_op : op ∈ [.deepGet, .deepSet, .ret])
    (found : chunk.Has offset op operands) :
    ∃ definition stop, chunk.HasBody definition stop ∧ definition + 7 ≤ offset ∧
      offset < stop := by
  obtain ⟨line, mem, rfl, -⟩ := h.line_of_has found
  obtain ⟨start, st, within, fine, -, part⟩ := statement_of_mem legal mem
  have inside : line.mark.home.isSome := by
    have checked := (Stmt.checked fine within).2
    cases same : line.instr with
    | deepGet slot =>
        simp only [same] at checked
        exact checked.1
    | deepSet slot =>
        simp only [same] at checked
        exact checked.1
    | plain op bare =>
        simp only [same, Instr.op, List.mem_cons, List.not_mem_nil, or_false] at local_op
        rcases local_op with rfl | rfl | rfl
        · cases bare
        · cases bare
        · simp only [same] at checked
          exact checked
    | _ => simp [same, Instr.op] at local_op
  obtain ⟨home, same⟩ := Option.isSome_iff_exists.mp inside
  obtain ⟨definition, inner, defines, -, low, high⟩ := body_of_home fine within same
  exact ⟨definition, _, h.hasBody_of_defines part defines, low, high⟩

/-- A body ends with a return, and jumps in it stay in it. -/
theorem bodies (legal : listLegal false body) (h : chunk.Assembled (listCode 0 .top body))
    {definition stop : Nat} (found : chunk.HasBody definition stop) :
    definition + 7 < stop ∧ stop ≤ chunk.size ∧ chunk.Has (stop - 1) .ret [] ∧
      ∀ offset op operands, definition + 7 ≤ offset → offset < stop → op.isJump →
        chunk.Has offset op operands →
          ∃ target : Nat, operands = [(target : Int) - (offset + 3 : Nat)] ∧
            chunk.Lists target ∧ definition + 7 ≤ target ∧ target < stop := by
  obtain ⟨start, st, inner, fine, part, defines, rfl⟩ := h.defines_of_hasBody legal found
  obtain ⟨main, last, bare, same, isRet⟩ := defines.returns
  have lastSize : last.size = 1 := by
    rw [Line.size, isRet]
    rfl
  have stopped : extent inner = extent main + 1 := by simp [same, lastSize]
  have lastMem : (definition + 7 + extent main, last) ∈
      placed start (st.code start .top) := by
    refine defines.mem_placed ?_
    rw [same, Line.placed_append]
    exact List.mem_append_right _ List.mem_cons_self
  refine ⟨by omega, ?_, ?_, ?_⟩
  · have := (Line.bounds_of_mem_placed (part.mem lastMem)).2
    rw [h.size_eq]
    omega
  · obtain ⟨operands, has, resolves⟩ := h.mem_of_line (part.mem lastMem)
    rw [isRet] at has resolves
    obtain rfl : operands = [] := resolves
    have position : definition + 7 + extent inner - 1 = definition + 7 + extent main := by omega
    rw [position]
    exact has
  · intro offset op operands low high isJump has
    obtain ⟨line, mem, rfl, resolves⟩ := h.line_of_has has
    obtain ⟨distance, sameJump, size⟩ := Instr.eq_of_isJump isJump
    have bounds := Line.bounds_of_mem_placed lastMem
    have firstBound : start ≤ definition := by
      obtain ⟨head, name, arity, headMem, -⟩ := defines.head
      exact (Line.bounds_of_mem_placed headMem).1
    have within := part.mem_of_bounds mem (by omega) (by simp only; omega)
    have inBody := defines.mem_inner within low high
    have home := (defines.uniform _ (Line.mem_of_mem_placed inBody)).1.1
    obtain ⟨target, lands, height, reached⟩ := Stmt.jump_reaches fine within sameJump
    rw [home] at reached
    rcases reached with ⟨other, otherMem, mark⟩ | ⟨-, mark⟩
    · obtain ⟨definition', inner', defines', same', low', high'⟩ :=
        body_of_home fine otherMem (by rw [mark])
      rw [Opcode.size_func, Opcode.size_jmp] at same'
      obtain rfl : definition = definition' := by omega
      have := defines.extent_unique defines'
      refine ⟨target, ?_, h.lists_iff.mpr ⟨other, part.mem otherMem⟩, low', by omega⟩
      have operand : operands = [distance] := by
        rcases sameJump with same | same <;> exact (same ▸ resolves :)
      rw [operand]
      simp only [List.cons.injEq, and_true]
      omega
    · cases mark

/-- Instructions that name a string have its identifier for their first operand. -/
theorem names_string {instr : Instr} {operands : List Int}
    (named : instr.op ∈ [.str, .setGlobal, .getGlobal, .func, .invoke])
    (resolves : chunk.Resolves instr operands) :
    ∃ (id : Nat) (others : List Int), operands = (id : Int) :: others ∧
      id < chunk.strings.size := by
  cases instr with
  | str | setGlobal | getGlobal | func | invoke =>
      obtain ⟨id, rfl, found⟩ := resolves
      exact ⟨id, _, rfl, Pool.lt_size_of_get? found⟩
  | plain op bare =>
      simp only [Instr.op, List.mem_cons, List.not_mem_nil, or_false] at named
      rcases named with rfl | rfl | rfl | rfl | rfl <;> cases bare
  | _ => simp [Instr.op] at named

theorem names_constant {instr : Instr} {operands : List Int} (named : instr.op = .const)
    (resolves : chunk.Resolves instr operands) :
    ∃ id : Nat, operands = [(id : Int)] ∧ id < chunk.constants.size := by
  cases instr with
  | const value =>
      obtain ⟨id, entry, rfl, found, -⟩ := resolves
      exact ⟨id, rfl, Pool.lt_size_of_get? found⟩
  | plain op bare =>
      obtain rfl : op = .const := named
      cases bare
  | _ => cases named

/-- Every line of a statement was made for some place. -/
theorem place_isSome (legal : listLegal false body) {p : Nat × Line}
    (mem : p ∈ placed 0 (listCode 0 .top body)) : p.2.place.isSome := by
  obtain ⟨start, st, within, fine, -, -⟩ := statement_of_mem legal mem
  rcases (st.homed start .top fine).outside rfl p within with
    ⟨⟨-, placed⟩, -⟩ | ⟨definition, inner, defines, mem'⟩
  · exact placed
  · exact (defines.uniform _ (Line.mem_of_mem_placed mem')).1.2

/-- An instruction that was made for a place is found there. -/
theorem locate_isSome {lines : List Line} {offset : Nat} {line : Line} (h : chunk.Assembled lines)
    (mem : (offset, line) ∈ placed 0 lines) (known : line.place.isSome) :
    (chunk.locate offset).isSome := by
  obtain ⟨place, found⟩ := Option.isSome_iff_exists.mp known
  rw [locate, Option.isSome_map, List.find?_isSome]
  refine ⟨(offset, place), ?_, beq_self_eq_true _⟩
  rw [h.places, List.mem_reverse, Line.mem_located]
  exact ⟨line, mem, found⟩

/-- The offsets with a place are those of the instructions. -/
theorem located_iff (legal : listLegal false body) (h : chunk.Assembled (listCode 0 .top body))
    (offset : Int) :
    (chunk.locate offset).isSome ↔ ∃ start : Nat, offset = start ∧ chunk.Lists start := by
  constructor
  · rw [locate, Option.isSome_map, List.find?_isSome]
    rintro ⟨⟨start, place⟩, mem, same⟩
    rw [h.places, List.mem_reverse, Line.mem_located] at mem
    obtain ⟨line, mem, -⟩ := mem
    exact ⟨start, (eq_of_beq same).symm, h.lists_iff.mpr ⟨line, mem⟩⟩
  · rintro ⟨start, rfl, listed⟩
    obtain ⟨line, mem⟩ := h.lists_iff.mp listed
    exact h.locate_isSome mem (place_isSome legal mem)

/-- A definition says where the body of the function starts. -/
theorem functions (legal : listLegal false body) (h : chunk.Assembled (listCode 0 .top body))
    {offset : Nat} {operands : List Int} (found : chunk.Has offset .func operands) :
    ∃ id arity stop : Nat, operands = [(id : Int), (arity : Int), (offset + 7 : Nat)] ∧
      chunk.HasBody offset stop := by
  obtain ⟨line, mem, isFunc, resolves⟩ := h.line_of_has found
  obtain ⟨start, st, within, fine, -, part⟩ := statement_of_mem legal mem
  rcases (st.homed start .top fine).outside rfl _ within with
    ⟨-, defined⟩ | ⟨definition, inner, defines, mem'⟩
  · obtain ⟨inner, defines⟩ := defined isFunc
    obtain ⟨head, name, arity, headMem, same⟩ := defines.head
    obtain rfl := Line.placed_unique within headMem
    rw [same] at resolves
    obtain ⟨id, rfl, -⟩ := resolves
    exact ⟨id, arity, _, rfl, h.hasBody_of_defines part defines⟩
  · exact absurd isFunc (defines.uniform _ (Line.mem_of_mem_placed mem')).2

/-- The code of a chunk that is the draft of statements is well formed. -/
theorem wellFormed (legal : listLegal false body)
    (h : chunk.Assembled (listCode 0 .top body)) : chunk.WellFormed (rangesOf 0 body) where
  complete := h.complete
  known := by
    intro offset byte mem
    obtain ⟨line, -, operands, same, -⟩ := h.line_of_mem mem
    cases same
  located := h.located_iff legal
  constants := by
    intro offset operands found
    obtain ⟨line, -, named, resolves⟩ := h.line_of_has found
    exact names_constant named resolves
  strings := by
    intro offset op operands named found
    obtain ⟨line, -, rfl, resolves⟩ := h.line_of_has found
    exact names_string named resolves
  jumps := fun offset op operands isJump found => h.jumps legal isJump found
  functions := fun offset operands found => h.functions legal found
  locals := fun offset op operands local_op found => h.locals legal local_op found
  bodies := fun definition stop found => h.bodies legal found

end Chunk.Assembled

/-- Whatever statements are added to an empty chunk, refused ones included, its
code is well formed. -/
theorem Chunk.Built.code_wellFormed {poolSize : Nat} {chunk : Chunk} {ranges : List (Nat × Nat)}
    (small : poolSize ≤ Chunk.maxPoolSize) (built : Chunk.Built poolSize chunk ranges) :
    chunk.WellFormed ranges := by
  obtain ⟨body, legal, assembled, rfl⟩ := built.assembled small
  exact assembled.wellFormed legal

/-- A function that returns its argument. -/
def Stmt.identity : Stmt :=
  .function default "same" [⟨default, "x"⟩] default [.ret default (some (.reference default "x"))]

/-- A definition after a statement that is refused, for it returns from nowhere. -/
theorem Chunk.code_wellFormed_identity :
    ∃ first second : Chunk,
      (empty 256).addStatement 10 (.ret default none) =
        (first, .error (.refused ⟨some default, .returnOutsideFunction⟩)) ∧
      first.addStatement 10 .identity = (second, .ok 10) ∧ second.WellFormed [(0, 10)] := by
  have refused : (empty 256).addStatement 10 (.ret default none) =
      (empty 256, .error (.refused ⟨some default, .returnOutsideFunction⟩)) := rfl
  have accepted : (empty 256).addStatement 10 .identity =
      (((empty 256).addStatement 10 .identity).1, .ok 10) := eq_ok_of_bytes (by decide +kernel)
  have stop : ((empty 256).addStatement 10 .identity).1.size = 10 := by decide +kernel
  have formed := Built.code_wellFormed (by decide) (.accepted (.refused .empty refused) accepted)
  rw [stop] at formed
  exact ⟨_, _, refused, accepted, formed⟩

end StackScript
