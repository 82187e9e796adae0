/-
# Programs without loops

A program without loops always comes to an end. A call leads back to the body of a function, so that
the instruction pointer alone does not tell how far the program has got. It does so together with
the return addresses: within a call the program only gets on, and the caller has less to do once a
call was made, and still less once it has returned. As there are only so many frames, what is left
to do in each call is one digit of a number, and this number gets smaller with every step.
-/

import Mathlib.Algebra.Group.Nat.Defs
import StackScript.Proofs.Draft.Forward
import StackScript.Proofs.Machine.Pending

namespace StackScript

open Line (AllForward)

section Weight

/-- The number that has these digits, the most significant of which comes first, where there is room
for so many. Missing digits count as zero. -/
def weight (base : Nat) : Nat → List Nat → Nat
  | room + 1, digit :: digits => digit * base ^ room + weight base room digits
  | _, _ => 0

variable {base room : Nat} {digits front rest more : List Nat} {low high : Nat}

theorem mul_add_lt_mul {place small : Nat} (less : low < high) (fits : small < place) :
    low * place + small < high * place :=
  calc low * place + small
      < low * place + place := Nat.add_lt_add_left fits _
    _ = (low + 1) * place := (Nat.succ_mul _ _).symm
    _ ≤ high * place := Nat.mul_le_mul_right _ less

theorem weight_lt (positive : 0 < base) (small : ∀ digit ∈ digits, digit < base) :
    weight base room digits < base ^ room := by
  induction digits generalizing room with
  | nil => cases room <;> exact Nat.pow_pos positive
  | cons digit digits ih =>
      cases room with
      | zero => exact Nat.one_pos
      | succ room =>
          rw [List.forall_mem_cons] at small
          rw [weight, Nat.pow_succ']
          exact mul_add_lt_mul small.1 (ih small.2)

/-- The first digit that is different decides, whatever comes behind it. -/
theorem weight_lt_weight (positive : 0 < base) (less : low < high) (fits : front.length < room)
    (small : ∀ digit ∈ rest, digit < base) :
    weight base room (front ++ low :: rest) < weight base room (front ++ high :: more) := by
  induction front generalizing room with
  | nil =>
      cases room with
      | zero => exact absurd fits (Nat.not_lt_zero _)
      | succ room =>
          exact Nat.lt_of_lt_of_le (mul_add_lt_mul less (weight_lt positive small))
            (Nat.le_add_right _ _)
  | cons digit front ih =>
      cases room with
      | zero => exact absurd fits (Nat.not_lt_zero _)
      | succ room => exact Nat.add_lt_add_left (ih (Nat.lt_of_succ_lt_succ fits)) _

end Weight

namespace Machine

variable {chunk : Chunk} {lines : List Line} {m : Machine} {offset : Nat} {line : Line}
  {calls : List Nat}

/-- How much code lies ahead in each call that has not returned, the outermost of which comes first,
and where the machine is. -/
def ahead (m : Machine) : List Nat :=
  (m.frames.toList.filterMap m.callOffset?).map (fun call => m.code.size - (call.toNat + 2)) ++
    [m.code.size - m.ip.toNat]

/-- How far a machine may still have to go. -/
def rank (m : Machine) : Nat := weight (m.code.size + 1) (m.frameLimit + 1) m.ahead

theorem ahead_eq (awaits : Awaits chunk m.stack.toList m.frames.toList calls) (ip : m.ip = offset) :
    m.ahead = calls.map (fun call => m.code.size - (call + 2)) ++ [m.code.size - offset] := by
  rw [ahead, filterMap_callOffset? awaits, List.map_map, ip]
  rfl

/-- Nowhere is there more ahead than the whole code. -/
theorem ahead_small (m : Machine) : ∀ digit ∈ m.ahead, digit < m.code.size + 1 := by
  intro digit mem
  rcases List.mem_append.mp mem with mem | mem
  · obtain ⟨call, -, rfl⟩ := List.mem_map.mp mem
    omega
  · rw [List.mem_singleton.mp mem]
    omega

theorem rank_lt (m : Machine) : m.rank < (m.code.size + 1) ^ (m.frameLimit + 1) :=
  weight_lt (Nat.succ_pos _) m.ahead_small

/-- A machine gets on where less is ahead in some call, and nothing has changed for its callers. -/
theorem rank_lt_rank {after : Machine} {front rest more : List Nat} {low high : Nat}
    (code : after.code = m.code) (frameLimit : after.frameLimit = m.frameLimit)
    (before : m.ahead = front ++ high :: more) (now : after.ahead = front ++ low :: rest)
    (less : low < high) (depth : front.length ≤ m.frameLimit) : after.rank < m.rank := by
  have small : ∀ digit ∈ rest, digit < m.code.size + 1 := by
    intro digit mem
    rw [← code]
    refine after.ahead_small digit ?_
    rw [now]
    exact List.mem_append_right _ (List.mem_cons_of_mem _ mem)
  rw [rank, rank, code, frameLimit, before, now]
  exact weight_lt_weight (Nat.succ_pos _) less (Nat.lt_succ_of_le depth) small

/-- A sound state is within the code. -/
theorem Sound.offset_lt (h : Sound chunk lines .ground offset line m)
    (assembled : chunk.Assembled lines) : offset < m.code.size := by
  have within := (Line.bounds_of_mem_placed h.listed).2
  have size := line.size_pos
  rw [Nat.zero_add, ← assembled.size_eq, Chunk.size, ← h.code] at within
  omega

/-- A step that succeeds leaves less to do, unless it was a jump back. -/
theorem Sound.rank_step (h : Sound chunk lines .ground offset line m) (runs : chunk.Runs lines)
    (forward : line.instr.Forward) (bounded : m.Bounded) {after : Machine}
    (succeeds : m.step = (after, .ok true)) : after.rank < m.rank := by
  obtain ⟨floor, calls, values, inside⟩ := h.inside runs.assembled
  have awaits := inside.awaits runs.assembled
  have depth := awaits.length_eq
  have limit := bounded.frames
  have limit' : m.step.1.frames.size ≤ m.step.1.frameLimit := bounded.step.frames
  have during := h.during runs.assembled bounded
  have proceeds := h.step_outside runs rfl
  have shift := inside.shift runs
  simp only [succeeds] at limit' during proceeds shift
  obtain ⟨next, nextLine, sound⟩ := proceeds
  have code : after.code = m.code := during.code
  have frameLimit : after.frameLimit = m.frameLimit := during.frameLimit
  have here := h.offset_lt runs.assembled
  have there := sound.offset_lt runs.assembled
  rw [code] at there
  have before := ahead_eq awaits h.ip
  rw [Array.length_toList] at depth
  cases shift with
  | @onward _ distance awaits' ip jump =>
      have nonneg : 0 ≤ distance := by
        rcases jump with rfl | jump | jump
        · exact Int.le_refl 0
        · rwa [jump] at forward
        · rwa [jump] at forward
      have less : m.code.size - next < m.code.size - offset := by
        have size := line.size_pos
        rw [sound.ip] at ip
        omega
      have now := ahead_eq awaits' sound.ip
      rw [code] at now
      refine rank_lt_rank code frameLimit before now less ?_
      rw [List.length_map]
      omega
  | enters awaits' =>
      -- The caller will go on behind the call, which is why its digit gets smaller already now.
      have less : m.code.size - (offset + 2) < m.code.size - offset := by omega
      have depth' := awaits'.length_eq
      rw [Array.length_toList, List.length_append, List.length_singleton] at depth'
      have now := ahead_eq awaits' sound.ip
      rw [code, List.map_append, List.append_assoc] at now
      refine rank_lt_rank code frameLimit before now less ?_
      rw [List.length_map]
      omega
  | @returns _ earlier back same awaits' ip =>
      have target : next = back + 3 := Int.natCast_inj.mp (sound.ip.symm.trans ip)
      have less : m.code.size - next < m.code.size - (back + 2) := by omega
      have now := ahead_eq awaits' sound.ip
      rw [same, List.map_append, List.append_assoc] at before
      rw [code] at now
      refine rank_lt_rank code frameLimit before now less ?_
      rw [same, List.length_append, List.length_singleton] at depth
      rw [List.length_map]
      omega

theorem after_step (m : Machine) (count : Nat) : m.step.1.after count = m.after (count + 1) := by
  induction count with
  | zero => rfl
  | succ count ih =>
      rw [after, ih]
      rfl

/-- The next step of a running machine is its last one: at the instruction to stop, or with a fault
that the program itself is to blame for. -/
structure Finishes (chunk : Chunk) (m : Machine) : Prop where
  running : m.halted = false
  halts : m.step.1.halted
  ends : (∃ offset : Nat, m.ip = offset ∧ chunk.Has offset .exit [] ∧ m.step.2 = .ok false) ∨
    ∃ fault : Fault, m.step.2 = .error fault ∧ fault.isMalformed = false

/-- As long as no jump leads back, the program gets to its end. -/
theorem Sound.exists_finishes (h : Sound chunk lines .ground offset line m)
    (runs : chunk.Runs lines) (forward : AllForward lines) (bounded : m.Bounded) :
    ∃ steps ≤ m.rank, (m.after steps).Finishes chunk := by
  generalize bound : m.rank = rank
  induction rank using Nat.strongRecOn generalizing m offset line with
  | _ rank ih =>
    have proceeds := h.step_outside runs rfl
    match stepped : m.step, proceeds with
    | (later, .ok true), ⟨next, nextLine, sound⟩ =>
        have onward := forward line (Line.mem_of_mem_placed h.listed)
        have less := h.rank_step runs onward bounded stepped
        have bounded' := bounded.step
        rw [stepped] at bounded'
        obtain ⟨steps, within, finishes⟩ := ih later.rank (bound ▸ less) sound bounded' rfl
        refine ⟨steps + 1, Nat.lt_of_le_of_lt within (bound ▸ less), ?_⟩
        rwa [← after_step, stepped]
    | (later, .ok false), ⟨isExit, _, halted, _⟩ =>
        refine ⟨0, Nat.zero_le _, h.running, by rwa [after, stepped], .inl ⟨offset, h.ip, ?_, ?_⟩⟩
        · exact runs.assembled.has_exit h.listed isExit
        · rw [after, stepped]
    | (later, .error fault), ⟨benign, halted, _⟩ =>
        refine ⟨0, Nat.zero_le _, h.running, by rwa [after, stepped], .inr ⟨fault, ?_, benign⟩⟩
        rw [after, stepped]

end Machine

/-- A program without loops always comes to an end, whatever its functions call and whatever limits
the machine has. -/
theorem Chunk.loopless_finishes {poolSize limit bytes : Nat} {program : List Stmt} {whole : Chunk}
    (small : poolSize ≤ Chunk.maxPoolSize) (loopless : listLoopless program)
    (added : (Chunk.empty poolSize).addProgram limit (program.map .statement) = (whole, .ok bytes))
    (stackLimit frameLimit : Nat) :
    ∃ steps < (whole.size + 1) ^ (frameLimit + 1),
      (((Machine.new stackLimit frameLimit).load whole).after steps).Finishes whole := by
  obtain ⟨body, place, same, legal, appended⟩ :=
    Chunk.addProgram_spec (Chunk.roomy_empty small) added
  obtain rfl : program = body := List.map_injective_iff.mpr (fun _ _ => Node.statement.inj) same
  have runs := Runs.of_assembled legal ((Chunk.assembled_empty small).addLines appended)
  have forward : AllForward (listCode 0 .top program ++ [exitLine place]) :=
    (listCode_forward loopless 0 .top).append (.single trivial)
  obtain ⟨line, sound⟩ := Machine.sound_load runs stackLimit frameLimit
  have bounded := (Machine.bounded_new stackLimit frameLimit).load whole
  obtain ⟨steps, within, finishes⟩ := sound.exists_finishes runs forward bounded
  exact ⟨steps, Nat.lt_of_le_of_lt within (Machine.rank_lt _), finishes⟩

/-- Two functions, the first of which calls the second, which calls the first by another name. -/
def Stmt.pingPong : List Stmt :=
  [.function default "ping" [⟨default, "x"⟩] default
      [.ret default (some (.call default "pong" [.reference default "x"]))],
    .function default "pong" [⟨default, "x"⟩] default
      [.ret default (some (.call default "again" [.reference default "x"]))],
    .declare default "again" (.reference default "ping"),
    .expression default (.call default "ping" [.literal default .null])]

theorem Chunk.loopless_finishes_pingPong :
    ∃ whole, (Chunk.empty 256).addProgram 10 (Stmt.pingPong.map .statement) = (whole, .ok 36) ∧
      ∃ steps < (whole.size + 1) ^ 101,
        (((Machine.new 1000 100).load whole).after steps).Finishes whole := by
  have added : (Chunk.empty 256).addProgram 10 (Stmt.pingPong.map .statement) =
      (((Chunk.empty 256).addProgram 10 (Stmt.pingPong.map .statement)).1, .ok 36) :=
    Chunk.eq_ok_of_bytes (by decide +kernel)
  exact ⟨_, added, Chunk.loopless_finishes (by decide) (by simp [Stmt.pingPong, listLoopless,
    Stmt.Loopless]) added 1000 100⟩

end StackScript
