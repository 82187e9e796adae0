/-
# Programs

Running a program on the machine agrees with evaluating it. If evaluation ends, so
does the run: normally with nothing left on the stack, or with the same fault, and
both times with the same globals and the same output. If evaluation goes on forever,
so does the run. The limits of the machine are the only exception: a run may exceed
one of them, and has by then printed a part of what evaluation prints. For each
number of steps there are limits that are large enough.
-/

import StackScript.Proofs.Lowering.Constants
import StackScript.Proofs.Simulation.Statements

namespace StackScript

open Line (extent)

/-- A run of a chunk on a fresh machine, for a number of steps at most. -/
def Chunk.run (chunk : Chunk) (stackLimit frameLimit count : Nat) :
    Machine × Nat × Machine.RunEnd :=
  ((Machine.new stackLimit frameLimit).load chunk).runFor 0 count

/-- The globals of a machine stand for those of a world, and the output is the same. -/
structure Machine.Shows (chunk : Chunk) (w : World) (m : Machine) : Prop where
  globals : ∀ name,
    Option.Rel (Datum.Stands chunk) (w.globals.lookup name) (m.globals.find? name)
  output : m.output.toList = w.output

/-- What a run for a number of steps comes to. Under any limits it comes to that or
exceeds a limit, and under large limits it comes to that. -/
structure Chunk.ComesTo (chunk : Chunk) (count : Nat) (output : List String)
    (post : Machine × Nat × Machine.RunEnd → Prop) : Prop where
  always : ∀ stackLimit frameLimit, post (chunk.run stackLimit frameLimit count) ∨
    Machine.Overflown (chunk.run stackLimit frameLimit count) output
  large : ∃ bound, ∀ stackLimit frameLimit, bound ≤ stackLimit → bound ≤ frameLimit →
    post (chunk.run stackLimit frameLimit count)

/-- Runs of a chunk agree with the evaluation of a program. -/
structure Chunk.Preserves (chunk : Chunk) (program : List Stmt) : Prop where
  /-- A program that ends normally halts the machine. -/
  halts : ∀ levels result w, Stmt.run levels program = .ok result w →
    result = none ∧ ∃ count, chunk.ComesTo count w.output fun run =>
      run.2.2 = .halted ∧ run.1.Shows chunk w ∧ run.1.stack = #[] ∧ run.1.frames = #[]
  /-- A program that ends with a fault ends with the same fault in the machine. -/
  fails : ∀ levels fault w, Stmt.run levels program = .error (.fault fault) w →
    ∃ count, chunk.ComesTo count w.output fun run =>
      run.2.2 = .failed fault ∧ run.1.Shows chunk w
  /-- What a program prints within some levels, the machine prints at some time. -/
  prints : ∀ levels w, Stmt.run levels program = .error .exhausted w →
    ∃ count, levels ≤ count ∧ chunk.ComesTo count w.output fun run =>
      run.2.2 = .counted ∧ run.1.output.toList = w.output
  /-- If a program never ends, the machine goes on forever. -/
  endless : (∀ levels, ∃ w, Stmt.run levels program = .error .exhausted w) →
    ∀ count, ∃ levels w, Stmt.run levels program = .error .exhausted w ∧
      chunk.ComesTo count w.output fun run =>
        run.2.2 = .counted ∧ run.1.output.toList <+: w.output

/-- Where the run of a chunk starts. -/
def Config.start : Config where
  offset := 0
  last := 0
  stack := []
  frames := []
  globals := .empty
  output := []

section Runs

variable {chunk : Chunk} {output : List String}
  {post : Machine × Nat × Machine.RunEnd → Prop}

/-- What can be said of a run after some steps can be said of the whole run. -/
theorem Chunk.ComesTo.of_goes {count : Nat} {later : Machine}
    (goes : Machine.Goes count (Config.start.machine chunk) later)
    (printed : later.output.toList <+: output) (more : Nat)
    (ends : ∀ stackLimit frameLimit,
      post ((later.limited stackLimit frameLimit).runFor count more)) :
    chunk.ComesTo (more + count) output post := by
  constructor
  · intro stackLimit frameLimit
    rcases goes.runFor printed stackLimit frameLimit 0 more with same | overflown
    · rw [Nat.zero_add] at same
      have found := ends stackLimit frameLimit
      rw [← same] at found
      exact .inl found
    · exact .inr overflown
  · obtain ⟨bound, large⟩ := goes.runFor_of_large
    refine ⟨bound, fun stackLimit frameLimit stackLarge frameLarge => ?_⟩
    have same := large stackLimit frameLimit stackLarge frameLarge 0 more
    rw [Nat.zero_add] at same
    have found := ends stackLimit frameLimit
    rw [← same] at found
    exact found

theorem Config.start_represents (chunk : Chunk) :
    Represents chunk .top [] [] [] {} Config.start := by
  refine ⟨⟨[], rfl, .outside⟩, rfl, nofun, fun name => ?_, rfl⟩
  have empty : Config.start.globals.find? name = none := by
    rw [Globals.find?]
    simp [start, Globals.empty]
  rw [empty]
  exact .none

/-- The code of a program, run from its beginning, does what evaluation does. -/
theorem Stmt.run_simulated {body : List Stmt} {place : Option Location}
    (legal : listLegal false body)
    (presents : chunk.Presents 0 (listCode 0 .top body ++ [exitLine place])) (levels : Nat) :
    Simulates chunk levels (executeWithin levels body) {} Config.start
      (Ended chunk .top [] [] (extent (listCode 0 .top body))) := by
  have whole : Simulates chunk levels (executeWithin levels body) {} Config.start
      (Ended chunk (Context.top.afterAll body) [] [] (0 + extent (listCode 0 .top body))) :=
    (deeper_executeWithin levels).list legal presents.left (Config.start_represents chunk)
  rw [Context.afterAll_top] at whole
  exact whole.endsAt (Nat.zero_add _).symm

/-- A machine that has come to the end of a program halts there. -/
theorem Config.halts {w : World} {d : Config} {bare : Opcode.exit.operands = []}
    (h : Represents chunk .top [] [] [] w d) (reads : chunk.Reads d.offset (.plain .exit bare))
    (stackLimit frameLimit made : Nat) :
    ∃ m : Machine, ((d.machine chunk).limited stackLimit frameLimit).runFor made 1 =
        (m, made, .halted) ∧
      m.Shows chunk w ∧ m.stack = #[] ∧ m.frames = #[] := by
  obtain ⟨m, stops, -, stack, frames, globals, output⟩ := Config.exits reads stackLimit frameLimit
  obtain ⟨values, onStack, locals⟩ := h.stack
  obtain rfl := List.eq_nil_of_length_eq_zero locals.length_eq.1
  refine ⟨m, by rw [Machine.runFor, stops], ⟨?_, ?_⟩, ?_, ?_⟩
  · rw [globals]
    exact h.shares.globals
  · rw [output]
    exact h.shares.output
  · exact Array.toList_inj.mp (stack.trans onStack)
  · exact Array.toList_inj.mp (frames.trans h.onFrames)

theorem Config.Fails.runFor {w : World} {d : Config} {fault : Fault} (h : d.Fails chunk fault)
    (shares : Shares chunk w d) (stackLimit frameLimit made : Nat) :
    ∃ m : Machine, ((d.machine chunk).limited stackLimit frameLimit).runFor made 1 =
        (m, made, .failed fault) ∧ m.Shows chunk w := by
  obtain ⟨m, failed, -, globals, output⟩ := h stackLimit frameLimit
  refine ⟨m, by rw [Machine.runFor, failed], ?_, ?_⟩
  · rw [globals]
    exact shares.globals
  · rw [output]
    exact shares.output

variable {body : List Stmt} {place : Option Location}

theorem Chunk.comesTo_halt (legal : listLegal false body)
    (presents : chunk.Presents 0 (listCode 0 .top body ++ [exitLine place])) {levels : Nat}
    {result : Option Datum} {w : World} (ended : Stmt.run levels body = .ok result w) :
    result = none ∧ ∃ count, chunk.ComesTo count w.output fun run =>
      run.2.2 = .halted ∧ run.1.Shows chunk w ∧ run.1.stack = #[] ∧ run.1.frames = #[] := by
  obtain ⟨count, d, goes, done⟩ := (Stmt.run_simulated legal presents levels).of_ok ended
  cases result with
  | some datum => cases done.1
  | none =>
      obtain ⟨here, offset⟩ := done
      have reads := presents.right.head
      rw [Nat.zero_add, ← offset] at reads
      refine ⟨rfl, 1 + count, .of_goes goes ?_ 1 fun stackLimit frameLimit => ?_⟩
      · exact here.shares.output ▸ List.prefix_refl _
      · obtain ⟨m, run, shows⟩ := Config.halts here reads stackLimit frameLimit count
        rw [run]
        exact ⟨rfl, shows⟩

theorem Chunk.comesTo_fault (legal : listLegal false body)
    (presents : chunk.Presents 0 (listCode 0 .top body ++ [exitLine place])) {levels : Nat}
    {fault : Fault} {w : World} (ended : Stmt.run levels body = .error (.fault fault) w) :
    ∃ count, chunk.ComesTo count w.output fun run =>
      run.2.2 = .failed fault ∧ run.1.Shows chunk w := by
  obtain ⟨count, d, goes, fails, shares⟩ :=
    (Stmt.run_simulated legal presents levels).of_fault ended
  refine ⟨1 + count, .of_goes goes ?_ 1 fun stackLimit frameLimit => ?_⟩
  · exact shares.output ▸ List.prefix_refl _
  · obtain ⟨m, run, shows⟩ := fails.runFor shares stackLimit frameLimit count
    rw [run]
    exact ⟨rfl, shows⟩

theorem Chunk.comesTo_output (legal : listLegal false body)
    (presents : chunk.Presents 0 (listCode 0 .top body ++ [exitLine place])) {levels : Nat}
    {w : World} (exhausted : Stmt.run levels body = .error .exhausted w) :
    ∃ count, levels ≤ count ∧ chunk.ComesTo count w.output fun run =>
      run.2.2 = .counted ∧ run.1.output.toList = w.output := by
  obtain ⟨count, d, enough, goes, output⟩ :=
    (Stmt.run_simulated legal presents levels).of_exhausted exhausted
  refine ⟨0 + count, by omega, .of_goes goes ?_ 0 fun stackLimit frameLimit => ?_⟩
  · exact output ▸ List.prefix_refl _
  · exact ⟨rfl, output⟩

/-- Steps that are made on the way are made in any case. -/
theorem Chunk.comesTo_counted (legal : listLegal false body)
    (presents : chunk.Presents 0 (listCode 0 .top body ++ [exitLine place])) {count : Nat}
    {w : World} (exhausted : Stmt.run count body = .error .exhausted w) :
    chunk.ComesTo count w.output fun run =>
      run.2.2 = .counted ∧ run.1.output.toList <+: w.output := by
  obtain ⟨total, d, enough, goes, output⟩ :=
    (Stmt.run_simulated legal presents count).of_exhausted exhausted
  obtain ⟨rest, rfl⟩ := Nat.exists_eq_add_of_le enough
  obtain ⟨mid, first, second⟩ := goes.split
  have printed := second.printed
  rw [show (d.machine chunk).output.toList = w.output from output] at printed
  rw [← Nat.zero_add count]
  exact .of_goes first printed 0 fun stackLimit frameLimit => ⟨rfl, printed⟩

end Runs

/-- Lowering a program that was read from a text keeps its meaning. -/
theorem Chunk.program_preserved {file text : String} {program : List Stmt}
    {poolSize limit bytes : Nat} {whole : Chunk} (read : Syntax.program file text = .ok program)
    (small : poolSize ≤ Chunk.maxPoolSize)
    (added : (Chunk.empty poolSize).addProgram limit (program.map .statement) =
      (whole, .ok bytes)) :
    whole.Preserves program := by
  obtain ⟨body, place, same, legal, lines⟩ := Chunk.addProgram_spec (Chunk.roomy_empty small) added
  obtain rfl : program = body := List.map_injective_iff.mpr (fun _ _ => Node.statement.inj) same
  have named : Line.AllUnsigned (listCode 0 .top program ++ [exitLine place]) :=
    (listCode_unsigned (Syntax.program_unsigned read) 0 .top).append (.single nofun)
  obtain ⟨reads, size⟩ := Chunk.reads_of_addLines small named lines
  have presents : whole.Presents 0 (listCode 0 .top program ++ [exitLine place]) :=
    ⟨reads, Nat.le_of_eq ((Nat.zero_add _).trans size.symm)⟩
  constructor
  · exact fun levels result w => Chunk.comesTo_halt legal presents
  · exact fun levels fault w => Chunk.comesTo_fault legal presents
  · exact fun levels w => Chunk.comesTo_output legal presents
  · intro never count
    obtain ⟨w, exhausted⟩ := never count
    exact ⟨count, w, exhausted, Chunk.comesTo_counted legal presents exhausted⟩

/-- The text of a program with a function, a loop and a local variable in the loop. -/
def countdown : String :=
  "fn count(n) \x7b while (n > 0) \x7b let m = n - 1; print n; n = m; \x7d return n; \x7d print count(3);"

theorem Chunk.program_preserved_countdown :
    ∃ program whole, Syntax.program "countdown" countdown = .ok program ∧
      (Chunk.empty 256).addProgram 10 (program.map .statement) = (whole, .ok 41) ∧
        whole.Preserves program := by
  have accepted : (match Syntax.program "countdown" countdown with
      | .ok program => ((Chunk.empty 256).addProgram 10 (program.map .statement)).2.toOption
      | .error _ => none) = some 41 := by decide +kernel
  cases read : Syntax.program "countdown" countdown with
  | error diagnostic =>
      rw [read] at accepted
      cases accepted
  | ok program =>
      rw [read] at accepted
      simp only [] at accepted
      have outcome : ((Chunk.empty 256).addProgram 10 (program.map .statement)).2 = .ok 41 := by
        cases found : ((Chunk.empty 256).addProgram 10 (program.map .statement)).2 with
        | error failure =>
            rw [found] at accepted
            cases accepted
        | ok bytes =>
            rw [found] at accepted
            cases accepted
            rfl
      have added : (Chunk.empty 256).addProgram 10 (program.map .statement) =
          (((Chunk.empty 256).addProgram 10 (program.map .statement)).1, .ok 41) :=
        Prod.ext rfl outcome
      exact ⟨program, _, rfl, added, Chunk.program_preserved read (by decide) added⟩

end StackScript
