/-
# Whole programs

A program is added to a chunk statement by statement, with the instruction to
stop behind the last one. If all of it is accepted, the code is the draft of the
statements, those that were there before included, and ends with that
instruction. Such code is a program that control never leaves.
-/

import StackScript.Proofs.Lowering.Layout

namespace StackScript

namespace Chunk

variable {chunk later : Chunk} {body : List Stmt} {limit bytes : Nat}

/-- Nodes that are accepted are statements, and their draft is added. -/
theorem addNodes_spec {nodes : List Node} (roomy : chunk.Roomy)
    (added : chunk.addNodes limit nodes = (later, .ok bytes)) :
    ∃ more, nodes = more.map .statement ∧ listLegal false more ∧
      chunk.addLines (listCode chunk.size .top more) = some later := by
  induction nodes generalizing chunk bytes with
  | nil =>
      obtain ⟨rfl, -⟩ := Prod.mk.inj added
      exact ⟨[], rfl, trivial, rfl⟩
  | cons node rest ih =>
      rw [Chunk.addNodes] at added
      split at added
      · cases (Prod.mk.inj added).2
      · rename_i first count accepted
        split at added
        · cases (Prod.mk.inj added).2
        · rename_i final others addedRest
          obtain ⟨rfl, -⟩ := Prod.mk.inj added
          cases node with
          | statement st =>
              rcases addStatement_cases roomy limit st with
                ⟨found, same, lines, legal⟩ | ⟨grown, diagnostic, -, same⟩
              · obtain ⟨rfl, -⟩ := Prod.mk.inj (same.symm.trans accepted)
                obtain ⟨grown, -, size, -⟩ := addLines_spec lines
                obtain ⟨more, rfl, legal', all⟩ := ih (grown.roomy roomy) addedRest
                refine ⟨st :: more, rfl, ⟨legal, legal'⟩, ?_⟩
                rw [listCode, addLines_append, lines, Option.bind_some, Context.after_top, ← size]
                exact all
              · cases (Prod.mk.inj (same.symm.trans accepted)).2
          | _ => cases (Prod.mk.inj accepted).2

/-- A program that is accepted is added as a draft, with its end, which is marked with the place of
the last statement. -/
theorem addProgram_lines {program : List Node} (roomy : chunk.Roomy)
    (added : chunk.addProgram limit program = (later, .ok bytes)) :
    ∃ more, program = more.map .statement ∧ listLegal false more ∧
      chunk.addLines (listCode chunk.size .top more ++
        [exitLine (program.getLast?.bind Node.location?)]) = some later := by
  rw [Chunk.addProgram] at added
  split at added
  · cases (Prod.mk.inj added).2
  · rename_i grown count accepted
    obtain ⟨more, same, legal, lines⟩ := addNodes_spec roomy accepted
    refine ⟨more, same, legal, ?_⟩
    split at added
    · cases (Prod.mk.inj added).2
    · rename_i final offset appended
      obtain ⟨rfl, -⟩ := Prod.mk.inj added
      rw [addLines_append, lines, Option.bind_some, addLines_singleton, addLine]
      simp only [exitLine, identify, Instr.op, appended]

/-- A program that is accepted is added as a draft, with its end. -/
theorem addProgram_spec {program : List Node} (roomy : chunk.Roomy)
    (added : chunk.addProgram limit program = (later, .ok bytes)) :
    ∃ more place, program = more.map .statement ∧ listLegal false more ∧
      chunk.addLines (listCode chunk.size .top more ++ [exitLine place]) = some later := by
  obtain ⟨more, same, legal, lines⟩ := addProgram_lines roomy added
  exact ⟨more, _, same, legal, lines⟩

/-- What is needed to know of a chunk to run it: it is the draft of a program. -/
structure Runs (chunk : Chunk) (lines : List Line) : Prop where
  assembled : chunk.Assembled lines
  starts : Line.Reaches lines 0 ⟨none, 0⟩
  closed : Line.Closed lines

theorem Runs.of_assembled (legal : listLegal false body) {place : Option Location}
    (h : chunk.Assembled (listCode 0 .top body ++ [exitLine place])) :
    chunk.Runs (listCode 0 .top body ++ [exitLine place]) :=
  ⟨h, (program_closed legal place).1, (program_closed legal place).2⟩

section Built

variable {poolSize : Nat} {ranges : List (Nat × Nat)} {program : List Node}

/-- Whatever was added to a chunk before, a program that is accepted makes a draft of it. -/
theorem Built.whole (small : poolSize ≤ maxPoolSize) (built : Built poolSize chunk ranges)
    (added : chunk.addProgram limit program = (later, .ok bytes)) :
    ∃ body, listLegal false body ∧
      later.Assembled (listCode 0 .top body ++ [exitLine (program.getLast?.bind Node.location?)]) ∧
      ∃ more : List Stmt, program = more.map .statement := by
  obtain ⟨body, legal, assembled, -⟩ := built.assembled small
  obtain ⟨more, same, legal', lines⟩ := addProgram_lines assembled.roomy added
  have whole := assembled.addLines lines
  have row := listCode_append 0 .top body more
  rw [Nat.zero_add, Context.afterAll_top, ← assembled.size_eq] at row
  rw [← List.append_assoc, ← row] at whole
  exact ⟨_, (listLegal_append false body more).mpr ⟨legal, legal'⟩, whole, more, same⟩

/-- Whatever was added to a chunk before, a program that is accepted can be run. -/
theorem Built.runs (small : poolSize ≤ maxPoolSize) (built : Built poolSize chunk ranges)
    (added : chunk.addProgram limit program = (later, .ok bytes)) : ∃ lines, later.Runs lines := by
  obtain ⟨body, legal, whole, -⟩ := built.whole small added
  exact ⟨_, .of_assembled legal whole⟩

end Built

/-- In a whole program every line was made for some place, but for the instruction to stop, which
may stand alone. -/
theorem place_or_exit {program : List Stmt} {place : Option Location} {offset : Nat}
    {line : Line} (legal : listLegal false program)
    (mem : (offset, line) ∈ Line.placed 0 (listCode 0 .top program ++ [exitLine place])) :
    line.place.isSome ∨ line = exitLine place := by
  rw [Line.placed_append, List.mem_append] at mem
  rcases mem with mem | mem
  · exact .inl (Assembled.place_isSome legal mem)
  · right
    obtain ⟨-, rfl⟩ : offset = _ ∧ line = exitLine place := by simpa using mem
    rfl

/-- Every call in a whole program has a place. -/
theorem locate_call {program : List Stmt} {place : Option Location} {call : Nat}
    {operands : List Int} (legal : listLegal false program)
    (whole : chunk.Assembled (listCode 0 .top program ++ [exitLine place]))
    (isCall : chunk.Has call .invoke operands) : (chunk.locate call).isSome := by
  obtain ⟨line, mem, isInvoke, -⟩ := whole.line_of_has isCall
  rcases place_or_exit legal mem with known | rfl
  · exact whole.locate_isSome mem known
  · cases isInvoke

end Chunk

end StackScript
