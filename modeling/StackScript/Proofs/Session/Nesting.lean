/-
# Limits on nesting

The levels that statements may nest are a limit and nothing else. With enough levels, more of them
make no difference; with fewer, either there is no difference yet, or a statement is refused because
it nests too deeply. Reading names the place where the statement begins, and lowering that of the
statement, with the code and the places of the chunk as they were before.
-/

import Mathlib
import StackScript.Proofs.Lowering.Nesting
import StackScript.Proofs.Lowering.Refusal
import StackScript.Proofs.Syntax.Nesting

namespace StackScript

/-- What is done within any number of levels is what is done without a limit, unless it is refused
for nesting too deeply. Without a limit that does not happen, and some number of levels is as good
as no limit. -/
structure Limited {α : Type} (run : Nat → α) (tooDeep : α → Prop) (unlimited : α) : Prop where
  enough : ∃ levels, ∀ more, levels ≤ more → run more = unlimited
  fine : ¬ tooDeep unlimited
  kept : ∀ levels, run levels = unlimited ∨ tooDeep (run levels)
  settled : ∀ levels more, levels ≤ more → ¬ tooDeep (run levels) → run more = run levels

/-- It is enough to compare two limits, and to know one that is not too low. -/
theorem Limited.of_step {α : Type} {run : Nat → α} {tooDeep : α → Prop} {enough : Nat}
    (step : ∀ {levels more}, levels ≤ more → run levels = run more ∨ tooDeep (run levels))
    (fine : ¬ tooDeep (run enough)) : Limited run tooDeep (run enough) := by
  have settled {levels more : Nat} (le : levels ≤ more) (fine : ¬ tooDeep (run levels)) :
      run more = run levels := ((step le).resolve_right fine).symm
  refine ⟨⟨enough, fun more le => settled le fine⟩, fine, ?_, fun _ _ => settled⟩
  intro levels
  rcases Nat.le_total levels enough with le | le
  · exact step le
  · exact .inl (settled le fine)

/-- A text is refused for nesting too deeply. -/
def Syntax.TooDeep (result : Except Diagnostic (List Stmt)) : Prop :=
  ∃ place, result = .error ⟨place, .nestingTooDeep⟩

/-- A statement is refused for nesting too deeply. -/
def Chunk.TooDeep (result : Chunk × Except Chunk.Failure Nat) : Prop :=
  ∃ place, result.2 = .error (.refused ⟨place, .nestingTooDeep⟩)

namespace Syntax

/-- No text nests deeper than it is long. -/
theorem limited_program (file text : String) :
    let stream := TokenStream.ofText file text
    ∃ unlimited, Limited (fun levels => programOf (levels + 1) stream) TooDeep unlimited := by
  intro stream
  have fine : ¬ TooDeep (programOf (stream.significant.length + 1) stream) := by
    rintro ⟨place, deep⟩
    obtain ⟨start, -, nests⟩ := programOf_dives deep
    exact absurd nests.levels_lt (lt_irrefl _)
  exact ⟨_, .of_step (programOf_limited stream) fine⟩

end Syntax

namespace Chunk

variable {chunk later : Chunk} {place : Option Location} {levels more poolSize : Nat} {st : Stmt}

/-- What is lowered with more levels is lowered in the same way with fewer, or nests deeper. -/
theorem addStatement_deepens (chunk : Chunk) (st : Stmt) (le : levels ≤ more) :
    (chunk.addStatement levels st = chunk.addStatement more st ∧
        ¬ TooDeep (chunk.addStatement levels st)) ∨
      levels < st.nesting ∧ ∃ later, chunk.addStatement levels st =
        (later, .error (.refused ⟨some st.location, .nestingTooDeep⟩)) := by
  have deepens : Lower.Deepens st.location (levels < st.nesting)
      (Lowering.statement ⟨st.location, levels⟩ st) (Lowering.statement ⟨st.location, more⟩ st) :=
    Lowering.statement_deepens st le
  unfold addStatement
  obtain ⟨same, fine⟩ | ⟨deep, later, refused⟩ := deepens.outcome ⟨chunk, none⟩
  · rw [← same]
    refine .inl ⟨rfl, ?_⟩
    rintro ⟨place, deep⟩
    cases found : Lowering.statement ⟨st.location, levels⟩ st ⟨chunk, none⟩ with
    | ok value mid =>
        rw [found] at deep
        cases deep
    | error failure mid =>
        rw [found] at deep
        cases failure with
        | refused diagnostic =>
            cases deep
            exact fine _ _ found
        | malformed fault => cases deep
  · rw [refused]
    exact .inr ⟨deep, _, rfl⟩

theorem limited_statement (chunk : Chunk) (st : Stmt) :
    ∃ unlimited, Limited (fun levels => chunk.addStatement levels st) TooDeep unlimited := by
  refine ⟨_, @Limited.of_step _ _ _ st.nesting ?_ ?_⟩
  · intro levels more le
    obtain ⟨same, -⟩ | ⟨-, later, refused⟩ := chunk.addStatement_deepens st le
    · exact .inl same
    · exact .inr ⟨_, congrArg Prod.snd refused⟩
  · obtain ⟨-, fine⟩ | ⟨deep, -⟩ := chunk.addStatement_deepens st (le_refl st.nesting)
    · exact fine
    · exact absurd deep (lt_irrefl _)

/-- Only what nests deeper is refused for it, and it is the place of the whole statement that is
named. Nothing of the statement is left but entries in the pools. -/
theorem Filled.addStatement_tooDeep {source : Stmt → Prop} (small : poolSize ≤ maxPoolSize)
    (filled : chunk.Filled source poolSize)
    (h : chunk.addStatement levels st = (later, .error (.refused ⟨place, .nestingTooDeep⟩))) :
    place = some st.location ∧ levels < st.nesting ∧ later.code = chunk.code ∧
      later.places = chunk.places := by
  obtain ⟨-, fine⟩ | ⟨deep, other, refused⟩ := chunk.addStatement_deepens st (le_refl levels)
  · exact absurd ⟨place, congrArg Prod.snd h⟩ fine
  · cases h.symm.trans refused
    obtain ⟨body, -, assembled⟩ := filled.assembled small
    rcases addStatement_cases assembled.roomy levels st with
      ⟨found, same, -⟩ | ⟨grown, diagnostic, extended, same⟩
    · cases same.symm.trans refused
    · cases same.symm.trans refused
      obtain ⟨-, code, places⟩ := assembled.truncate extended
      exact ⟨rfl, deep, code, places⟩

end Chunk

/-- A limit on the levels of nesting changes nothing but what nests deeper. Of any text and any
number of levels, the reader gives exactly what it gives without a limit, be it a program or what is
wrong with the text, or it finds that the statement at hand nests deeper than that and reports the
place of its first token. The same holds of lowering any statement into any chunk, where an operator
nests as deeply as the chain to its left is long: the statement is reported at its own place, and
code and places are those from before. With a hundred levels at least, what is refused nests more
than a hundred levels deep. -/
theorem Session.nesting_limited (file text : String) :
    let stream := TokenStream.ofText file text
    let read (levels : Nat) := Syntax.programOf (levels + 1) stream
    (∃ unlimited, Limited read Syntax.TooDeep unlimited ∧
      ∀ levels place, read levels = .error ⟨place, .nestingTooDeep⟩ →
        ∃ start, place = some start ∧ Syntax.NestsAt levels stream.significant start) ∧
    ∀ (source : Stmt → Prop) (poolSize : Nat) (chunk : Chunk),
      poolSize ≤ Chunk.maxPoolSize → chunk.Filled source poolSize → ∀ st : Stmt,
        let add (levels : Nat) := chunk.addStatement levels st
        ∃ unlimited, Limited add Chunk.TooDeep unlimited ∧
          ∀ levels later place, add levels = (later, .error (.refused ⟨place, .nestingTooDeep⟩)) →
            place = some st.location ∧ levels < st.nesting ∧ later.code = chunk.code ∧
              later.places = chunk.places := by
  intro stream read
  constructor
  · obtain ⟨unlimited, limited⟩ := Syntax.limited_program file text
    exact ⟨unlimited, limited, fun levels place deep => Syntax.programOf_dives deep⟩
  · intro source poolSize chunk small filled st add
    obtain ⟨unlimited, limited⟩ := chunk.limited_statement st
    exact ⟨unlimited, limited, fun levels later place refused =>
      filled.addStatement_tooDeep small refused⟩

/-- A chain of two operators, behind a name. -/
def Stmt.leaning : Stmt :=
  .expression ⟨"t", 1, 4⟩ (.binary ⟨"t", 1, 4⟩ .add (.binary ⟨"t", 1, 4⟩ .add
    (.reference ⟨"t", 1, 4⟩ "b") (.reference ⟨"t", 1, 7⟩ "c")) (.reference ⟨"t", 1, 9⟩ "d"))

set_option maxRecDepth 20000 in
/-- Parentheses take a level to be read and none to be lowered, where the chain behind them takes
two. -/
theorem Session.nesting_limited_leaning :
    let stream := TokenStream.ofText "t" "a;(b)+c+d;"
    let first : Stmt := .expression ⟨"t", 1, 1⟩ (.reference ⟨"t", 1, 1⟩ "a")
    Syntax.programOf 1 stream = .error ⟨some ⟨"t", 1, 3⟩, .nestingTooDeep⟩ ∧
      Syntax.NestsAt 0 stream.significant ⟨"t", 1, 3⟩ ∧
      Syntax.programOf 2 stream = .ok [first, .leaning] ∧
      ∃ chunk later, ({} : Lowerer).add 1 (.empty 256) first = ({}, chunk, .ok 3) ∧
        chunk.addStatement 1 .leaning =
          (later, .error (.refused ⟨some ⟨"t", 1, 4⟩, .nestingTooDeep⟩)) ∧
        1 < Stmt.leaning.nesting ∧ later.code = chunk.code ∧ later.places = chunk.places := by
  intro stream first
  have tooDeep : Syntax.programOf 1 (TokenStream.ofText "t" "a;(b)+c+d;") =
      .error ⟨some ⟨"t", 1, 3⟩, .nestingTooDeep⟩ := by cbv
  have fine : Syntax.programOf 2 (TokenStream.ofText "t" "a;(b)+c+d;") =
      .ok [first, .leaning] := by cbv
  have accepted : ({} : Lowerer).add 1 (.empty 256) first =
      ({}, ((Chunk.empty 256).addStatement 1 first).1, .ok 3) :=
    Lowerer.add_of_bytes (by decide +kernel)
  generalize added : ((Chunk.empty 256).addStatement 1 first).1 = chunk at accepted
  have refused : chunk.addStatement 1 .leaning = ((chunk.addStatement 1 .leaning).1,
      .error (.refused ⟨some ⟨"t", 1, 4⟩, .nestingTooDeep⟩)) := by
    apply Chunk.eq_error_of_failure?
    rw [← added]
    decide +kernel
  have filled : chunk.Filled (fun _ => True) 256 := .add .empty .new trivial accepted
  obtain ⟨⟨_, -, reported⟩, lowered⟩ := Session.nesting_limited "t" "a;(b)+c+d;"
  obtain ⟨start, same, nests⟩ := reported 0 _ tooDeep
  obtain ⟨_, -, restored⟩ := lowered _ 256 chunk (le_refl 256) filled .leaning
  obtain ⟨-, deep, code, places⟩ := restored 1 _ _ refused
  cases same
  exact ⟨tooDeep, nests, fine, chunk, _, accepted, refused, deep, code, places⟩

end StackScript
