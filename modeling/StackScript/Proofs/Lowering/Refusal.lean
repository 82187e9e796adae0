/-
# Refused statements

A statement can be refused at any point of its lowering: between a jump and its target, deep
inside of blocks, or in a function whose definition has been written already. Nothing of it
is left but entries in the pools. Code and places are those from before, old identifiers keep
their meaning, and the lowerer goes on as a new one would.
-/

import StackScript.Lowering.Lowerer
import StackScript.Proofs.Lowering.Layout

namespace StackScript

namespace Lowerer

variable {lowerer next : Lowerer} {chunk later : Chunk} {limit : Nat} {st : Stmt}
  {outcome : Except Chunk.Failure Nat}

/-- The lowerers that a caller can hold: new ones, and those that have been used, on whatever
chunk and with whatever outcome. -/
inductive Used : Lowerer → Prop
  | new : Used {}
  | add {lowerer next : Lowerer} {chunk later : Chunk} {limit : Nat} {st : Stmt}
      {outcome : Except Chunk.Failure Nat} :
      Used lowerer → lowerer.add limit chunk st = (next, later, outcome) → Used next

/-- Whatever came of a statement, the lowerer has forgotten its scope. -/
theorem eq_new_of_add (added : lowerer.add limit chunk st = (next, later, outcome)) :
    next = {} := by
  unfold add at added
  split at added <;> exact (Prod.mk.inj added).1.symm

theorem Used.eq_new (used : lowerer.Used) : lowerer = {} := by
  cases used with
  | new => rfl
  | add _ added => exact eq_new_of_add added

/-- A new lowerer adds a statement as the chunk by itself does. -/
theorem add_new (limit : Nat) (chunk : Chunk) (st : Stmt) :
    ({} : Lowerer).add limit chunk st = ({}, chunk.addStatement limit st) := by
  unfold add Chunk.addStatement
  generalize Lowering.statement ⟨st.location, limit⟩ st ⟨chunk, none⟩ = result
  cases result with
  | ok value state => rfl
  | error failure state => cases failure <;> rfl

theorem add_of_bytes {bytes : Nat} (h : (chunk.addStatement limit st).2.toOption = some bytes) :
    ({} : Lowerer).add limit chunk st = ({}, (chunk.addStatement limit st).1, .ok bytes) := by
  rw [add_new, ← Chunk.eq_ok_of_bytes h]

theorem Used.addStatement_eq (used : lowerer.Used)
    (added : lowerer.add limit chunk st = (next, later, outcome)) :
    chunk.addStatement limit st = (later, outcome) := by
  rw [used.eq_new, add_new] at added
  exact (Prod.mk.inj added).2

end Lowerer

namespace Chunk

variable {chunk later : Chunk} {poolSize : Nat} {source : Stmt → Prop}

/-- The chunks that come about by adding statements of some source to an empty one, whether
they are accepted or refused, and whatever lowerers are used for them. -/
inductive Filled (source : Stmt → Prop) (poolSize : Nat) : Chunk → Prop
  | empty : Filled source poolSize (.empty poolSize)
  | add {chunk later : Chunk} {lowerer next : Lowerer} {limit : Nat} {st : Stmt}
      {outcome : Except Failure Nat} :
      Filled source poolSize chunk → lowerer.Used → source st →
        lowerer.add limit chunk st = (next, later, outcome) → Filled source poolSize later

theorem Filled.built (filled : chunk.Filled source poolSize) :
    ∃ ranges, Built poolSize chunk ranges := by
  induction filled with
  | empty => exact ⟨[], .empty⟩
  | @add chunk later lowerer next limit st outcome _ used _ added ih =>
      obtain ⟨ranges, built⟩ := ih
      have added := used.addStatement_eq added
      cases outcome with
      | ok bytes => exact ⟨_, built.accepted added⟩
      | error failure => exact ⟨_, built.refused added⟩

/-- A chunk is the draft of the statements that it has accepted, whatever else was tried. -/
theorem Filled.assembled (small : poolSize ≤ maxPoolSize) (filled : chunk.Filled source poolSize) :
    ∃ body : List Stmt, listLegal false body ∧ chunk.Assembled (listCode 0 .top body) := by
  obtain ⟨ranges, built⟩ := filled.built
  obtain ⟨body, legal, assembled, -⟩ := built.assembled small
  exact ⟨body, legal, assembled⟩

/-- Code is only ever cut back to where the statement began, so that a chunk has grown after a
statement whatever came of it. -/
theorem Assembled.extends_of_addStatement {lines : List Line} {limit : Nat} {st : Stmt}
    {outcome : Except Failure Nat} (h : chunk.Assembled lines)
    (added : chunk.addStatement limit st = (later, outcome)) : chunk.Extends later := by
  rcases addStatement_cases h.roomy limit st with
    ⟨found, same, lines, -⟩ | ⟨grown, diagnostic, extended, same⟩
  · obtain ⟨rfl, -⟩ := Prod.mk.inj (same.symm.trans added)
    exact (addLines_spec lines).1
  · obtain ⟨rfl, -⟩ := Prod.mk.inj (same.symm.trans added)
    exact (h.truncate extended).1

/-- Pools have the room that they had at the beginning. -/
theorem Filled.capacity_eq (small : poolSize ≤ maxPoolSize) (filled : chunk.Filled source poolSize) :
    chunk.constants.capacity = poolSize ∧ chunk.strings.capacity = poolSize := by
  induction filled with
  | empty => exact ⟨rfl, rfl⟩
  | add before used _ added ih =>
      obtain ⟨body, -, assembled⟩ := before.assembled small
      have grown := assembled.extends_of_addStatement (used.addStatement_eq added)
      exact ⟨grown.constantRoom.trans ih.1, grown.stringRoom.trans ih.2⟩

/-- What a refused statement leaves of the chunk that it was added to. -/
structure Restored (poolSize : Nat) (chunk later : Chunk) : Prop where
  code : later.code = chunk.code
  places : later.places = chunk.places
  constants : chunk.constants.entries.toList <+: later.constants.entries.toList
  strings : chunk.strings.entries.toList <+: later.strings.entries.toList
  constants_kept : ∀ id value, chunk.constants.get? id = some value →
    later.constants.get? id = some value
  strings_kept : ∀ id value, chunk.strings.get? id = some value →
    later.strings.get? id = some value
  room : later.constants.size ≤ poolSize ∧ later.strings.size ≤ poolSize

/-- A statement that is refused, for whatever reason and at whatever depth, takes nothing back
and leaves no trace: the chunk is restored, and the lowerer goes on as a new one does. -/
theorem Filled.refusal_atomic {lowerer next : Lowerer} {limit : Nat} {st : Stmt}
    {failure : Failure} (small : poolSize ≤ maxPoolSize) (filled : chunk.Filled source poolSize)
    (used : lowerer.Used)
    (refused : lowerer.add limit chunk st = (next, later, .error failure)) :
    (∃ diagnostic, failure = .refused diagnostic) ∧ Restored poolSize chunk later ∧
      ∀ calls, next.addEach later calls = ({} : Lowerer).addEach later calls := by
  obtain ⟨body, -, assembled⟩ := filled.assembled small
  have added := used.addStatement_eq refused
  rcases addStatement_cases assembled.roomy limit st with
    ⟨found, same, -⟩ | ⟨grown, diagnostic, extended, same⟩
  · cases (Prod.mk.inj (same.symm.trans added)).2
  · obtain ⟨rfl, failed⟩ := Prod.mk.inj (same.symm.trans added)
    obtain ⟨kept, code, places⟩ := assembled.truncate extended
    have roomy := kept.roomy assembled.roomy
    obtain ⟨constantRoom, stringRoom⟩ := filled.capacity_eq small
    rw [← kept.constantRoom] at constantRoom
    rw [← kept.stringRoom] at stringRoom
    refine ⟨⟨diagnostic, (Except.error.inj failed).symm⟩, ?_, ?_⟩
    · exact {
        code, places
        constants := kept.constants
        strings := kept.strings
        constants_kept := fun id value found => Pool.get?_of_prefix kept.constants found
        strings_kept := fun id value found => Pool.get?_of_prefix kept.strings found
        room := ⟨constantRoom ▸ roomy.constants.1, stringRoom ▸ roomy.strings.1⟩ }
    · intro calls
      rw [Lowerer.eq_new_of_add refused]

end Chunk

/-- A function with another one in its body, which is not allowed. -/
def Stmt.nested : Stmt :=
  .function default "outer" [] default [.function default "inner" [] default []]

/-- The inner function is refused when the outer one has been defined already, behind a
statement that stays. -/
theorem Chunk.refusal_atomic_nested :
    ∃ chunk next later, ({} : Lowerer).add 10 (empty 256) .identity = ({}, chunk, .ok 10) ∧
      ({} : Lowerer).add 10 chunk .nested =
        (next, later, .error (.refused ⟨some default, .nestedFunction "inner"⟩)) ∧
      later.strings.entries.toList = ["same", "outer"] ∧ Restored 256 chunk later ∧
      ∀ calls, next.addEach later calls = ({} : Lowerer).addEach later calls := by
  have accepted : ({} : Lowerer).add 10 (empty 256) .identity =
      ({}, ((empty 256).addStatement 10 .identity).1, .ok 10) :=
    Lowerer.add_of_bytes (by decide +kernel)
  generalize first : ((empty 256).addStatement 10 .identity).1 = chunk at accepted
  have refused : ({} : Lowerer).add 10 chunk .nested =
      ({}, (chunk.addStatement 10 .nested).1,
        .error (.refused ⟨some default, .nestedFunction "inner"⟩)) := by
    have why : failure? (chunk.addStatement 10 .nested) =
        some (.refused ⟨some default, .nestedFunction "inner"⟩) := by
      rw [← first]
      decide +kernel
    rw [Lowerer.add_new, ← eq_error_of_failure? why]
  have strings : (chunk.addStatement 10 .nested).1.strings.entries.toList =
      ["same", "outer"] := by
    rw [← first]
    decide +kernel
  have filled : chunk.Filled (fun _ => True) 256 := .add .empty .new trivial accepted
  obtain ⟨-, restored, onward⟩ := Filled.refusal_atomic (by decide) filled .new refused
  exact ⟨_, _, _, accepted, refused, strings, restored, onward⟩

end StackScript
