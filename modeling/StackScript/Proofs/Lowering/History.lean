/-
# The history of a chunk

A chunk is made by adding one statement after the other. Statements that are
refused leave no code behind. At any time the code of the chunk is therefore the
draft of the statements that were accepted, in their order, whatever happened in
between.
-/

import StackScript.Lowering.Program
import StackScript.Proofs.Lowering.Drafts

namespace StackScript

open Line (extent placed located)

theorem listCode_append (offset : Nat) (ctx : Context) (body more : List Stmt) :
    listCode offset ctx (body ++ more) =
      listCode offset ctx body ++
        listCode (offset + extent (listCode offset ctx body)) (ctx.afterAll body) more := by
  induction body generalizing offset ctx with
  | nil => simp [listCode]
  | cons first rest ih => simp [listCode, ih, Nat.add_assoc]

theorem listLegal_append (inside : Bool) (body more : List Stmt) :
    listLegal inside (body ++ more) ↔ listLegal inside body ∧ listLegal inside more := by
  induction body with
  | nil => simp [listLegal]
  | cons first rest ih => simp [listLegal, ih, and_assoc]

namespace Chunk

variable {chunk later : Chunk} {lines more : List Line}

/-- What was added has been accepted if its number of bytes is known. -/
theorem eq_ok_of_bytes {result : Chunk × Except Failure Nat} {bytes : Nat}
    (h : result.2.toOption = some bytes) : result = (result.1, .ok bytes) := by
  obtain ⟨chunk, outcome⟩ := result
  cases outcome with
  | error failure => cases h
  | ok found =>
      cases h
      rfl

/-- Why what was added has not been accepted. -/
def failure? (result : Chunk × Except Failure Nat) : Option Failure :=
  match result.2 with
  | .error failure => some failure
  | .ok _ => none

theorem eq_error_of_failure? {result : Chunk × Except Failure Nat} {failure : Failure}
    (h : failure? result = some failure) : result = (result.1, .error failure) := by
  obtain ⟨chunk, outcome⟩ := result
  cases outcome with
  | error found =>
      cases h
      rfl
  | ok bytes => cases h

/-- What was accepted has been lowered to its end. -/
theorem ran_of_addStatement {limit bytes : Nat} {st : Stmt}
    (added : chunk.addStatement limit st = (later, .ok bytes)) :
    ∃ state, Lowering.statement ⟨st.location, limit⟩ st ⟨chunk, none⟩ = .ok () state ∧
      state.chunk = later ∧ later.size - chunk.size = bytes := by
  unfold addStatement at added
  cases found : Lowering.statement ⟨st.location, limit⟩ st ⟨chunk, none⟩ with
  | ok value state =>
      rw [found] at added
      obtain ⟨rfl, same⟩ := Prod.mk.inj added
      exact ⟨state, rfl, rfl, Except.ok.inj same⟩
  | error failure state =>
      rw [found] at added
      cases failure <;> cases added

/-- The code of a chunk is the given draft, from its beginning to its end, and
so are the places. -/
structure Assembled (chunk : Chunk) (lines : List Line) : Prop where
  roomy : chunk.Roomy
  size_eq : chunk.size = extent lines
  shown : ∀ p ∈ placed 0 lines, chunk.Shows p.1 p.2
  places : chunk.places = (located 0 lines).reverse

theorem assembled_empty {poolSize : Nat} (h : poolSize ≤ maxPoolSize) :
    (empty poolSize).Assembled [] :=
  ⟨roomy_empty h, rfl, by simp, rfl⟩

theorem Assembled.addLines (h : chunk.Assembled lines) (added : chunk.addLines more = some later) :
    later.Assembled (lines ++ more) := by
  obtain ⟨grown, shown, size_eq, places⟩ := addLines_spec added
  refine ⟨grown.roomy h.roomy, ?_, ?_, ?_⟩
  · rw [size_eq, h.size_eq, Line.extent_append]
  · intro p mem
    rw [Line.placed_append, List.mem_append] at mem
    rcases mem with mem | mem
    · exact (h.shown p mem).mono grown
    · rw [h.size_eq] at shown
      exact shown p (by simpa using mem)
  · rw [places, h.places, h.size_eq, Line.located_append]
    simp

/-- Cutting back a chunk that has grown gives the code and the places that it
had before. -/
theorem Assembled.truncate (h : chunk.Assembled lines) (grown : chunk.Extends later) :
    chunk.Extends (later.truncate chunk.size) ∧ (later.truncate chunk.size).code = chunk.code ∧
      (later.truncate chunk.size).places = chunk.places := by
  have code : (later.truncate chunk.size).code = chunk.code := by
    obtain ⟨added, same⟩ := grown.code
    have bytes : (later.code.bytes.extract 0 chunk.code.bytes.size).toList =
        chunk.code.bytes.toList := by
      rw [Array.toList_extract, ← same]
      simp
    simp only [Chunk.truncate, Code.truncate, Chunk.size, Code.size]
    rw [Array.toList_inj.mp bytes]
  have places : (later.truncate chunk.size).places = chunk.places := by
    obtain ⟨added, same, beyond⟩ := grown.places
    have gone : added.filter (fun entry => entry.1 < chunk.size) = [] := by
      rw [List.filter_eq_nil_iff]
      intro entry mem
      simpa using beyond entry mem
    have kept : chunk.places.filter (fun entry => entry.1 < chunk.size) = chunk.places := by
      rw [List.filter_eq_self]
      intro entry mem
      rw [h.places, List.mem_reverse] at mem
      obtain ⟨line, found, -⟩ := Line.mem_located.mp mem
      have := (Line.bounds_of_mem_placed found).2
      have := line.size_pos
      simp only [h.size_eq, decide_eq_true_eq]
      omega
    show later.places.filter (fun entry => entry.1 < chunk.size) = chunk.places
    rw [same, List.filter_append, gone, kept, List.nil_append]
  refine ⟨⟨?_, grown.constants, grown.constantRoom, grown.strings, grown.stringRoom, ?_, ?_⟩,
    code, places⟩
  · simp only [code, List.prefix_refl]
  · exact ⟨[], places, by simp⟩
  · intro roomy
    have later := grown.roomy roomy
    exact ⟨later.constants, later.strings⟩

/-- A statement that is refused changes nothing but the pools. -/
theorem Assembled.truncated (h : chunk.Assembled lines) (grown : chunk.Extends later) :
    (later.truncate chunk.size).Assembled lines := by
  obtain ⟨kept, code, places⟩ := h.truncate grown
  refine ⟨kept.roomy h.roomy, ?_, fun p mem => (h.shown p mem).mono kept, places ▸ h.places⟩
  rw [size, code, ← size, h.size_eq]

/-- What adding a statement does: it is accepted and its draft is added, or it is
refused and the chunk is cut back. -/
theorem addStatement_cases (roomy : chunk.Roomy) (limit : Nat) (st : Stmt) :
    (∃ later, chunk.addStatement limit st = (later, .ok (extent (st.code chunk.size .top))) ∧
        chunk.addLines (st.code chunk.size .top) = some later ∧ st.Legal false) ∨
      ∃ grown diagnostic, chunk.Extends grown ∧
        chunk.addStatement limit st =
          (grown.truncate chunk.size, .error (.refused diagnostic)) := by
  have start : Drafting chunk [] .top ⟨chunk, none⟩ := ⟨roomy, rfl, rfl⟩
  have outcome :=
    (Lowering.statement_follows chunk st start ⟨st.location, limit⟩).outcome
  unfold addStatement
  generalize Lowering.statement ⟨st.location, limit⟩ st ⟨chunk, none⟩ = result at outcome ⊢
  cases result with
  | ok value later =>
      obtain ⟨drafted, -, legal⟩ := outcome
      have added := drafted.added
      rw [List.nil_append, Line.extent_nil, Nat.add_zero] at added
      refine .inl ⟨later.chunk, ?_, added, legal⟩
      have length : later.chunk.size - chunk.size = extent (st.code chunk.size .top) := by
        rw [(addLines_spec added).2.2.1, Nat.add_sub_cancel_left]
      simp only [length]
  | error failure later =>
      obtain ⟨grown, diagnostic, rfl⟩ := outcome
      exact .inr ⟨later.chunk, diagnostic, grown, rfl⟩

/-- A statement that is accepted is added to the draft. -/
theorem Assembled.accepted {body : List Stmt} (legal : listLegal false body)
    (h : chunk.Assembled (listCode 0 .top body)) {limit bytes : Nat} {st : Stmt}
    (added : chunk.addStatement limit st = (later, .ok bytes)) :
    listLegal false (body ++ [st]) ∧ later.Assembled (listCode 0 .top (body ++ [st])) ∧
      later.size = chunk.size + extent (st.code chunk.size .top) := by
  rcases addStatement_cases h.roomy limit st with
    ⟨found, same, lines, legal'⟩ | ⟨grown, diagnostic, -, same⟩
  · rw [same] at added
    obtain ⟨rfl, -⟩ := Prod.mk.inj added
    have whole := h.addLines lines
    rw [h.size_eq] at whole
    refine ⟨(listLegal_append false body [st]).mpr ⟨legal, legal', trivial⟩, ?_,
      (addLines_spec lines).2.2.1⟩
    rw [listCode_append]
    simpa [listCode] using whole
  · rw [same] at added
    cases (Prod.mk.inj added).2

/-- A statement that is refused leaves the draft as it was. -/
theorem Assembled.refused (h : chunk.Assembled lines) {limit : Nat} {st : Stmt}
    {failure : Failure} (added : chunk.addStatement limit st = (later, .error failure)) :
    later.Assembled lines := by
  rcases addStatement_cases h.roomy limit st with
    ⟨found, same, -⟩ | ⟨grown, diagnostic, extended, same⟩
  · rw [same] at added
    cases (Prod.mk.inj added).2
  · rw [same] at added
    obtain ⟨rfl, -⟩ := Prod.mk.inj added
    exact h.truncated extended

/-- The chunks that come about by adding statements to an empty one, each with the
ranges of the statements that were accepted: where their code starts, and where
it ends. -/
inductive Built (poolSize : Nat) : Chunk → List (Nat × Nat) → Prop
  | empty : Built poolSize (.empty poolSize) []
  | accepted {chunk later : Chunk} {ranges : List (Nat × Nat)} {limit bytes : Nat} {st : Stmt} :
      Built poolSize chunk ranges → chunk.addStatement limit st = (later, .ok bytes) →
        Built poolSize later (ranges ++ [(chunk.size, later.size)])
  | refused {chunk later : Chunk} {ranges : List (Nat × Nat)} {limit : Nat} {st : Stmt}
      {failure : Failure} :
      Built poolSize chunk ranges → chunk.addStatement limit st = (later, .error failure) →
        Built poolSize later ranges

/-- The ranges of statements that follow each other. -/
def rangesOf (offset : Nat) : List Stmt → List (Nat × Nat)
  | [] => []
  | first :: rest =>
    let stop := offset + extent (first.code offset .top)
    (offset, stop) :: rangesOf stop rest

theorem rangesOf_append (offset : Nat) (body more : List Stmt) :
    rangesOf offset (body ++ more) =
      rangesOf offset body ++
        rangesOf (offset + extent (listCode offset .top body)) more := by
  induction body generalizing offset with
  | nil => simp [rangesOf, listCode]
  | cons first rest ih =>
      simp [rangesOf, listCode, ih, Nat.add_assoc]

/-- A chunk is the draft of the statements that it has accepted. -/
theorem Built.assembled {poolSize : Nat} {ranges : List (Nat × Nat)}
    (small : poolSize ≤ maxPoolSize) (h : Built poolSize chunk ranges) :
    ∃ body : List Stmt, listLegal false body ∧ chunk.Assembled (listCode 0 .top body) ∧
      ranges = rangesOf 0 body := by
  induction h with
  | empty => exact ⟨[], trivial, assembled_empty small, rfl⟩
  | accepted built added ih =>
      obtain ⟨body, legal, assembled, rfl⟩ := ih
      obtain ⟨legal', whole, stop⟩ := assembled.accepted legal added
      refine ⟨_, legal', whole, ?_⟩
      rw [rangesOf_append, stop, assembled.size_eq]
      simp [rangesOf]
  | refused built added ih =>
      obtain ⟨body, legal, assembled, rfl⟩ := ih
      exact ⟨body, legal, assembled.refused added, rfl⟩

end Chunk

end StackScript
