/-
# What a session reports

No text makes the front end fail in a way that was not foreseen. Either the text is reported as no
program, before anything of it has been run, or the whole program is run. In a run only the last
instruction has possibly no place in the text, and it is the one that cannot fail; so the report of
a fault always says where it happened.
-/

import StackScript.Proofs.Session.Compilation
import StackScript.Proofs.Session.Console

namespace StackScript

namespace Machine

variable {m after : Machine} {chunk : Chunk} {lines : List Line} {fault : Fault}

/-- A property that steps keep holds where a run has come to a fault, just before. -/
theorem before_fault {holds : Machine → Prop} (keeps : ∀ m, holds m → holds m.step.1)
    (h : holds m) {made count steps : Nat}
    (run : m.runFor made count = (after, steps, .failed fault)) :
    ∃ before, holds before ∧ before.step = (after, .error fault) := by
  induction count generalizing m made with
  | zero => cases (Prod.mk.inj (Prod.mk.inj run).2).2
  | succ count ih =>
      have onward := keeps m h
      rw [runFor] at run
      cases stepped : m.step with
      | mk later outcome =>
          rw [stepped] at run onward
          cases outcome with
          | ok goesOn =>
              cases goesOn with
              | true => exact ih onward run
              | false => cases (Prod.mk.inj (Prod.mk.inj run).2).2
          | error why =>
              cases run
              exact ⟨m, h, stepped⟩

/-- A fault leaves the machine at an instruction with a place. -/
theorem trace_of_fault {program : List Stmt} {place : Option Location}
    (legal : listLegal false program) (runs : chunk.Runs (listCode 0 .top program ++ [exitLine place]))
    (steady : Steady chunk (listCode 0 .top program ++ [exitLine place]) .ground m)
    (bounded : m.Bounded)
    (failed : m.step = (after, .error fault)) : after.trace ≠ [] := by
  rcases steady with halted | ⟨offset, line, sound⟩
  · rw [step_halted halted] at failed
    cases (Prod.mk.inj failed).2
  · have during := sound.during runs.assembled bounded
    rw [failed] at during
    have loaded : after.chunk = some chunk := during.chunk.trans sound.loaded
    have here : after.offset = offset := during.offset
    have known : (chunk.locate after.offset).isSome := by
      rcases Chunk.place_or_exit legal sound.listed with known | rfl
      · rw [here]
        exact runs.assembled.locate_isSome sound.listed known
      · have stops := sound.step_exit runs.assembled rfl
        cases failed.symm.trans stops
    obtain ⟨found, same⟩ := Option.isSome_iff_exists.mp known
    simp [trace, loaded, same]

end Machine

namespace Session

/-- Runs a chunk in a new machine and reports the outcome. -/
def runChunk (console : Console) (stackLimit frameLimit : Nat) (chunk : Chunk) : IO Exit := do
  let (after, fault?) ← console.finish ((Machine.new stackLimit frameLimit).load chunk)
  match fault? with
  | none => return .normal
  | some fault => return .message (faultReport after fault)

/-- What the console does with the program in a text whose chunk is given: it runs the chunk. Where
the run comes to an end, its output is printed and its outcome is reported; a fault is reported
with places. -/
structure Reported (console : Console) (stackLimit frameLimit : Nat) (file text : String)
    (chunk : Chunk) : Prop where
  runs : console.runText stackLimit frameLimit file text =
    runChunk console stackLimit frameLimit chunk
  halted : ∀ count steps after,
    ((Machine.new stackLimit frameLimit).load chunk).runFor 0 count = (after, steps, .halted) →
      ∃ pieces, String.join pieces = after.printed ∧
        console.runText stackLimit frameLimit file text = (do
          console.printAll pieces
          return .normal)
  failed : ∀ count steps after fault,
    ((Machine.new stackLimit frameLimit).load chunk).runFor 0 count =
        (after, steps, .failed fault) →
      after.trace ≠ [] ∧ ∃ pieces, String.join pieces = after.printed ∧
        console.runText stackLimit frameLimit file text = (do
          console.printAll pieces
          return .message (faultReport after fault))

/-- What comes of a text: nothing in the front end goes wrong but what is reported as a mistake in
the text, and then nothing is run and nothing is printed. -/
structure Contained (file text : String) : Prop where
  convertible : (TokenStream.ofText file text).Convertible
  outcome :
    (∃ diagnostic, compile file text = .error (.refused diagnostic) ∧
      ∀ console stackLimit frameLimit, Console.runText console stackLimit frameLimit file text =
        pure (.message ("compilation error: " ++ diagnostic.message))) ∨
    ∃ chunk, compile file text = .ok chunk ∧ Complete file text chunk ∧
      ∀ console stackLimit frameLimit, Reported console stackLimit frameLimit file text chunk

theorem runText_eq {file text : String} {chunk : Chunk} (compiled : compile file text = .ok chunk)
    (console : Console) (stackLimit frameLimit : Nat) :
    console.runText stackLimit frameLimit file text =
      runChunk console stackLimit frameLimit chunk := by
  rw [Console.runText, compiled]
  rfl

theorem reported {file text : String} {chunk : Chunk} (compiled : compile file text = .ok chunk)
    (complete : Complete file text chunk) (console : Console) (stackLimit frameLimit : Nat) :
    Reported console stackLimit frameLimit file text chunk where
  runs := runText_eq compiled console stackLimit frameLimit
  halted := by
    intro count steps after run
    obtain ⟨pieces, joined, same⟩ := @Console.finishes console _ _ _ _ _ run nofun
    refine ⟨pieces, joined, ?_⟩
    rw [runText_eq compiled, runChunk, same, bind_assoc]
    rfl
  failed := by
    intro count steps after fault run
    constructor
    · obtain ⟨program, -, added⟩ := complete.whole
      obtain ⟨legal, place, assembled⟩ := Chunk.assembled_of_addProgram added
      have runs := Chunk.Runs.of_assembled legal assembled
      have start := Machine.steady_load runs stackLimit frameLimit
      have bounded := (Machine.bounded_new stackLimit frameLimit).load chunk
      have keeps : ∀ m : Machine, m.Steady chunk _ .ground ∧ m.Bounded →
          m.step.1.Steady chunk _ .ground ∧ m.step.1.Bounded :=
        fun m h => ⟨h.1.step runs rfl, h.2.step⟩
      obtain ⟨before, ⟨steady, bounded⟩, failed⟩ := Machine.before_fault keeps ⟨start, bounded⟩ run
      exact Machine.trace_of_fault legal runs steady bounded failed
    · obtain ⟨pieces, joined, same⟩ := @Console.finishes console _ _ _ _ _ run nofun
      refine ⟨pieces, joined, ?_⟩
      rw [runText_eq compiled, runChunk, same, bind_assoc]
      rfl

/-- No text makes a session fail in a way that was not foreseen. -/
theorem contained (file text : String) : Contained file text where
  convertible := TokenStream.ofText_convertible file text
  outcome := by
    rcases compile_cases file text with ⟨diagnostic, refused⟩ | ⟨chunk, compiled, complete⟩
    · refine .inl ⟨diagnostic, refused, ?_⟩
      intro console stackLimit frameLimit
      rw [Console.runText, refused]
      rfl
    · exact .inr ⟨chunk, compiled, complete, reported compiled complete⟩

end Session

end StackScript
