/-
# Programs below programs

Two texts that are programs can be written one below the other. The whole is a program too: its
statements are those of the first text, where they were, and then those of the second one, as many
lines further down as the first text takes up.
-/

import Mathlib
import StackScript.Proofs.Syntax.FirstError
import StackScript.Proofs.Syntax.Places

namespace StackScript.Syntax

variable {bound bound' limit count : Nat} {stop : Diagnostic} {tokens more : List Token}
  {body : List Stmt} (move : Location → Location)

/-- A statement takes a token at least. -/
theorem statement_shorter {token : Token} {rest later : List Token} {first : Stmt}
    (read : statement bound limit (token :: rest) = .ok (first, later)) :
    later.length ≤ rest.length := by
  obtain ⟨taken, split, derived, -⟩ := statement_takes bound limit first later read
  obtain ⟨word, behind, rfl, -⟩ := derived.shaped
  have same := congrArg List.length split
  simp only [List.length_cons, List.length_append] at same
  omega

/-- A wider bound on lists and chains makes no difference. -/
theorem statement_widened {later : List Token} {first : Stmt} (small : tokens.length < bound)
    (le : bound ≤ bound') (read : statement bound limit tokens = .ok (first, later)) :
    statement bound' limit tokens = .ok (first, later) := by
  obtain ⟨taken, split, -, again⟩ :=
    Reader.Follows.settled (fun _ : Unit => statement_tracks le (le_refl limit) tokens small) read
  rw [split]
  exact again () later rfl

/-- Tokens are read as statements, one after the other up to the last token. -/
inductive Sequence (bound limit : Nat) : List Token → List Stmt → Prop
  | nil : Sequence bound limit [] []
  | cons {token : Token} {rest later : List Token} {first : Stmt} {others : List Stmt} :
      statement bound limit (token :: rest) = .ok (first, later) →
        Sequence bound limit later others → Sequence bound limit (token :: rest) (first :: others)

theorem sequence_of_statements (read : statements limit bound stop count tokens = .ok body) :
    Sequence bound limit tokens body := by
  induction count generalizing tokens body with
  | zero =>
      cases tokens with
      | nil =>
          cases read
          exact .nil
      | cons token rest => cases read
  | succ count ih =>
      cases tokens with
      | nil =>
          cases read
          exact .nil
      | cons token rest =>
          cases found : statement bound limit (token :: rest) with
          | error failure =>
              rw [statements_of_error found] at read
              cases read
          | ok p =>
              rw [statements_of_ok found] at read
              cases read' : statements limit bound stop count p.2 with
              | error diagnostic =>
                  rw [read'] at read
                  cases read
              | ok others =>
                  rw [read'] at read
                  cases read
                  exact .cons found (ih read')

namespace Sequence

theorem length_le (h : Sequence bound limit tokens body) : body.length ≤ tokens.length := by
  induction h with
  | nil => exact le_refl 0
  | cons read _ ih => exact Nat.succ_le_succ (le_trans ih (statement_shorter read))

theorem statements (h : Sequence bound limit tokens body) (stop : Diagnostic)
    (enough : body.length ≤ count) : statements limit bound stop count tokens = .ok body := by
  induction h generalizing count with
  | nil => rw [Syntax.statements]
  | cons read _ ih =>
      cases count with
      | zero => cases enough
      | succ count =>
          rw [statements_of_ok read, ih (Nat.le_of_succ_le_succ enough)]
          rfl

/-- Statements are read again at other places, and behind them others that begin with no `else`. -/
theorem join {others : List Stmt} (h : Sequence bound limit tokens body)
    (small : tokens.length < bound) (le : bound ≤ bound') (behind : NoElse more)
    (next : Sequence bound' limit more others) :
    Sequence bound' limit (tokens.map (Token.relocate move) ++ more)
      (body.map (Stmt.relocate move) ++ others) := by
  induction h with
  | nil => exact next
  | @cons token rest later first body read _ ih =>
      have carries : Reader.Carries move NoElse (Stmt.relocate move) (statement bound' limit)
          (statement bound' limit) := statement_carries bound' limit
      have shorter : later.length < bound :=
        (statement_shorter read).trans_lt (Nat.lt_of_succ_lt small)
      exact .cons (carries.again (statement_widened small le read) fun _ => behind) (ih shorter)

end Sequence

/-- Moved tokens have the same kinds. -/
theorem noElse_relocate (h : NoElse tokens) : NoElse (tokens.map (Token.relocate move)) := by
  cases tokens with
  | nil => exact h
  | cons token rest => exact h

section Programs

variable {stream upper lower : TokenStream} {others : List Stmt}

theorem statements_of_programOf (h : programOf limit stream = .ok body) :
    statements limit (stream.significant.length + 1) (ending stream)
      (stream.significant.length + 1) stream.significant = .ok body := by
  rw [programOf, problem_of_programOf h] at h
  cases read : statements limit (stream.significant.length + 1) (ending stream)
      (stream.significant.length + 1) stream.significant with
  | error diagnostic =>
      rw [read] at h
      cases h
  | ok found =>
      rw [read] at h
      cases h
      rfl

theorem programOf_of_sequence (fine : stream.problem = none)
    (h : Sequence (stream.significant.length + 1) limit stream.significant body) :
    programOf limit stream = .ok body := by
  rw [programOf_of_ok (h.statements _ (Nat.le_succ_of_le h.length_le)), fine]

/-- The tokens of a program and behind them those of another one, at other places, are those of a
program. -/
theorem programOf_append (tokens : stream.significant = upper.significant ++
      lower.significant.map (Token.relocate move)) (fine : stream.problem = none)
    (h : programOf limit upper = .ok body) (h' : programOf limit lower = .ok others) :
    programOf limit stream = .ok (body ++ others.map (Stmt.relocate move)) := by
  have read := statements_of_programOf h
  have read' := statements_of_programOf h'
  have starts : NoElse (lower.significant ++ []) :=
    noElse_of_statements (statements_sound read').shaped nofun
  have long := congrArg List.length tokens
  rw [List.append_nil] at starts
  rw [List.length_append, List.length_map] at long
  apply programOf_of_sequence fine
  have below := (sequence_of_statements read').join move (Nat.lt_succ_self _)
    (show _ ≤ stream.significant.length + 1 by omega) (show NoElse [] from nofun) .nil
  rw [List.append_nil, List.append_nil] at below
  have whole := (sequence_of_statements read).join id (Nat.lt_succ_self _)
    (show _ ≤ stream.significant.length + 1 by omega) (noElse_relocate move starts) below
  rw [funext Token.relocate_id, funext Stmt.relocate_id, List.map_id', List.map_id', ← tokens]
    at whole
  exact whole

/-- Two programs, one below the other, are a program, with the statements of both. -/
theorem programOf_join {file first second : String}
    (h : programOf limit (TokenStream.ofText file first) = .ok body)
    (h' : programOf limit (TokenStream.ofText file second) = .ok others) :
    programOf limit (TokenStream.ofText file (first ++ "\n" ++ second)) =
      .ok (body ++ others.map (Stmt.relocate (.down (first.toList.count '\n' + 1)))) := by
  obtain ⟨tokens, fine⟩ := TokenStream.ofText_join file first second (problem_of_programOf h)
  exact programOf_append _ tokens (fine (problem_of_programOf h')) h h'

/-- A conditional with a comment behind it, and a statement on the next line. -/
def commented : List Stmt :=
  [.ifThen ⟨"t", 1, 1⟩ (.reference ⟨"t", 1, 4⟩ "a")
    (.expression ⟨"t", 1, 6⟩ (.reference ⟨"t", 1, 6⟩ "b"))]

set_option maxRecDepth 20000 in
theorem programOf_join_commented :
    let next : List Stmt := [.expression ⟨"t", 1, 1⟩ (.reference ⟨"t", 1, 1⟩ "c")]
    programOf 10 (TokenStream.ofText "t" "if(a)b;//") = .ok commented ∧
      programOf 10 (TokenStream.ofText "t" "c;") = .ok next ∧
        programOf 10 (TokenStream.ofText "t" ("if(a)b;//" ++ "\n" ++ "c;")) =
          .ok (commented ++ [.expression ⟨"t", 2, 1⟩ (.reference ⟨"t", 2, 1⟩ "c")]) := by
  intro next
  have upper : programOf 10 (TokenStream.ofText "t" "if(a)b;//") = .ok commented := by cbv
  have lower : programOf 10 (TokenStream.ofText "t" "c;") = .ok next := by cbv
  exact ⟨upper, lower, programOf_join upper lower⟩

end Programs

end StackScript.Syntax
