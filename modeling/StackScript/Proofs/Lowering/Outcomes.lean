/-
# What comes of a statement

A statement is accepted with as many bytes as its tree says, or it is refused. It is refused for
the first thing that is wrong with its scopes, or for a limit that it comes upon. A jump or a
function start is beyond its limit exactly if the tree says so.
-/

import StackScript.Proofs.Lowering.Judging
import StackScript.Proofs.Lowering.Refusal

namespace StackScript

/-- Was a statement refused, and for a cause of the given kind? -/
def RefusedFor (outcome : Except Chunk.Failure Nat) (kind : Diagnostic.Cause → Prop) : Prop :=
  ∃ place cause, kind cause ∧ outcome = .error (.refused ⟨place, cause⟩)

/-- Was a statement accepted, or refused for a cause of the given kind? -/
def StopsOnlyFor (outcome : Except Chunk.Failure Nat) (kind : Diagnostic.Cause → Prop) : Prop :=
  (∃ bytes, outcome = .ok bytes) ∨ RefusedFor outcome kind

/-- Where there is no other cause, a condition tells refusal if it follows from it and excludes
acceptance. -/
theorem StopsOnlyFor.refused_iff {outcome : Except Chunk.Failure Nat}
    {kind : Diagnostic.Cause → Prop} {condition : Prop} (h : StopsOnlyFor outcome kind)
    (follows : RefusedFor outcome kind → condition)
    (excludes : ∀ bytes, outcome = .ok bytes → ¬ condition) :
    RefusedFor outcome kind ↔ condition := by
  refine ⟨follows, fun holds => ?_⟩
  rcases h with ⟨bytes, accepted⟩ | refused
  · exact absurd holds (excludes bytes accepted)
  · exact refused

namespace Chunk

variable {chunk later : Chunk} {limit : Nat} {st : Stmt} {outcome : Except Failure Nat}

/-- The verdict on a statement at the end of a chunk. -/
theorem judged (chunk : Chunk) (limit : Nat) (st : Stmt) :
    Lower.Judged (st.Overlong false) (st.Late chunk.size)
      (Lowering.statement ⟨st.location, limit⟩ st) ⟨chunk, none⟩ (st.faults none)
      fun _ later => Lowering.Accepted chunk.size none st later :=
  have standing : Standing chunk.size none ⟨chunk, none⟩ := ⟨rfl, .outside⟩
  Lowering.statement_judges st standing id (fun _ => id) _

/-- There is nothing wrong with a statement that has been added, and its size is what its tree
says. -/
theorem accepted_of_addStatement {bytes : Nat}
    (added : chunk.addStatement limit st = (later, .ok bytes)) :
    st.faults none = [] ∧ later.size = chunk.size + bytes ∧ bytes = st.bytes false ∧
      ¬ st.Overlong false ∧ ¬ st.Late chunk.size := by
  obtain ⟨state, ran, rfl, count⟩ := ran_of_addStatement added
  have outcome := (judged chunk limit st).outcome
  rw [ran] at outcome
  obtain ⟨fine, accepted⟩ := outcome
  have size : state.chunk.size = chunk.size + st.bytes false := accepted.standing.size_eq
  exact ⟨fine, by omega, by omega, accepted.near, accepted.early rfl⟩

/-- A statement is refused for the first thing that is wrong with it, or for a limit. -/
theorem refused_of_addStatement {failure : Failure}
    (added : chunk.addStatement limit st = (later, .error failure)) :
    Lower.Stops (st.Overlong false) (st.Late chunk.size) failure ∨
      ∃ diagnostic, (st.faults none).head? = some diagnostic ∧ failure = .refused diagnostic ∧
        diagnostic.cause.isLimit = false := by
  have outcome := (judged chunk limit st).outcome
  unfold addStatement at added
  cases found : Lowering.statement ⟨st.location, limit⟩ st ⟨chunk, none⟩ with
  | ok value state =>
      rw [found] at added
      cases added
  | error failure state =>
      rw [found] at added outcome
      cases failure <;> cases added <;> exact outcome

/-- A statement that is refused for a limit has come upon it. -/
theorem stops_of_limit {place : Option Location} {cause : Diagnostic.Cause}
    (added : chunk.addStatement limit st = (later, .error (.refused ⟨place, cause⟩)))
    (limited : cause.isLimit = true) :
    Lower.Stops (st.Overlong false) (st.Late chunk.size) (.refused ⟨place, cause⟩) := by
  rcases refused_of_addStatement added with stops | ⟨diagnostic, -, same, proper⟩
  · exact stops
  · cases same
    rw [limited] at proper
    cases proper

/-- Jumps are refused only where one is too long. -/
theorem overlong_of_refused
    (added : chunk.addStatement limit st = (later, outcome))
    (refused : RefusedFor outcome (· = .jumpTooLarge)) : st.Overlong false := by
  obtain ⟨place, _, rfl, rfl⟩ := refused
  cases stops_of_limit added rfl with
  | jump _ far => exact far

/-- Functions are refused for where they start only where one starts too late. -/
theorem late_of_refused
    (added : chunk.addStatement limit st = (later, outcome))
    (refused : RefusedFor outcome fun cause => ∃ name, cause = .functionTooFar name) :
    st.Late chunk.size := by
  obtain ⟨place, _, ⟨name, rfl⟩, rfl⟩ := refused
  cases stops_of_limit added rfl with
  | start _ _ late => exact late

end Chunk

namespace Lowerer.Used

variable {lowerer next : Lowerer} {chunk later : Chunk} {limit : Nat} {st : Stmt}
  {outcome : Except Chunk.Failure Nat}

/-- The number of bytes of a statement that is accepted is what its tree says. Where nothing else is
refused, a jump is refused exactly if the tree says that one is too long, and a function is refused
for where it starts exactly if the tree says that one starts too late. -/
theorem sizes_exact (used : lowerer.Used)
    (added : lowerer.add limit chunk st = (next, later, outcome)) :
    (∀ bytes, outcome = .ok bytes →
      bytes = st.bytes false ∧ later.size = chunk.size + bytes) ∧
    (StopsOnlyFor outcome (· = .jumpTooLarge) →
      (RefusedFor outcome (· = .jumpTooLarge) ↔ st.Overlong false)) ∧
    (StopsOnlyFor outcome (fun cause => ∃ name, cause = .functionTooFar name) →
      (RefusedFor outcome (fun cause => ∃ name, cause = .functionTooFar name) ↔
        st.Late chunk.size)) := by
  have added := used.addStatement_eq added
  refine ⟨?_, ?_, ?_⟩
  · rintro bytes rfl
    obtain ⟨-, size, bytes, -⟩ := Chunk.accepted_of_addStatement added
    exact ⟨bytes, size⟩
  · refine fun only => only.refused_iff (Chunk.overlong_of_refused added) ?_
    rintro bytes rfl
    obtain ⟨-, -, -, near, -⟩ := Chunk.accepted_of_addStatement added
    exact near
  · refine fun only => only.refused_iff (Chunk.late_of_refused added) ?_
    rintro bytes rfl
    obtain ⟨-, -, -, -, early⟩ := Chunk.accepted_of_addStatement added
    exact early

end Lowerer.Used

/-- Behind 249 bytes a function would start its body at the first byte that is too late. -/
theorem Lowerer.sizes_exact_late :
    let chunk : Chunk := { Chunk.empty 256 with code := ⟨Array.replicate 249 0⟩ }
    ∃ later outcome, ({} : Lowerer).add 10 chunk .identity = ({}, later, outcome) ∧
      RefusedFor outcome (fun cause => ∃ name, cause = .functionTooFar name) ∧
        Stmt.identity.Late chunk.size := by
  intro chunk
  have refused : chunk.addStatement 10 .identity =
      ((chunk.addStatement 10 .identity).1,
        .error (.refused ⟨some default, .functionTooFar "same"⟩)) :=
    Chunk.eq_error_of_failure? (by decide +kernel)
  have added : ({} : Lowerer).add 10 chunk .identity =
      ({}, (chunk.addStatement 10 .identity).1,
        .error (.refused ⟨some default, .functionTooFar "same"⟩)) := by
    rw [Lowerer.add_new, ← refused]
  have late : RefusedFor (.error (.refused ⟨some default, .functionTooFar "same"⟩))
      (fun cause => ∃ name, cause = .functionTooFar name) := ⟨_, _, ⟨"same", rfl⟩, rfl⟩
  obtain ⟨-, -, exact_late⟩ := Used.sizes_exact .new added
  exact ⟨_, _, added, late, (exact_late (.inr late)).mp late⟩

namespace Lowerer.Used

variable {lowerer next : Lowerer} {chunk later : Chunk} {limit : Nat}
  {outcome : Except Chunk.Failure Nat}

/-- A function obeys the rules of scopes exactly if it is accepted, unless it comes upon a limit.
Otherwise it is refused for the first thing that is wrong with it. -/
theorem function_scoped {place bodyPlace : Location} {name : String}
    {parameters : List Parameter} {body : List Stmt} (roomy : chunk.Roomy) (used : lowerer.Used)
    (added : lowerer.add limit chunk (.function place name parameters bodyPlace body) =
      (next, later, outcome))
    (unlimited : ¬ RefusedFor outcome fun cause => cause.isLimit) :
    ((∃ bytes, outcome = .ok bytes) ↔ WellScoped parameters body) ∧
      (¬ WellScoped parameters body → ∃ diagnostic,
        (functionFaults parameters body).head? = some diagnostic ∧
          outcome = .error (.refused diagnostic)) := by
  have added := used.addStatement_eq added
  have faults : (Stmt.function place name parameters bodyPlace body).faults none =
      functionFaults parameters body := by simp [Stmt.faults, functionFaults]
  cases outcome with
  | ok bytes =>
      obtain ⟨fine, -⟩ := Chunk.accepted_of_addStatement added
      rw [faults, functionFaults_eq_nil] at fine
      exact ⟨⟨fun _ => fine, fun _ => ⟨bytes, rfl⟩⟩, fun wrong => absurd fine wrong⟩
  | error failure =>
      have first : ∃ diagnostic, (functionFaults parameters body).head? = some diagnostic ∧
          failure = .refused diagnostic := by
        rw [← faults]
        rcases Chunk.refused_of_addStatement added with stops | ⟨diagnostic, head, same, -⟩
        · cases stops with
          | malformed fault =>
              rcases Chunk.addStatement_cases roomy limit
                (.function place name parameters bodyPlace body) with
                ⟨found, same, -⟩ | ⟨grown, diagnostic, -, same⟩
              · cases (Prod.mk.inj (same.symm.trans added)).2
              · cases (Prod.mk.inj (same.symm.trans added)).2
          | _ => exact absurd ⟨_, _, rfl, rfl⟩ unlimited
        · exact ⟨diagnostic, head, same⟩
      obtain ⟨diagnostic, head, rfl⟩ := first
      have wrong : ¬ WellScoped parameters body := by
        rw [← functionFaults_eq_nil]
        rintro fine
        rw [fine] at head
        cases head
      refine ⟨⟨?_, fun obeyed => absurd obeyed wrong⟩, fun _ => ⟨diagnostic, head, rfl⟩⟩
      rintro ⟨bytes, accepted⟩
      cases accepted

end Lowerer.Used

/-- A function that hides its parameter in a block, and declares it again where it cannot be
reached. -/
def Stmt.hiding : Stmt :=
  .function default "f" [⟨default, "a"⟩] default
    [.block default [.declare default "a" (.literal default .null)],
      .declare default "b" (.reference default "a"),
      .ret default (some (.reference default "b")),
      .declare default "a" (.literal default .null)]

theorem Lowerer.function_scoped_hiding :
    ∃ later, (Chunk.empty 256).Roomy ∧
      ({} : Lowerer).add 10 (.empty 256) .hiding = ({}, later, .ok 14) ∧
      ¬ RefusedFor (.ok 14) (fun cause => cause.isLimit) ∧
      WellScoped [⟨default, "a"⟩]
        [.block default [.declare default "a" (.literal default .null)],
          .declare default "b" (.reference default "a"),
          .ret default (some (.reference default "b")),
          .declare default "a" (.literal default .null)] := by
  have added : ({} : Lowerer).add 10 (.empty 256) .hiding =
      ({}, ((Chunk.empty 256).addStatement 10 .hiding).1, .ok 14) :=
    Lowerer.add_of_bytes (by decide +kernel)
  have unlimited : ¬ RefusedFor (.ok 14) fun cause => cause.isLimit := nofun
  have roomy : (Chunk.empty 256).Roomy := Chunk.roomy_empty (by decide)
  have scopes := Used.function_scoped roomy .new added unlimited
  exact ⟨_, roomy, added, unlimited, scopes.1.mp ⟨14, rfl⟩⟩

/-- The tokens of a function that returns a sum of its parameter with itself, one in each column. -/
def Stmt.sumTokens (count : Nat) : List Token :=
  let head : List (TokenKind × String) :=
    [(.keyword .kwFn, "fn"), (.name, "f"), (.punctuator .leftParen, "("), (.name, "a"),
      (.punctuator .rightParen, ")"), (.punctuator .leftBrace, "\x7b"),
      (.keyword .kwReturn, "return"), (.name, "a")]
  let more : List (TokenKind × String) := [(.punctuator .plus, "+"), (.name, "a")]
  let tail : List (TokenKind × String) :=
    [(.punctuator .semicolon, ";"), (.punctuator .rightBrace, "\x7d")]
  ((head ++ (List.replicate count more).flatten ++ tail).zipIdx 1).map fun (mark, column) =>
    ⟨mark.1, mark.2, ⟨"", 1, column⟩⟩

/-- Is a program one function that nests too deeply, although it obeys the rules of scopes? -/
def nestsTooDeep : Except Diagnostic (List Stmt) → Bool
  | .ok [.function place name parameters bodyPlace body] =>
    (functionFaults parameters body).isEmpty &&
      Chunk.failure? ((Chunk.empty 256).addStatement Syntax.nestingLimit
        (.function place name parameters bodyPlace body)) ==
          some (.refused ⟨some place, .nestingTooDeep⟩)
  | _ => false

/-- The limit on nesting stands apart from the others: a chain of operators nests as deeply as it is
long, and what reads it does not notice. -/
theorem Lowerer.sum_refused :
    ∃ place name parameters bodyPlace body,
      Syntax.programOf Syntax.nestingLimit ⟨Stmt.sumTokens 501, ⟨"", 1, 1013⟩, none⟩ =
        .ok [.function place name parameters bodyPlace body] ∧
      WellScoped parameters body ∧
      (({} : Lowerer).add Syntax.nestingLimit (.empty 256)
        (.function place name parameters bodyPlace body)).2.2 =
          .error (.refused ⟨some place, .nestingTooDeep⟩) := by
  have deep : nestsTooDeep
      (Syntax.programOf Syntax.nestingLimit ⟨Stmt.sumTokens 501, ⟨"", 1, 1013⟩, none⟩) := by
    decide +kernel
  generalize Syntax.programOf Syntax.nestingLimit ⟨Stmt.sumTokens 501, ⟨"", 1, 1013⟩, none⟩ =
    result at deep ⊢
  unfold nestsTooDeep at deep
  split at deep
  · rename_i place name parameters bodyPlace body
    rw [Bool.and_eq_true, List.isEmpty_iff, functionFaults_eq_nil, beq_iff_eq] at deep
    refine ⟨place, name, parameters, bodyPlace, body, rfl, deep.1, ?_⟩
    rw [add_new, Chunk.eq_error_of_failure? deep.2]
  · cases deep

end StackScript
