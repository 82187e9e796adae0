/-
# Simulation

An evaluation is simulated from a configuration if the machine goes on from there
to where the outcome shows. If the evaluation ends with a fault, so does the
machine; if it has not got enough levels, the machine makes at least as many steps
as there are levels. There is one rule for each way to put evaluations together.
-/

import StackScript.Proofs.Simulation.Relation

namespace StackScript

namespace Eval

variable {α : Type} {w : World}

@[simp] theorem get_bind (f : World → Eval α) : (get >>= f) w = f w w := rfl

end Eval

/-- The machine does what an evaluation does. -/
structure Simulates {α : Type} (chunk : Chunk) (levels : Nat) (x : Eval α) (w : World) (c : Config)
    (post : α → World → Config → Prop) : Prop where
  outcome : match x w with
    | .ok value later => ∃ count d,
        Machine.Goes count (c.machine chunk) (d.machine chunk) ∧ post value later d
    | .error (.fault fault) later => ∃ count d,
        Machine.Goes count (c.machine chunk) (d.machine chunk) ∧ d.Fails chunk fault ∧
          Shares chunk later d
    | .error .exhausted later => ∃ (count : Nat) (d : Config), levels ≤ count ∧
        Machine.Goes count (c.machine chunk) (d.machine chunk) ∧ d.output = later.output

namespace Simulates

variable {α β : Type} {chunk : Chunk} {levels : Nat} {x : Eval α} {w : World} {c d : Config}
  {post : α → World → Config → Prop}

theorem of_ok (h : Simulates chunk levels x w c post) {value : α} {later : World}
    (found : x w = .ok value later) :
    ∃ count d, Machine.Goes count (c.machine chunk) (d.machine chunk) ∧ post value later d := by
  have outcome := h.outcome
  rw [found] at outcome
  exact outcome

theorem of_fault (h : Simulates chunk levels x w c post) {fault : Fault} {later : World}
    (found : x w = .error (.fault fault) later) :
    ∃ count d, Machine.Goes count (c.machine chunk) (d.machine chunk) ∧ d.Fails chunk fault ∧
      Shares chunk later d := by
  have outcome := h.outcome
  rw [found] at outcome
  exact outcome

theorem of_exhausted (h : Simulates chunk levels x w c post) {later : World}
    (found : x w = .error .exhausted later) :
    ∃ (count : Nat) (d : Config), levels ≤ count ∧
      Machine.Goes count (c.machine chunk) (d.machine chunk) ∧ d.output = later.output := by
  have outcome := h.outcome
  rw [found] at outcome
  exact outcome

theorem pure {value : α} (h : post value w c) : Simulates chunk levels (pure value) w c post :=
  ⟨0, c, .refl _, h⟩

/-- Steps of the machine come before the evaluation, and may make up for levels. -/
theorem after {count made : Nat} (goes : Machine.Goes count (c.machine chunk) (d.machine chunk))
    (enough : made ≤ count) (h : Simulates chunk levels x w d post) :
    Simulates chunk (levels + made) x w c post := by
  constructor
  have outcome := h.outcome
  cases found : x w with
  | ok value later =>
      rw [found] at outcome
      obtain ⟨more, last, rest, done⟩ := outcome
      exact ⟨_, last, goes.trans rest, done⟩
  | error stop later =>
      rw [found] at outcome
      cases stop with
      | fault fault =>
          obtain ⟨more, last, rest, done⟩ := outcome
          exact ⟨_, last, goes.trans rest, done⟩
      | exhausted =>
          obtain ⟨more, last, left, rest, done⟩ := outcome
          exact ⟨_, last, by omega, goes.trans rest, done⟩

theorem next (moves : (c.machine chunk).Moves (d.machine chunk))
    (h : Simulates chunk levels x w d post) : Simulates chunk levels x w c post :=
  after (.single moves) (Nat.zero_le 1) h

theorem deeper (moves : (c.machine chunk).Moves (d.machine chunk))
    (h : Simulates chunk levels x w d post) : Simulates chunk (levels + 1) x w c post :=
  after (.single moves) (Nat.le_refl 1) h

/-- Evaluations that follow each other hand over a configuration. -/
theorem bind {mid : α → World → Config → Prop} {f : α → Eval β}
    {post : β → World → Config → Prop} (first : Simulates chunk levels x w c mid)
    (rest : ∀ value later d, mid value later d → Simulates chunk levels (f value) later d post) :
    Simulates chunk levels (x >>= f) w c post := by
  have outcome := first.outcome
  cases found : x w with
  | ok value later =>
      rw [found] at outcome
      obtain ⟨count, d, goes, done⟩ := outcome
      have whole := (after goes (Nat.zero_le count) (rest value later d done)).outcome
      constructor
      rw [show (x >>= f) w = EStateM.bind x f w from rfl, EStateM.bind, found]
      exact whole
  | error stop later =>
      rw [found] at outcome
      constructor
      rw [show (x >>= f) w = EStateM.bind x f w from rfl, EStateM.bind, found]
      cases stop with
      | fault fault => exact outcome
      | exhausted => exact outcome

/-- What an evaluation does in other worlds does not matter. -/
theorem congr {y : Eval α} (same : y w = x w) (h : Simulates chunk levels x w c post) :
    Simulates chunk levels y w c post := by
  constructor
  rw [same]
  exact h.outcome

/-- An evaluation whose outcome is known can be passed over. -/
theorem known {value : α} {later : World} {f : α → Eval β} {post : β → World → Config → Prop}
    (found : x w = .ok value later) (rest : Simulates chunk levels (f value) later c post) :
    Simulates chunk levels (x >>= f) w c post := by
  constructor
  rw [show (x >>= f) w = EStateM.bind x f w from rfl, EStateM.bind, found]
  exact rest.outcome

/-- The machine may go on after the end of the evaluation. -/
theorem onward {mid : α → World → Config → Prop} (h : Simulates chunk levels x w c mid)
    (rest : ∀ value later d, mid value later d →
      ∃ count d', Machine.Goes count (d.machine chunk) (d'.machine chunk) ∧ post value later d') :
    Simulates chunk levels x w c post := by
  constructor
  have outcome := h.outcome
  cases found : x w with
  | ok value later =>
      rw [found] at outcome
      obtain ⟨count, d, goes, done⟩ := outcome
      obtain ⟨more, d', goesOn, done'⟩ := rest value later d done
      exact ⟨count + more, d', goes.trans goesOn, done'⟩
  | error stop later =>
      rw [found] at outcome
      cases stop with
      | fault fault => exact outcome
      | exhausted => exact outcome

theorem mono {mid : α → World → Config → Prop} (h : Simulates chunk levels x w c mid)
    (weaken : ∀ value later d, mid value later d → post value later d) :
    Simulates chunk levels x w c post :=
  h.onward fun value later d done => ⟨0, d, .refl _, weaken value later d done⟩

/-- A call hides the local variables, and brings them back at its end. -/
theorem inCall {arguments : Bindings}
    (body : Simulates chunk levels x { w with locals := some arguments } c post) :
    Simulates chunk levels (Eval.inCall arguments x) w c fun result later d =>
      ∃ inner, post result inner d ∧ later = { inner with locals := w.locals } := by
  refine .known rfl (.known rfl (body.bind ?_))
  intro result inner d done
  exact .known rfl (.pure ⟨inner, done, rfl⟩)

theorem fail {fault : Fault} (fails : c.Fails chunk fault) (shares : Shares chunk w c) :
    Simulates chunk levels (Eval.fail fault) w c post :=
  ⟨0, c, .refl _, fails, shares⟩

end Simulates

end StackScript
