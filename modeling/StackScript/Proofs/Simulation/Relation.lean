/-
# Worlds and configurations

How the state of a direct evaluation shows in a configuration of the machine. Data
stand for values, global names for global names, and the local variables of the
innermost call lie on the stack above its frame, the last one on top.
-/

import Mathlib.Data.List.Forall2
import StackScript.Proofs.Draft.Scheme
import StackScript.Proofs.Evaluation.Basic
import StackScript.Proofs.Simulation.Config

namespace StackScript

open Line (extent)

/-- A value that a datum stands for. A function has its body somewhere in the code. -/
inductive Datum.Stands (chunk : Chunk) : Datum → Value → Prop
  | number (value : Float) : Stands chunk (.number value) (.number value)
  | bool (value : Bool) : Stands chunk (.bool value) (.bool value)
  | string (value : String) : Stands chunk (.string value) (.string value)
  | null : Stands chunk .null .null
  | function {name : String} {parameters : List Parameter} {body : List Stmt}
      {start : Nat} {bodyPlace : Location} :
      bodyLegal body →
        chunk.Presents start (bodyCode start (.ofBody start parameters) bodyPlace body) →
          Stands chunk (.function name parameters body)
            (.function { name, arity := parameters.length, start := start })

/-- Outcomes that stand for each other: data that stand for values, or the same fault. -/
inductive Datum.Outcome (chunk : Chunk) : Except Fault Datum → Except Fault Value → Prop
  | ok {datum : Datum} {value : Value} : datum.Stands chunk value →
      Outcome chunk (.ok datum) (.ok value)
  | error (fault : Fault) : Outcome chunk (.error fault) (.error fault)

namespace Datum

variable {chunk : Chunk} {first second datum : Datum} {x y value : Value}

theorem Stands.kind_eq (h : datum.Stands chunk value) : datum.kind = value.kind := by
  cases h <;> rfl

theorem Stands.text_eq (h : datum.Stands chunk value) : datum.text = value.text := by
  cases h with
  | bool value => cases value <;> rfl
  | _ => rfl

theorem calculate_outcome (operator : String) {operation : Float → Float → Datum}
    {onValues : Float → Float → Value}
    (same : ∀ p q, (operation p q).Stands chunk (onValues p q))
    (h : first.Stands chunk x) (h' : second.Stands chunk y) :
    Outcome chunk (calculate operator operation first second)
      (Value.arithmetic operator onValues x y) := by
  cases h <;> cases h' <;> first | exact .ok (same _ _) | exact .error _

theorem equal_outcome (h : first.Stands chunk x) (h' : second.Stands chunk y) :
    Outcome chunk (equal first second) (Value.equality x y) := by
  cases h <;> cases h' <;> first | exact .ok (.bool _) | exact .error _

theorem invert_outcome (h : datum.Stands chunk value) :
    Outcome chunk datum.invert value.inverted := by
  cases h <;> first | exact .ok (.bool _) | exact .error _

theorem negate_outcome (h : datum.Stands chunk value) :
    Outcome chunk datum.negate value.negated := by
  cases h <;> first | exact .ok (.number _) | exact .error _

end Datum

/-- The local variables of a call, and the values that they have on the stack. Outside
of calls there are none. -/
inductive Locals (chunk : Chunk) : Context → Option Bindings → List Value → Prop
  | outside : Locals chunk .top none []
  | inside {start : Nat} {locals : Bindings} {values : List Value} :
      List.Forall₂ (Datum.Stands chunk) (locals.map Prod.snd) values.reverse →
        Locals chunk ⟨some start, locals.map Prod.fst⟩ (some locals) values

section Lookup

variable {R : Datum → Value → Prop} {locals : Bindings} {values : List Value}

/-- A name that is found among the local variables has a value at the same place, and
both may be changed there. -/
theorem Bindings.find_related (name : String)
    (h : List.Forall₂ R (locals.map Prod.snd) values) :
    match (locals.map Prod.fst).findIdx? (· == name) with
    | none => locals.lookup name = none
    | some index => ∃ datum value, locals.lookup name = some datum ∧ R datum value ∧
        values[index]? = some value ∧
        ∀ datum' value', R datum' value' →
          (locals.update name datum').map Prod.fst = locals.map Prod.fst ∧
            List.Forall₂ R ((locals.update name datum').map Prod.snd) (values.set index value') := by
  induction locals generalizing values with
  | nil => rfl
  | cons head rest ih =>
      obtain ⟨other, old⟩ := head
      cases h with
      | cons related tail =>
          rename_i value values
          rw [List.map_cons, List.findIdx?_cons]
          by_cases same : other = name
          · subst same
            simp only [beq_self_eq_true, if_true]
            refine ⟨old, value, by simp, related, rfl, ?_⟩
            intro datum' value' related'
            simp [Bindings.update, related', tail]
          · have apart : ¬ name = other := fun eq => same eq.symm
            have later := ih tail
            simp only [beq_eq_false_iff_ne.mpr same, Bool.false_eq_true, if_false]
            cases found : (rest.map Prod.fst).findIdx? (· == name) with
            | none =>
                rw [found] at later
                simpa [List.lookup_cons, beq_eq_false_iff_ne.mpr apart] using later
            | some index =>
                rw [found] at later
                obtain ⟨datum, value', known, related', at', change⟩ := later
                refine ⟨datum, value', ?_, related', at', ?_⟩
                · simpa [List.lookup_cons, beq_eq_false_iff_ne.mpr apart] using known
                · intro datum' new related''
                  obtain ⟨names, all⟩ := change datum' new related''
                  simp [Bindings.update, apart, names, all, related]

theorem reverse_set {α : Type} {items : List α} {index : Nat} (item : α)
    (within : index < items.length) :
    (items.set (items.length - 1 - index) item).reverse = items.reverse.set index item := by
  apply List.ext_getElem
  · simp
  · intro place before after
    simp only [List.length_reverse, List.length_set] at before
    simp only [List.getElem_reverse, List.getElem_set, List.length_set]
    by_cases same : index = place
    · rw [if_pos same, if_pos (by omega)]
    · rw [if_neg same, if_neg (by omega)]

end Lookup

namespace Locals

variable {chunk : Chunk} {ctx : Context} {locals : Option Bindings} {values : List Value}

theorem length_eq (h : Locals chunk ctx locals values) :
    values.length = ctx.names.length ∧ locals.elim 0 List.length = ctx.names.length := by
  cases h with
  | outside => exact ⟨rfl, rfl⟩
  | inside related =>
      have length := related.length_eq
      rw [List.length_map, List.length_reverse] at length
      simp [length]

/-- Only calls have local variables. -/
theorem home_isSome (h : Locals chunk ctx locals values) {env : Bindings}
    (found : locals = some env) : ctx.home.isSome := by
  cases h with
  | outside => cases found
  | inside => rfl

/-- A name without a slot is not local. -/
theorem lookup_none (h : Locals chunk ctx locals values) {name : String}
    (found : ctx.slot? name = none) : (locals.bind fun locals => locals.lookup name) = none := by
  cases h with
  | outside => rfl
  | inside related =>
      have spec := Bindings.find_related name related
      rw [Context.slot?, Option.map_eq_none_iff] at found
      simp only [found] at spec
      exact spec

/-- A name with a slot is local. Its value is in the slot, and may be changed there. -/
theorem lookup_some (h : Locals chunk ctx locals values) {name : String} {slot : Nat}
    (found : ctx.slot? name = some slot) :
    ∃ env datum, locals = some env ∧ env.lookup name = some datum ∧
      ∃ within : slot < values.length, datum.Stands chunk values[slot] ∧
        ∀ datum' value', Datum.Stands chunk datum' value' →
          Locals chunk ctx (some (Bindings.update name datum' env)) (values.set slot value') := by
  cases h with
  | outside => cases found
  | inside related =>
      rename_i start env
      have spec := Bindings.find_related name related
      rw [Context.slot?, Option.map_eq_some_iff] at found
      obtain ⟨index, place, rfl⟩ := found
      simp only [place] at spec
      obtain ⟨datum, value, known, stands, at', change⟩ := spec
      obtain ⟨within, rfl⟩ := List.getElem?_eq_some_iff.mp at'
      have length := related.length_eq
      rw [List.length_map, List.length_reverse] at length
      rw [List.length_reverse] at within
      simp only [List.length_map, length]
      refine ⟨env, datum, rfl, known, by omega, ?_, ?_⟩
      · rw [List.getElem_reverse] at stands
        exact stands
      · intro datum' value' stands'
        obtain ⟨names, all⟩ := change datum' value' stands'
        rw [← names]
        refine .inside ?_
        rw [reverse_set value' within]
        exact all

end Locals

/-- The globals and the output are the same in a configuration. -/
structure Shares (chunk : Chunk) (w : World) (c : Config) : Prop where
  globals : ∀ name,
    Option.Rel (Datum.Stands chunk) (w.globals.lookup name) (c.globals.find? name)
  output : c.output = w.output

theorem Shares.congr {chunk : Chunk} {w : World} {c d : Config} (h : Shares chunk w c)
    (globals : d.globals = c.globals) (output : d.output = c.output) : Shares chunk w d :=
  ⟨globals ▸ h.globals, output.trans h.output⟩

theorem Shares.find_none {chunk : Chunk} {w : World} {c : Config} (h : Shares chunk w c)
    {name : String} (missing : w.globals.lookup name = none) :
    c.globals.find? name = none := by
  have related := h.globals name
  rw [missing] at related
  cases found : c.globals.find? name with
  | none => rfl
  | some value =>
      rw [found] at related
      cases related

theorem Shares.find_some {chunk : Chunk} {w : World} {c : Config} (h : Shares chunk w c)
    {name : String} {datum : Datum} (known : w.globals.lookup name = some datum) :
    ∃ value, c.globals.find? name = some value ∧ datum.Stands chunk value := by
  have related := h.globals name
  rw [known] at related
  cases found : c.globals.find? name with
  | none =>
      rw [found] at related
      cases related
  | some value =>
      rw [found] at related
      cases related with
      | some stands => exact ⟨value, rfl, stands⟩

/-- The state of an evaluation shows in a configuration. Of the stack, what lies below
the local variables is given, and what lies above them. -/
structure Represents (chunk : Chunk) (ctx : Context) (base : List Value) (frames : List Nat)
    (extra : List Value) (w : World) (c : Config) : Prop where
  stack : ∃ values, c.stack = base ++ values ++ extra ∧ Locals chunk ctx w.locals values
  onFrames : c.frames = frames
  frame : ctx.home.isSome → ∃ earlier, frames = earlier ++ [base.length]
  shares : Shares chunk w c

/-- A configuration that is about to return a value from a call. -/
structure Leaves (chunk : Chunk) (base : List Value) (frames : List Nat) (value : Value)
    (w : World) (c : Config) : Prop where
  reads : ∃ bare, chunk.Reads c.offset (.plain .ret bare)
  stack : ∃ locals, c.stack = base ++ locals ++ [value]
  onFrames : c.frames = frames
  shares : Shares chunk w c

namespace Represents

variable {chunk : Chunk} {ctx : Context} {base extra taken : List Value} {frames : List Nat}
  {w : World} {c : Config}

/-- A jump changes nothing but the offset. -/
theorem jump (h : Represents chunk ctx base frames extra w c) {distance : Int} {target : Nat}
    (reads : chunk.Reads c.offset (.jmp distance))
    (lands : (target : Int) = (c.offset + Opcode.jmp.size : Nat) + distance)
    (inside : target ≤ chunk.size) :
    ∃ d, (c.machine chunk).Moves (d.machine chunk) ∧ d.offset = target ∧
      Represents chunk ctx base frames extra w d :=
  ⟨_, Config.moves_jmp reads lands inside, rfl,
    ⟨h.stack, h.onFrames, h.frame, h.shares.congr rfl rfl⟩⟩

/-- What lies on top may be exchanged, as long as the local variables stay. -/
theorem exchange (h : Represents chunk ctx base frames (extra ++ taken) w c) :
    ∃ kept, c.stack = kept ++ taken ∧
      ∀ {others : List Value} {later : World} {d : Config}, d.stack = kept ++ others →
        d.frames = c.frames → later.locals = w.locals → Shares chunk later d →
          Represents chunk ctx base frames (extra ++ others) later d := by
  obtain ⟨values, stack, locals⟩ := h.stack
  refine ⟨base ++ values ++ extra, by rw [stack, List.append_assoc _ extra], ?_⟩
  intro others later d onStack onFrames same shares
  refine ⟨⟨values, ?_, ?_⟩, onFrames.trans h.onFrames, h.frame, shares⟩
  · rw [onStack, List.append_assoc _ extra]
  · rw [same]
    exact locals

/-- What lies on top may be taken away. -/
theorem uncover (h : Represents chunk ctx base frames (extra ++ taken) w c) :
    ∃ kept, c.stack = kept ++ taken ∧
      ∀ {later : World} {d : Config}, d.stack = kept → d.frames = c.frames →
        later.locals = w.locals → Shares chunk later d →
          Represents chunk ctx base frames extra later d := by
  obtain ⟨kept, stack, onward⟩ := h.exchange
  refine ⟨kept, stack, ?_⟩
  intro later d onStack onFrames same shares
  rw [← List.append_nil kept] at onStack
  rw [← List.append_nil extra]
  exact onward onStack onFrames same shares

end Represents

end StackScript
