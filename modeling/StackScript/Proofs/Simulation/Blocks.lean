/-
# Blocks and branches

What statements have in common: the ways in which variables come and go, and how the
machine chooses between two ways. At the end of a block the variables declared in it
are taken off the stack, so that the stack is again what it was.
-/

import StackScript.Proofs.Simulation.Expressions

namespace StackScript

open Line (extent)

/-- A context further inside has the same home, and perhaps more names. -/
structure Context.Within (ctx inner : Context) : Prop where
  home : inner.home = ctx.home
  names : ctx.names <:+ inner.names

namespace Context

theorem within_refl (ctx : Context) : ctx.Within ctx := ⟨rfl, List.suffix_refl _⟩

theorem within_after (ctx : Context) (st : Stmt) : ctx.Within (ctx.after st) := by
  refine ⟨ctx.after_home st, ?_⟩
  cases st with
  | declare place name value =>
      rw [after, declare]
      split
      · exact List.suffix_cons name ctx.names
      · exact List.suffix_refl _
  | _ => exact List.suffix_refl _

theorem within_afterAll (ctx : Context) (body : List Stmt) : ctx.Within (ctx.afterAll body) := by
  induction body generalizing ctx with
  | nil => exact ctx.within_refl
  | cons first rest ih =>
      have inner := ih (ctx.after first)
      have outer := ctx.within_after first
      exact ⟨inner.home.trans outer.home, outer.names.trans inner.names⟩

end Context

section Variables

variable {chunk : Chunk} {ctx inner : Context} {locals : Option Bindings} {values : List Value}

/-- A new local variable lies on top of the others. -/
theorem Locals.declare {datum : Datum} {value : Value} (h : Locals chunk ctx locals values)
    (home : ctx.home.isSome) (stands : datum.Stands chunk value) (name : String) :
    ∃ env, locals = some env ∧
      Locals chunk (ctx.declare name) (some ((name, datum) :: env)) (values ++ [value]) := by
  cases h with
  | outside => cases home
  | inside related =>
      rename_i start env
      refine ⟨env, rfl, @Locals.inside chunk start ((name, datum) :: env) (values ++ [value]) ?_⟩
      rw [List.map_cons, List.reverse_append]
      exact .cons stands related

/-- Outside of calls there are no local variables. -/
theorem Locals.eq_none (h : Locals chunk ctx locals values) (top : ¬ ctx.home.isSome) :
    locals = none := by
  cases h with
  | outside => rfl
  | inside => exact absurd rfl top

/-- Leaving a block takes the values of its variables off the stack. -/
theorem Locals.leave {before : Option Bindings} (h : Locals chunk inner locals values)
    (within : ctx.Within inner) (length : before.elim 0 List.length = ctx.names.length) :
    ∃ kept taken, values = kept ++ taken ∧
      taken.length = inner.names.length - ctx.names.length ∧
        Locals chunk ctx (Eval.leave before locals) kept := by
  obtain ⟨added, names⟩ := within.names
  cases h with
  | outside =>
      have empty : ctx = .top := by
        obtain ⟨home, names'⟩ := ctx
        obtain ⟨-, rfl⟩ := List.append_eq_nil_iff.mp names
        exact congrArg (Context.mk · []) within.home.symm
      subst empty
      exact ⟨[], [], rfl, rfl, .outside⟩
  | inside related =>
      rename_i start env
      have names : added ++ ctx.names = env.map Prod.fst := names
      have count : env.length - before.elim 0 List.length = added.length := by
        have total := congrArg List.length names
        rw [List.length_append, List.length_map] at total
        omega
      have kept : (env.drop added.length).map Prod.fst = ctx.names := by
        rw [List.map_drop, ← names, List.drop_left]
      have place : ctx = ⟨some start, (env.drop added.length).map Prod.fst⟩ := by
        rw [kept, show some start = ctx.home from within.home]
      have all := related.length_eq
      rw [List.length_map, List.length_reverse] at all
      refine ⟨values.take (values.length - added.length),
        values.drop (values.length - added.length), (List.take_append_drop _ _).symm, ?_, ?_⟩
      · have total := congrArg List.length names
        rw [List.length_append] at total
        simp only [List.length_map] at total ⊢
        rw [List.length_drop]
        omega
      · rw [place, Eval.leave, Option.map_some, count]
        refine .inside ?_
        rw [List.map_drop, List.reverse_take, Nat.sub_sub_self (by omega)]
        exact List.forall₂_drop added.length related

end Variables

section Popping

variable {chunk : Chunk} {home : Option Nat} {place : Location} {height : Nat}

/-- Lines that take values off the stack do so. -/
theorem Config.goes_pops {c : Config} {kept taken : List Value}
    (presents : chunk.Presents c.offset (popLines home place height taken.length))
    (stack : c.stack = kept ++ taken) :
    ∃ d : Config, Machine.Goes taken.length (c.machine chunk) (d.machine chunk) ∧
      d.offset = c.offset + extent (popLines home place height taken.length) ∧ d.stack = kept ∧
        d.frames = c.frames ∧ d.globals = c.globals ∧ d.output = c.output := by
  induction taken using List.reverseRecOn generalizing c with
  | nil => exact ⟨c, .refl _, rfl, by simpa using stack, rfl, rfl, rfl⟩
  | append_singleton rest last ih =>
      rw [List.length_append, List.length_singleton, popLines] at presents ⊢
      rw [← List.append_assoc] at stack
      obtain ⟨d, goes, offset, onStack, frames, globals, output⟩ :=
        @ih (c.next (.plain .pop rfl) (kept ++ rest)) presents.tail rfl
      refine ⟨d, ?_, ?_, onStack, frames, globals, output⟩
      · exact .cons (Config.moves_pop presents.head presents.inside stack) goes
      · rw [offset, Line.extent_cons]
        exact Nat.add_assoc _ _ _

end Popping

section Judgements

variable {chunk : Chunk} {levels : Nat} {ctx inner : Context} {base : List Value}
  {frames : List Nat} {w : World} {c : Config} {place : Location}

/-- The end of a block, where the variables declared in it go. -/
theorem Represents.leave {before : Option Bindings}
    (h : Represents chunk inner base frames [] w c) (within : ctx.Within inner)
    (length : before.elim 0 List.length = ctx.names.length)
    (presents : chunk.Presents c.offset (ctx.closing inner place)) :
    ∃ count d, Machine.Goes count (c.machine chunk) (d.machine chunk) ∧
      Represents chunk ctx base frames [] { w with locals := Eval.leave before w.locals } d ∧
        d.offset = c.offset + extent (ctx.closing inner place) := by
  obtain ⟨values, stack, locals⟩ := h.stack
  obtain ⟨kept, taken, rfl, count, left⟩ := locals.leave within length
  unfold Context.closing at presents ⊢
  rw [← count] at presents ⊢
  rw [List.append_nil, ← List.append_assoc] at stack
  obtain ⟨d, goes, offset, onStack, onFrames, globals, output⟩ := Config.goes_pops presents stack
  have shares := h.shares.congr globals output
  refine ⟨taken.length, d, goes, ⟨⟨kept, by simpa using onStack, left⟩, ?_, ?_, ?_⟩, offset⟩
  · exact onFrames.trans h.onFrames
  · exact fun inside => h.frame (by rw [within.home]; exact inside)
  · exact ⟨shares.globals, shares.output⟩

/-- A block around statements. -/
theorem Simulates.inBlock {x : Eval (Option Datum)} {stop : Nat} (within : ctx.Within inner)
    (outside : Represents chunk ctx base frames [] w c)
    (presents : chunk.Presents stop (ctx.closing inner place))
    (h : Simulates chunk levels x w c (Ended chunk inner base frames stop)) :
    Simulates chunk levels (Eval.inBlock x) w c
      (Ended chunk ctx base frames (stop + extent (ctx.closing inner place))) := by
  obtain ⟨values, -, locals⟩ := outside.stack
  refine .known rfl (h.bind ?_)
  rintro (_ | datum) later d ended
  · obtain ⟨here, rfl⟩ := ended
    obtain ⟨count, d', goes, left, offset⟩ := here.leave within locals.length_eq.2 presents
    exact .after goes (Nat.zero_le count) (.known rfl (.pure ⟨left, offset⟩))
  · obtain ⟨inside, value, stands, leaves⟩ := ended
    refine .known rfl (.pure ⟨within.home ▸ inside, value, stands, ?_⟩)
    exact { leaves with shares := ⟨leaves.shares.globals, leaves.shares.output⟩ }

/-- A condition decides whether some code is skipped, and must be a truth value. -/
theorem Represents.branch {β : Type} {f : Bool → Eval β} {post : β → World → Config → Prop}
    {datum : Datum} {value : Value} {height skipped : Nat} {rest : List Line}
    (h : Represents chunk ctx base frames ([] ++ [value]) w c) (stands : datum.Stands chunk value)
    (presents : chunk.Presents c.offset (ctx.line height place (.jz skipped) :: rest))
    (inside : skipped ≤ extent rest)
    (yes : ∀ {d}, Represents chunk ctx base frames [] w d →
      d.offset = c.offset + Opcode.jz.size → chunk.Presents d.offset rest →
        Simulates chunk levels (f true) w d post)
    (no : ∀ {d}, Represents chunk ctx base frames [] w d →
      d.offset = c.offset + Opcode.jz.size + skipped → Simulates chunk levels (f false) w d post) :
    Simulates chunk levels (Eval.lift datum.truth >>= f) w c post := by
  obtain ⟨kept, stack, onward⟩ := h.uncover
  have reads : chunk.Reads c.offset (.jz skipped) := presents.head
  cases stands with
  | bool value =>
      refine .known rfl ?_
      cases value with
      | true =>
          refine .next (Config.moves_jz_true reads presents.inside stack) ?_
          exact yes (onward rfl rfl rfl (h.shares.congr rfl rfl)) rfl presents.tail
      | false =>
          have target : c.offset + Opcode.jz.size + skipped ≤ chunk.size :=
            Nat.le_trans (Nat.add_le_add_left inside _) presents.tail.fits
          refine .next (Config.moves_jz_false reads (Int.natCast_add _ _) target stack) ?_
          exact no (onward rfl rfl rfl (h.shares.congr rfl rfl)) rfl
  | _ => exact .fail (Config.fails_jz reads stack nofun) h.shares

end Judgements

end StackScript
