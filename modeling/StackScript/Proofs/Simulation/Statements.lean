/-
# Statements

The code of a statement does what executing the statement does. There is one lemma
for each kind of statement, which takes the statements inside for granted. A further
round of a loop goes one level down, like a call. With that, execution is simulated
at any number of levels, by induction on it.
-/

import StackScript.Proofs.Simulation.Blocks

namespace StackScript

open Line (extent)

namespace Eval

variable {w : World} {name : String} {datum : Datum} {env : Bindings}

theorem declare_global (outside : w.locals = none) :
    declare name datum w = .ok () { w with globals := (name, datum) :: w.globals } := by
  obtain ⟨globals, locals, output⟩ := w
  cases outside
  rfl

theorem declare_local (inside : w.locals = some env) :
    declare name datum w = .ok () { w with locals := some ((name, datum) :: env) } := by
  obtain ⟨globals, locals, output⟩ := w
  cases inside
  rfl

theorem assign_global (missing : (w.locals.bind fun locals => locals.lookup name) = none) :
    assign name datum w = .ok () { w with globals := (name, datum) :: w.globals } := by
  obtain ⟨globals, locals, output⟩ := w
  cases locals with
  | none => rfl
  | some env =>
      rw [Option.bind_some] at missing
      simp only [assign, get_bind, missing, Option.isSome_none, Bool.false_eq_true, if_false]
      rfl

theorem assign_local {old : Datum} (inside : w.locals = some env)
    (known : env.lookup name = some old) :
    assign name datum w = .ok () { w with locals := some (env.update name datum) } := by
  obtain ⟨globals, locals, output⟩ := w
  cases inside
  simp only [assign, get_bind, known, Option.isSome_some, if_true]
  rfl

end Eval

section Executions

variable (chunk : Chunk) (levels : Nat) (deeper : List Stmt → Eval (Option Datum))

/-- The code of a statement does what executing it does. -/
def Stmt.Simulated (st : Stmt) : Prop :=
  ∀ {ctx : Context} {base : List Value} {frames : List Nat} {w : World} {c : Config},
    st.Legal ctx.home.isSome → Represents chunk ctx base frames [] w c →
      chunk.Presents c.offset (st.code c.offset ctx) →
        Simulates chunk (levels + 1) (st.execute deeper) w c
          (Ended chunk (ctx.after st) base frames (c.offset + extent (st.code c.offset ctx)))

/-- The code of statements in a row does what executing them does. -/
def ListSimulated (body : List Stmt) : Prop :=
  ∀ {ctx : Context} {base : List Value} {frames : List Nat} {w : World} {c : Config},
    listLegal ctx.home.isSome body → Represents chunk ctx base frames [] w c →
      chunk.Presents c.offset (listCode c.offset ctx body) →
        Simulates chunk (levels + 1) (executeAll deeper body) w c
          (Ended chunk (ctx.afterAll body) base frames
            (c.offset + extent (listCode c.offset ctx body)))

end Executions

section Plain

variable {chunk : Chunk} {levels : Nat} {deeper : List Stmt → Eval (Option Datum)}

/-- A global name is bound by an instruction that puts the value among the globals. -/
theorem Shares.bind {w : World} {c d : Config} {name : String} {datum : Datum} {value : Value}
    (h : Shares chunk w c) (stands : datum.Stands chunk value)
    (globals : d.globals = c.globals.insert name value) (output : d.output = c.output) :
    Shares chunk { w with globals := (name, datum) :: w.globals } d := by
  refine ⟨fun other => ?_, output.trans h.output⟩
  rw [globals, Globals.find?_insert]
  by_cases same : name = other
  · subst same
    rw [if_pos rfl, List.lookup_cons_self]
    exact .some stands
  · rw [if_neg same, List.lookup_cons, beq_eq_false_iff_ne.mpr fun eq => same eq.symm]
    exact h.globals other

/-- Evaluation of an expression comes first. -/
theorem Represents.operand {β : Type} {ctx : Context} {base : List Value} {frames : List Nat}
    {w : World} {c : Config} {lines : List Line} {f : Datum → Eval β}
    {post : β → World → Config → Prop} (h : Represents chunk ctx base frames [] w c)
    (below : Deeper chunk levels deeper) (e : Expr)
    (presents : chunk.Presents c.offset (e.code ctx 0 ++ lines))
    (rest : ∀ {datum value later d}, datum.Stands chunk value →
      Represents chunk ctx base frames ([] ++ [value]) later d →
        d.offset = c.offset + extent (e.code ctx 0) → chunk.Presents d.offset lines →
          Simulates chunk (levels + 1) (f datum) later d post) :
    Simulates chunk (levels + 1) (e.evaluate deeper >>= f) w c post := by
  refine (e.simulates below h presents.left).bind ?_
  rintro datum later d ⟨value, stands, here, offset⟩
  exact rest stands here offset (offset ▸ presents.right)

theorem Stmt.expression_simulated (below : Deeper chunk levels deeper) (place : Location)
    (value : Expr) : (Stmt.expression place value).Simulated chunk levels deeper := by
  intro ctx base frames w c _ h presents
  rw [Stmt.code] at presents ⊢
  refine h.operand below value presents ?_
  intro datum found later d stands here offset behind
  rw [Line.extent_append, ← Nat.add_assoc, ← offset]
  obtain ⟨kept, stack, onward⟩ := here.uncover
  refine .next (Config.moves_pop behind.head behind.inside stack) (.pure ⟨?_, rfl⟩)
  exact onward rfl rfl rfl (here.shares.congr rfl rfl)

theorem Stmt.print_simulated (below : Deeper chunk levels deeper) (place : Location)
    (value : Expr) : (Stmt.print place value).Simulated chunk levels deeper := by
  intro ctx base frames w c _ h presents
  rw [Stmt.code] at presents ⊢
  refine h.operand below value presents ?_
  intro datum found later d stands here offset behind
  rw [Line.extent_append, ← Nat.add_assoc, ← offset]
  obtain ⟨kept, stack, onward⟩ := here.uncover
  refine .next (Config.moves_print behind.head behind.inside stack) (.known rfl (.pure ⟨?_, rfl⟩))
  refine onward rfl rfl rfl ⟨here.shares.globals, ?_⟩
  rw [here.shares.output, stands.text_eq]

/-- A global name is bound to the value on top of the stack. -/
theorem Represents.setGlobal {ctx : Context} {base : List Value} {frames : List Nat} {w : World}
    {c : Config} {name : String} {datum : Datum} {value : Value}
    (h : Represents chunk ctx base frames ([] ++ [value]) w c) (stands : datum.Stands chunk value)
    (reads : chunk.Reads c.offset (.setGlobal name))
    (inside : c.offset + Opcode.setGlobal.size ≤ chunk.size) :
    Simulates chunk levels (pure none)
      { w with globals := (name, datum) :: w.globals } c
      (Ended chunk ctx base frames (c.offset + Opcode.setGlobal.size)) := by
  obtain ⟨kept, stack, onward⟩ := h.uncover
  refine .next (Config.moves_setGlobal reads inside stack) (.pure ⟨?_, rfl⟩)
  exact onward rfl rfl rfl (h.shares.bind stands rfl rfl)

theorem Stmt.declare_simulated (below : Deeper chunk levels deeper) (place : Location)
    (name : String) (value : Expr) :
    (Stmt.declare place name value).Simulated chunk levels deeper := by
  intro ctx base frames w c _ h presents
  rw [Stmt.code] at presents ⊢
  refine h.operand below value presents ?_
  intro datum found later d stands here offset behind
  obtain ⟨values, stack, locals⟩ := here.stack
  rw [Line.extent_append, ← Nat.add_assoc, ← offset]
  by_cases home : ctx.home.isSome
  · obtain ⟨env, same, extended⟩ := locals.declare home stands name
    rw [if_pos home, Line.extent_nil, Nat.add_zero]
    refine .known (Eval.declare_local same) (.pure ⟨⟨⟨values ++ [found], ?_, extended⟩, ?_, ?_, ?_⟩,
      rfl⟩)
    · rw [stack]
      simp
    · exact here.onFrames
    · exact fun _ => here.frame home
    · exact ⟨here.shares.globals, here.shares.output⟩
  · have world := locals.eq_none home
    refine .known (Eval.declare_global world) ?_
    rw [if_neg home] at behind ⊢
    have same : ctx.after (.declare place name value) = ctx := by
      rw [Context.after, Context.declare, if_neg home]
    rw [same]
    exact here.setGlobal stands behind.head behind.inside

theorem Stmt.assign_simulated (below : Deeper chunk levels deeper) (place : Location)
    (name : String) (value : Expr) :
    (Stmt.assign place name value).Simulated chunk levels deeper := by
  intro ctx base frames w c _ h presents
  rw [Stmt.code] at presents ⊢
  refine h.operand below value presents ?_
  intro datum found later d stands here offset behind
  obtain ⟨values, stack, locals⟩ := here.stack
  rw [Line.extent_append, ← Nat.add_assoc, ← offset]
  unfold Context.store at behind ⊢
  cases slot : ctx.slot? name with
  | none =>
      simp only [slot] at behind ⊢
      refine .known (Eval.assign_global (locals.lookup_none slot)) ?_
      exact here.setGlobal stands behind.head behind.inside
  | some index =>
      simp only [slot] at behind ⊢
      obtain ⟨env, old, same, known, within, -, change⟩ := locals.lookup_some slot
      refine .known (Eval.assign_local same known) ?_
      obtain ⟨earlier, rfl⟩ := here.frame (locals.home_isSome same)
      refine .next (Config.moves_deepSet behind.head behind.inside stack here.onFrames within) ?_
      refine .pure ⟨⟨⟨values.set index found, ?_, change datum found stands⟩, ?_, ?_, ?_⟩, rfl⟩
      · exact (List.append_nil _).symm
      · exact here.onFrames
      · exact here.frame
      · exact ⟨here.shares.globals, here.shares.output⟩

end Plain

section Structured

variable {chunk : Chunk} {levels : Nat} {deeper : List Stmt → Eval (Option Datum)}

theorem Stmt.block_simulated (place : Location) {body : List Stmt}
    (inside : ListSimulated chunk levels deeper body) :
    (Stmt.block place body).Simulated chunk levels deeper := by
  intro ctx base frames w c legal h presents
  rw [Stmt.code] at presents ⊢
  rw [Line.extent_append, ← Nat.add_assoc]
  exact (inside legal h presents.left).inBlock (ctx.within_afterAll body) h presents.right

/-- One of two ways: a statement and the end of the block that it makes up. -/
theorem Stmt.Simulated.part {st : Stmt} (inside : st.Simulated chunk levels deeper)
    {ctx : Context} {base : List Value} {frames : List Nat} {w : World} {c : Config}
    {place : Location} (legal : st.Legal ctx.home.isSome)
    (h : Represents chunk ctx base frames [] w c)
    (presents : chunk.Presents c.offset
      (st.code c.offset ctx ++ ctx.closing (ctx.after st) place)) :
    Simulates chunk (levels + 1) (Eval.inBlock (st.execute deeper)) w c
      (Ended chunk ctx base frames
        (c.offset + extent (st.code c.offset ctx ++ ctx.closing (ctx.after st) place))) := by
  rw [Line.extent_append, ← Nat.add_assoc]
  exact (inside legal h presents.left).inBlock (ctx.within_after st) h presents.right

theorem Stmt.ifThen_simulated (below : Deeper chunk levels deeper) (place : Location)
    (condition : Expr) {yes : Stmt} (inside : yes.Simulated chunk levels deeper) :
    (Stmt.ifThen place condition yes).Simulated chunk levels deeper := by
  intro ctx base frames w c legal h presents
  rw [Stmt.code] at presents ⊢
  refine h.operand below condition presents ?_
  intro datum found later d stands here offset behind
  rw [← offset] at behind ⊢
  rw [Line.extent_append, ← Nat.add_assoc, ← offset, Line.extent_cons, Context.line_size,
    Instr.op, ← Nat.add_assoc]
  refine here.branch stands behind (Nat.le_refl _) ?_ ?_
  · intro d' there offset' part
    rw [← offset'] at part ⊢
    exact inside.part legal there part
  · intro d' there offset'
    exact .pure ⟨there, offset'⟩

theorem Simulates.endsAt {x : Eval (Option Datum)} {ctx : Context} {base : List Value}
    {frames : List Nat} {w : World} {c : Config} {stop stop' : Nat}
    (h : Simulates chunk levels x w c (Ended chunk ctx base frames stop)) (same : stop' = stop) :
    Simulates chunk levels x w c (Ended chunk ctx base frames stop') := by
  rw [same]
  exact h

/-- A way is followed by a jump over the other one. -/
theorem Simulates.jumpOver {x : Eval (Option Datum)} {ctx : Context} {base : List Value}
    {frames : List Nat} {w : World} {c : Config} {place : Location} {stop height : Nat}
    {other : List Line} (presents : chunk.Presents stop
      (ctx.line height place (.jmp (extent other)) :: other))
    (h : Simulates chunk levels x w c (Ended chunk ctx base frames stop)) :
    Simulates chunk levels x w c
      (Ended chunk ctx base frames (stop + Opcode.jmp.size + extent other)) := by
  refine h.onward ?_
  rintro (_ | datum) later d ended
  · obtain ⟨here, rfl⟩ := ended
    have reads : chunk.Reads d.offset (.jmp (extent other)) := presents.head
    obtain ⟨d', moves, start, there⟩ :=
      here.jump reads (Int.natCast_add _ _) presents.tail.fits
    exact ⟨1, d', .single moves, there, start⟩
  · exact ⟨0, d, .refl _, ended⟩

theorem Stmt.ifElse_simulated (below : Deeper chunk levels deeper) (place : Location)
    (condition : Expr) {yes no : Stmt} (inside : yes.Simulated chunk levels deeper)
    (inside' : no.Simulated chunk levels deeper) :
    (Stmt.ifElse place condition yes no).Simulated chunk levels deeper := by
  intro ctx base frames w c legal h presents
  rw [Stmt.code] at presents ⊢
  refine h.operand below condition presents ?_
  intro datum found later d stands here offset behind
  rw [← offset] at behind ⊢
  rw [Line.extent_append, ← Nat.add_assoc, ← offset]
  refine here.branch stands behind (by simp [Instr.op]; omega) ?_ ?_
  · intro d' there offset' part
    rw [← offset'] at part ⊢
    refine ((inside.part legal.1 there part.left).jumpOver part.right).endsAt ?_
    simp only [Line.extent_cons, Line.extent_append, Context.line_size, Instr.op, offset']
    omega
  · intro d' there offset'
    have second := behind.tail.right.tail
    rw [← Nat.add_assoc] at offset'
    simp only [Context.line_size, Instr.op, ← offset'] at second
    refine (inside'.part legal.2 there second).endsAt ?_
    rw [← offset']
    simp only [Line.extent_cons, Line.extent_append, Context.line_size, Instr.op] at offset' ⊢
    omega

/-- After a round of a loop comes the jump back, and the loop is met again. -/
theorem Stmt.loop_simulated (below : Deeper chunk levels deeper) (place : Location)
    (condition : Expr) {body : Stmt} (inside : body.Simulated chunk levels deeper) :
    (Stmt.loop place condition body).Simulated chunk levels deeper := by
  intro ctx base frames w c legal h presents
  have again : chunk.Presents c.offset (listCode c.offset ctx [.loop place condition body]) := by
    rw [listCode, listCode, List.append_nil]
    exact presents
  rw [Stmt.code] at presents ⊢
  refine h.operand below condition presents ?_
  intro datum found later d stands here offset behind
  rw [← offset] at behind ⊢
  rw [Line.extent_append, ← Nat.add_assoc, ← offset]
  refine here.branch stands behind (by simp [Instr.op, Nat.add_assoc]) ?_ ?_
  · intro d' there offset' part
    rw [← offset'] at part ⊢
    refine (inside.part legal there part.left).bind ?_
    rintro (_ | result) last e ended
    · obtain ⟨round, stop⟩ := ended
      have back := part.right
      rw [← stop] at back
      have lands : (c.offset : Int) = (e.offset + Opcode.jmp.size : Nat) +
          (-(extent (condition.code ctx 0) + Opcode.jz.size +
            extent (body.code d'.offset ctx ++ ctx.closing (ctx.after body) place) +
              Opcode.jmp.size : Nat) : Int) := by omega
      have early := Nat.le_trans (Nat.le_add_right c.offset _) again.fits
      obtain ⟨f, moves, start, met⟩ := round.jump back.head lands early
      rw [← start] at again
      have alone : listLegal ctx.home.isSome [.loop place condition body] := ⟨legal, trivial⟩
      refine .deeper moves ((below.list alone again met).endsAt ?_)
      rw [listCode, listCode, List.append_nil, Stmt.code, start, ← offset, ← offset']
      simp only [Line.extent_cons, Line.extent_append, Line.extent_nil, Context.line_size, Instr.op]
      omega
    · exact .pure ended
  · intro d' there offset'
    refine .pure ⟨there, ?_⟩
    rw [offset']
    simp only [Line.extent_cons, Line.extent_append, Line.extent_nil, Context.line_size, Instr.op]
    omega

theorem Stmt.function_simulated (place : Location) (name : String) (parameters : List Parameter)
    (bodyPlace : Location) (body : List Stmt) :
    (Stmt.function place name parameters bodyPlace body).Simulated chunk levels deeper := by
  intro ctx base frames w c legal h presents
  rw [Stmt.code] at presents ⊢
  have inner := presents.tail.tail
  have stands := @Datum.Stands.function chunk name parameters body _ _ legal.2 inner
  obtain ⟨d, declares, offset, bound⟩ :
      ∃ d : Config, (c.machine chunk).Moves (d.machine chunk) ∧
        d.offset = c.offset + Opcode.func.size ∧ Represents chunk ctx base frames []
          { w with globals := (name, .function name parameters body) :: w.globals } d :=
    ⟨_, Config.moves_func presents.head presents.inside, rfl, h.stack, h.onFrames, h.frame,
      h.shares.bind stands rfl rfl⟩
  have behind := presents.tail
  rw [Context.line_size, Instr.op, ← offset] at behind
  have skip : chunk.Reads d.offset (.jmp _) := behind.head
  obtain ⟨e, moves, start, there⟩ := bound.jump skip (Int.natCast_add _ _) behind.tail.fits
  refine .known rfl (.next declares (.next moves (.pure ⟨there, start.trans ?_⟩)))
  simp only [Line.extent_cons, Context.line_size, Instr.op, offset]
  omega

/-- A value that is on top of the stack where the code returns. -/
theorem Represents.leaves {ctx : Context} {base : List Value} {frames : List Nat} {w : World}
    {c : Config} {value : Value} {bare : Opcode.ret.operands = []}
    (h : Represents chunk ctx base frames ([] ++ [value]) w c)
    (reads : chunk.Reads c.offset (.plain .ret bare)) : Leaves chunk base frames value w c := by
  obtain ⟨values, stack, -⟩ := h.stack
  exact ⟨⟨bare, reads⟩, ⟨values, stack⟩, h.onFrames, h.shares⟩

/-- The end of a body without a return statement returns nothing. -/
theorem Represents.returnsNull {ctx : Context} {base : List Value} {frames : List Nat} {w : World}
    {c : Config} {place : Location} (h : Represents chunk ctx base frames ([] ++ []) w c)
    (presents : chunk.Presents c.offset
      [ctx.line 0 place (.plain .null rfl), ctx.line 1 place (.plain .ret rfl)]) :
    ∃ d, (c.machine chunk).Moves (d.machine chunk) ∧ Leaves chunk base frames .null w d := by
  obtain ⟨kept, stack, onward⟩ := h.exchange
  refine ⟨c.next (.plain .null rfl) (kept ++ [.null]), ?_, ?_⟩
  · refine Config.moves_deliver presents.head presents.inside stack fun m _ => ?_
    rw [List.append_nil]
    rfl
  · have reads : chunk.Reads (c.offset + Opcode.null.size) (.plain .ret rfl) := presents.tail.head
    have there : Represents chunk ctx base frames ([] ++ [.null]) w
        (c.next (.plain .null rfl) (kept ++ [.null])) :=
      onward rfl rfl rfl (h.shares.congr rfl rfl)
    exact there.leaves reads

/-- A return statement returns a value. -/
theorem Stmt.ret_simulated (below : Deeper chunk levels deeper) {place : Location}
    {value : Option Expr} {ctx : Context} {base : List Value} {frames : List Nat} {w : World}
    {c : Config} (h : Represents chunk ctx base frames [] w c)
    (presents : chunk.Presents c.offset ((Stmt.ret place value).code c.offset ctx)) :
    Simulates chunk (levels + 1) ((Stmt.ret place value).execute deeper) w c fun result later d =>
      ∃ datum, result = some datum ∧
        ∃ value, datum.Stands chunk value ∧ Leaves chunk base frames value later d := by
  cases value with
  | none =>
      rw [Stmt.code] at presents
      obtain ⟨d, moves, leaves⟩ := h.returnsNull presents
      exact .next moves (.pure ⟨.null, rfl, .null, .null, leaves⟩)
  | some value =>
      rw [Stmt.code] at presents
      refine h.operand below value presents ?_
      intro datum found later d stands here offset behind
      exact .pure ⟨datum, rfl, found, stands, here.leaves behind.head⟩

end Structured

section Whole

variable {chunk : Chunk} {levels : Nat} {deeper : List Stmt → Eval (Option Datum)}

mutual

/-- The code of a statement does what executing the statement does. -/
theorem Stmt.simulated (below : Deeper chunk levels deeper) (st : Stmt) :
    st.Simulated chunk levels deeper := by
  cases st with
  | expression place value => exact Stmt.expression_simulated below place value
  | print place value => exact Stmt.print_simulated below place value
  | declare place name value => exact Stmt.declare_simulated below place name value
  | assign place name value => exact Stmt.assign_simulated below place name value
  | block place body => exact Stmt.block_simulated place (listSimulated below body)
  | ifThen place condition yes =>
      exact Stmt.ifThen_simulated below place condition (yes.simulated below)
  | ifElse place condition yes no =>
      exact Stmt.ifElse_simulated below place condition (yes.simulated below) (no.simulated below)
  | loop place condition body =>
      exact Stmt.loop_simulated below place condition (body.simulated below)
  | function place name parameters bodyPlace body =>
      exact Stmt.function_simulated place name parameters bodyPlace body
  | ret place value =>
      intro ctx base frames w c legal h presents
      refine (Stmt.ret_simulated below h presents).mono ?_
      rintro _ later d ⟨datum, rfl, returned⟩
      exact ⟨legal, returned⟩

/-- The code of statements in a row does what executing them does. -/
theorem listSimulated (below : Deeper chunk levels deeper) (body : List Stmt) :
    ListSimulated chunk levels deeper body := by
  intro ctx base frames w c legal h presents
  cases body with
  | nil => exact .pure ⟨h, rfl⟩
  | cons first rest =>
      rw [listCode] at presents ⊢
      refine (first.simulated below legal.1 h presents.left).bind ?_
      rintro (_ | result) later d ended
      · obtain ⟨here, offset⟩ := ended
        have behind := presents.right
        rw [← offset] at behind
        have legal' := legal.2
        rw [← ctx.after_home first] at legal'
        refine (listSimulated below rest legal' here behind).endsAt ?_
        rw [Line.extent_append, ← Nat.add_assoc, ← offset]
      · obtain ⟨inside, returned⟩ := ended
        refine .pure ⟨?_, returned⟩
        rw [Context.afterAll_cons, Context.afterAll_home]
        exact inside

end

/-- The code of the body of a function ends with a return, whether the body does or not. -/
theorem bodySimulated (below : Deeper chunk levels deeper) {ctx : Context} {base : List Value}
    {frames : List Nat} {place : Location} {body : List Stmt} {w : World} {c : Config}
    (inside : ctx.home.isSome) (legal : bodyLegal body) (h : Represents chunk ctx base frames [] w c)
    (presents : chunk.Presents c.offset (bodyCode c.offset ctx place body)) :
    Simulates chunk (levels + 1) (executeAll deeper body) w c (Returned chunk base frames) := by
  induction body generalizing ctx w c with
  | nil =>
      rw [bodyCode] at presents
      obtain ⟨d, moves, leaves⟩ := h.returnsNull presents
      exact .next moves (.pure ⟨.null, .null, leaves⟩)
  | cons first rest ih =>
      rw [bodyCode] at presents
      by_cases returns : first.isReturn
      · rw [if_pos returns] at presents
        cases first with
        | ret place value =>
            refine (Stmt.ret_simulated below h presents).bind ?_
            rintro _ later d ⟨datum, rfl, returned⟩
            exact .pure returned
        | _ => cases returns
      · rw [if_neg returns] at presents
        have legal' : first.Legal ctx.home.isSome := by
          rw [inside]
          exact legal.1
        refine (first.simulated below legal' h presents.left).bind ?_
        rintro (_ | result) later d ended
        · obtain ⟨here, offset⟩ := ended
          have behind := presents.right
          rw [← offset] at behind
          rw [← ctx.after_home first] at inside
          exact ih inside (legal.2 (Bool.eq_false_iff.mpr returns)) here behind
        · exact .pure ended.2

/-- Execution with any number of levels is simulated. -/
theorem deeper_executeWithin (levels : Nat) : Deeper chunk levels (executeWithin levels) := by
  induction levels with
  | zero =>
      constructor
      · intro ctx base frames body w c _ _ h
        exact ⟨0, c, Nat.le_refl 0, .refl _, h.shares.output⟩
      · intro ctx base frames place body w c _ _ _ h
        exact ⟨0, c, Nat.le_refl 0, .refl _, h.shares.output⟩
  | succ levels ih =>
      constructor
      · intro ctx base frames body w c legal presents h
        exact listSimulated ih body legal h presents
      · intro ctx base frames place body w c inside legal presents h
        exact bodySimulated ih inside legal h presents

end Whole

end StackScript
