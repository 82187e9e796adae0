/-
# Function bodies in drafts

Where the bodies of functions lie. A definition is followed by the jump around
its body, the body ends with a return, and everything in it belongs to it. What
lies in no body belongs to no function.
-/

import StackScript.Proofs.Draft.Scheme

namespace StackScript

open Line (extent placed)

namespace Line

variable {start offset : Nat} {home : Option Nat} {lines more inner : List Line} {line : Line}

/-- A line that belongs to a function, or to none, and was made for some place. -/
def Belongs (home : Option Nat) (line : Line) : Prop :=
  line.mark.home = home ∧ line.place.isSome

/-- Lines that belong to one function, or to none, and define no other. -/
def Uniform (home : Option Nat) (lines : List Line) : Prop :=
  ∀ line ∈ lines, line.Belongs home ∧ line.instr.op ≠ .func

theorem Uniform.nil (home : Option Nat) : Uniform home [] := by simp [Uniform]

theorem Uniform.append (h : Uniform home lines) (h' : Uniform home more) :
    Uniform home (lines ++ more) := by
  intro line mem
  rcases List.mem_append.mp mem with mem | mem
  · exact h line mem
  · exact h' line mem

theorem Uniform.cons (h : line.Belongs home ∧ line.instr.op ≠ .func)
    (h' : Uniform home lines) : Uniform home (line :: lines) := by
  intro found mem
  rcases List.mem_cons.mp mem with rfl | mem
  · exact h
  · exact h' found mem

theorem Uniform.single (h : line.Belongs home ∧ line.instr.op ≠ .func) :
    Uniform home [line] := .cons h (.nil home)

/-- There is a function definition at an offset, with its body behind it. -/
structure Defines (start : Nat) (lines : List Line) (offset : Nat) (inner : List Line) : Prop where
  split : ∃ front head skip back name arity, lines = front ++ head :: skip :: (inner ++ back) ∧
    offset = start + extent front ∧
    head.instr = .func name arity (offset + Opcode.func.size + Opcode.jmp.size) ∧
    skip.instr = .jmp (extent inner)
  uniform : Uniform (some (offset + Opcode.func.size + Opcode.jmp.size)) inner
  returns : ∃ main last bare, inner = main ++ [last] ∧ last.instr = .plain .ret bare

theorem Defines.append_right (h : Defines start lines offset inner) (more : List Line) :
    Defines start (lines ++ more) offset inner where
  split := by
    obtain ⟨front, head, skip, back, name, arity, rfl, same, func, jump⟩ := h.split
    exact ⟨front, head, skip, back ++ more, name, arity, by simp, same, func, jump⟩
  uniform := h.uniform
  returns := h.returns

theorem Defines.append_left (h : Defines (start + extent lines) more offset inner) :
    Defines start (lines ++ more) offset inner where
  split := by
    obtain ⟨front, head, skip, back, name, arity, rfl, same, func, jump⟩ := h.split
    exact ⟨lines ++ front, head, skip, back, name, arity, by simp,
      by rw [same, extent_append, Nat.add_assoc], func, jump⟩
  uniform := h.uniform
  returns := h.returns

/-- The line of the definition itself. -/
theorem Defines.head (h : Defines start lines offset inner) :
    ∃ line name arity, (offset, line) ∈ placed start lines ∧
      line.instr = .func name arity (offset + Opcode.func.size + Opcode.jmp.size) := by
  obtain ⟨front, head, skip, back, name, arity, rfl, rfl, func, jump⟩ := h.split
  exact ⟨head, name, arity, by simp, func⟩

/-- The line of the jump around the body. -/
theorem Defines.skip (h : Defines start lines offset inner) :
    ∃ line, (offset + Opcode.func.size, line) ∈ placed start lines ∧
      line.instr = .jmp (extent inner) := by
  obtain ⟨front, head, skip, back, name, arity, rfl, rfl, func, jump⟩ := h.split
  have sizes : head.size = Opcode.func.size := by simp [size, func, Instr.op]
  exact ⟨skip, by simp [sizes], jump⟩

/-- The body of a definition is as long as the jump around it says. -/
theorem Defines.extent_unique {other : List Line} (h : Defines start lines offset inner)
    (h' : Defines start lines offset other) : extent inner = extent other := by
  obtain ⟨skip, mem, isJmp⟩ := h.skip
  obtain ⟨skip', mem', isJmp'⟩ := h'.skip
  obtain rfl := placed_unique mem mem'
  rw [isJmp] at isJmp'
  exact Int.natCast_inj.mp (Instr.jmp.inj isJmp')

/-- The lines of a body are lines of the code around it. -/
theorem Defines.mem_placed (h : Defines start lines offset inner) {p : Nat × Line}
    (mem : p ∈ placed (offset + Opcode.func.size + Opcode.jmp.size) inner) :
    p ∈ placed start lines := by
  obtain ⟨front, head, skip, back, name, arity, rfl, rfl, func, jump⟩ := h.split
  have sizes : head.size = Opcode.func.size ∧ skip.size = Opcode.jmp.size := by
    simp [size, func, jump, Instr.op]
  simp [sizes.1, sizes.2, mem]

/-- A line that starts within a body is a line of the body. -/
theorem Defines.mem_inner (h : Defines start lines offset inner) {p : Nat × Line}
    (mem : p ∈ placed start lines)
    (low : offset + Opcode.func.size + Opcode.jmp.size ≤ p.1)
    (high : p.1 < offset + Opcode.func.size + Opcode.jmp.size + extent inner) :
    p ∈ placed (offset + Opcode.func.size + Opcode.jmp.size) inner := by
  obtain ⟨front, head, skip, back, name, arity, rfl, rfl, func, jump⟩ := h.split
  have sizes : head.size = Opcode.func.size ∧ skip.size = Opcode.jmp.size := by
    simp [size, func, jump, Instr.op]
  simp only [placed_append, placed_cons, List.mem_append, List.mem_cons, sizes.1, sizes.2] at mem
  have := p.2.size_pos
  have : 0 < Opcode.func.size ∧ 0 < Opcode.jmp.size := by decide
  rcases mem with mem | rfl | rfl | mem | mem
  · have := (bounds_of_mem_placed mem).2
    omega
  · simp only at low
    omega
  · simp only at low
    omega
  · exact mem
  · have := (bounds_of_mem_placed mem).1
    omega

/-- Each line belongs to no function, or it lies in the body of the one that it
belongs to; and each definition has its body behind it. -/
def Settled (start : Nat) (lines : List Line) : Prop :=
  ∀ p ∈ placed start lines,
    (p.2.Belongs none ∧
      (p.2.instr.op = .func → ∃ inner, Defines start lines p.1 inner)) ∨
    ∃ offset inner, Defines start lines offset inner ∧
      p ∈ placed (offset + Opcode.func.size + Opcode.jmp.size) inner

theorem Uniform.settled (h : Uniform none lines) (start : Nat) : Settled start lines := by
  intro p mem
  obtain ⟨outside, other⟩ := h p.2 (mem_of_mem_placed mem)
  exact .inl ⟨outside, fun defines => absurd defines other⟩

theorem Settled.append (h : Settled start lines) (h' : Settled (start + extent lines) more) :
    Settled start (lines ++ more) := by
  intro p mem
  rw [placed_append, List.mem_append] at mem
  rcases mem with mem | mem
  · rcases h p mem with ⟨outside, defines⟩ | ⟨offset, inner, defines, within⟩
    · refine .inl ⟨outside, fun isFunc => ?_⟩
      obtain ⟨inner, found⟩ := defines isFunc
      exact ⟨inner, found.append_right more⟩
    · exact .inr ⟨offset, inner, defines.append_right more, within⟩
  · rcases h' p mem with ⟨outside, defines⟩ | ⟨offset, inner, defines, within⟩
    · refine .inl ⟨outside, fun isFunc => ?_⟩
      obtain ⟨inner, found⟩ := defines isFunc
      exact ⟨inner, found.append_left⟩
    · exact .inr ⟨offset, inner, defines.append_left, within⟩

/-- What is known of the lines of a statement: inside of a function they belong to
it, and outside each has its place. -/
structure Homed (home : Option Nat) (start : Nat) (lines : List Line) : Prop where
  within : home.isSome → Uniform home lines
  outside : home = none → Settled start lines

theorem Uniform.homed (h : Uniform home lines) (start : Nat) : Homed home start lines where
  within := fun _ => h
  outside := by
    rintro rfl
    exact h.settled start

theorem Homed.append (h : Homed home start lines)
    (h' : Homed home (start + extent lines) more) : Homed home start (lines ++ more) where
  within := fun inside => (h.within inside).append (h'.within inside)
  outside := fun outside => (h.outside outside).append (h'.outside outside)

theorem Homed.cons (h : line.Belongs home ∧ line.instr.op ≠ .func)
    (h' : Homed home (start + line.size) lines) : Homed home start (line :: lines) :=
  ((Uniform.single h).homed start).append (by simpa using h')

end Line

open Line (Uniform Settled Homed)

variable {ctx : Context}

theorem Context.uniform_line (ctx : Context) (extra : Nat) (place : Location) {instr : Instr}
    (h : instr.op ≠ .func) : Uniform ctx.home [ctx.line extra place instr] :=
  .single ⟨⟨rfl, rfl⟩, h⟩

theorem popLines_uniform (home : Option Nat) (place : Location) (height count : Nat) :
    Uniform home (popLines home place height count) := by
  induction count with
  | zero => exact .nil home
  | succ count ih => exact .cons ⟨⟨rfl, rfl⟩, by simp [Instr.op]⟩ ih

theorem operator_uniform (ctx : Context) (extra : Nat) (place : Location) (op : BinaryOp) :
    Uniform ctx.home (ctx.operator extra place op) := by
  unfold Context.operator
  refine .cons ⟨⟨rfl, rfl⟩, ?_⟩ ?_
  · cases op <;> simp [Instr.op, BinaryOp.base]
  · split
    · exact .single ⟨⟨rfl, rfl⟩, by simp [Instr.op]⟩
    · exact .nil _

mutual

/-- Expressions belong to the function that they stand in. -/
theorem Expr.uniform (ctx : Context) (extra : Nat) (e : Expr) :
    Uniform ctx.home (e.code ctx extra) := by
  cases e with
  | literal place value =>
      refine .single ⟨⟨rfl, rfl⟩, ?_⟩
      cases value with
      | bool value => cases value <;> simp [Literal.instr, Instr.op]
      | _ => simp [Literal.instr, Instr.op]
  | reference place name =>
      refine .single ⟨⟨rfl, rfl⟩, ?_⟩
      simp only [Context.line_instr, Context.fetch]
      split <;> simp [Instr.op]
  | unary place op operand =>
      rw [Expr.code]
      refine (Expr.uniform ctx extra operand).append (.single ⟨⟨rfl, rfl⟩, ?_⟩)
      cases op <;> simp [Instr.op, UnaryOp.opcode]
  | binary place op left right =>
      rw [Expr.code]
      exact ((Expr.uniform ctx extra left).append (Expr.uniform ctx (extra + 1) right)).append
        (operator_uniform ctx extra place op)
  | call place callee arguments =>
      rw [Expr.code]
      exact (argumentCode_uniform ctx extra arguments).append
        (.single ⟨⟨rfl, rfl⟩, by simp [Instr.op]⟩)

theorem argumentCode_uniform (ctx : Context) (extra : Nat) (es : List Expr) :
    Uniform ctx.home (argumentCode ctx extra es) := by
  cases es with
  | nil => exact .nil _
  | cons first rest =>
      rw [argumentCode]
      exact (Expr.uniform ctx extra first).append (argumentCode_uniform ctx (extra + 1) rest)

end

/-- A body ends with a return. -/
theorem bodyCode_returns (offset : Nat) (ctx : Context) (bodyPlace : Location)
    (body : List Stmt) :
    ∃ main last bare, bodyCode offset ctx bodyPlace body = main ++ [last] ∧
      last.instr = .plain .ret bare := by
  induction body generalizing offset ctx with
  | nil => exact ⟨[ctx.line 0 bodyPlace (.plain .null rfl)], _, rfl, rfl, rfl⟩
  | cons first rest ih =>
      rw [bodyCode]
      cases returns : first.isReturn with
      | true =>
          obtain ⟨place, value, rfl⟩ : ∃ place value, first = .ret place value := by
            cases first <;> first | exact ⟨_, _, rfl⟩ | cases returns
          cases value with
          | none => exact ⟨[ctx.line 0 place (.plain .null rfl)], _, rfl, rfl, rfl⟩
          | some value => exact ⟨value.code ctx 0, _, rfl, rfl, rfl⟩
      | false =>
          obtain ⟨main, last, bare, same, isRet⟩ :=
            ih (offset + extent (first.code offset ctx)) (ctx.after first)
          exact ⟨first.code offset ctx ++ main, last, bare, by simp [same], isRet⟩

variable {offset : Nat}

theorem closing_homed {inner : Context} (place : Location) :
    Homed ctx.home offset (ctx.closing inner place) :=
  (popLines_uniform ctx.home place _ _).homed offset

/-- The lines of a test are those of its parts. -/
theorem test_homed (place : Location) (condition : Expr) {part : List Line} {distance : Int}
    (h : Homed ctx.home (offset + extent (condition.code ctx 0) + Opcode.jz.size) part) :
    Homed ctx.home offset
      (condition.code ctx 0 ++ ctx.line 1 place (.jz distance) :: part) :=
  ((condition.uniform ctx 0).homed offset).append (.cons ⟨⟨rfl, rfl⟩, by simp [Instr.op]⟩ h)

/-- A function is defined in front of its body. -/
theorem function_homed (place : Location) (name : String) (arity : Nat)
    (outside : ctx.home = none) {inner : List Line}
    (uniform : Uniform (some (offset + Opcode.func.size + Opcode.jmp.size)) inner)
    (returns : ∃ main last bare, inner = main ++ [last] ∧ last.instr = .plain .ret bare) :
    Homed ctx.home offset
      (ctx.line 0 place (.func name arity (offset + Opcode.func.size + Opcode.jmp.size)) ::
        ctx.line 0 place (.jmp (extent inner)) :: inner) where
  within := by simp [outside]
  outside := by
    intro _ p mem
    have defines : Line.Defines offset
        (ctx.line 0 place (.func name arity (offset + Opcode.func.size + Opcode.jmp.size)) ::
          ctx.line 0 place (.jmp (extent inner)) :: inner) offset inner :=
      ⟨⟨[], _, _, [], name, arity, by rw [List.append_nil]; rfl, rfl, rfl, rfl⟩, uniform, returns⟩
    simp only [Line.placed_cons, List.mem_cons, Context.line_size, Instr.op] at mem
    rcases mem with rfl | rfl | mem
    · exact .inl ⟨⟨outside, rfl⟩, fun _ => ⟨inner, defines⟩⟩
    · exact .inl ⟨⟨outside, rfl⟩, by simp [Instr.op]⟩
    · exact .inr ⟨offset, inner, defines, mem⟩

mutual

/-- Statements belong to the function that they stand in, but for the bodies of
those that they define. -/
theorem Stmt.homed (offset : Nat) (ctx : Context) (st : Stmt)
    (legal : st.Legal ctx.home.isSome) : Homed ctx.home offset (st.code offset ctx) := by
  cases st with
  | expression place value =>
      rw [Stmt.code]
      exact ((value.uniform ctx 0).append (.single ⟨⟨rfl, rfl⟩, by simp [Instr.op]⟩)).homed offset
  | print place value =>
      rw [Stmt.code]
      exact ((value.uniform ctx 0).append (.single ⟨⟨rfl, rfl⟩, by simp [Instr.op]⟩)).homed offset
  | declare place name value =>
      rw [Stmt.code]
      refine ((value.uniform ctx 0).append ?_).homed offset
      split
      · exact .nil _
      · exact .single ⟨⟨rfl, rfl⟩, by simp [Instr.op]⟩
  | assign place name value =>
      rw [Stmt.code]
      refine ((value.uniform ctx 0).append (.single ⟨⟨rfl, rfl⟩, ?_⟩)).homed offset
      simp only [Context.line_instr, Context.store]
      split <;> simp [Instr.op]
  | block place body =>
      rw [Stmt.code]
      exact (listCode_homed offset ctx body legal).append (closing_homed place)
  | ifThen place condition yes =>
      rw [Stmt.code]
      exact test_homed place condition ((yes.homed _ ctx legal).append (closing_homed place))
  | ifElse place condition yes no =>
      rw [Stmt.code]
      refine test_homed place condition
        (((yes.homed _ ctx legal.1).append (closing_homed place)).append ?_)
      exact .cons ⟨⟨rfl, rfl⟩, by simp [Instr.op]⟩
        ((no.homed _ ctx legal.2).append (closing_homed place))
  | loop place condition body =>
      rw [Stmt.code]
      refine test_homed place condition
        (((body.homed _ ctx legal).append (closing_homed place)).append ?_)
      exact (ctx.uniform_line 0 place (by simp [Instr.op])).homed _
  | function place name parameters bodyPlace body =>
      rw [Stmt.code]
      refine function_homed place name parameters.length (by simpa using legal.1) ?_
        (bodyCode_returns _ _ bodyPlace body)
      exact bodyCode_uniform _ (Context.ofBody _ parameters) bodyPlace body rfl legal.2
  | ret place value =>
      cases value with
      | none =>
          rw [Stmt.code]
          have pushed : Uniform ctx.home [ctx.line 0 place (.plain .null rfl)] :=
            ctx.uniform_line 0 place nofun
          have ends : Uniform ctx.home [ctx.line 1 place (.plain .ret rfl)] :=
            ctx.uniform_line 1 place nofun
          exact (pushed.append ends).homed offset
      | some value =>
          rw [Stmt.code]
          exact ((value.uniform ctx 0).append (.single ⟨⟨rfl, rfl⟩, by simp [Instr.op]⟩)).homed offset

theorem listCode_homed (offset : Nat) (ctx : Context) (body : List Stmt)
    (legal : listLegal ctx.home.isSome body) :
    Homed ctx.home offset (listCode offset ctx body) := by
  cases body with
  | nil => exact (Uniform.nil _).homed offset
  | cons first rest =>
      rw [listCode]
      refine (first.homed offset ctx legal.1).append ?_
      have later := listCode_homed (offset + extent (first.code offset ctx)) (ctx.after first)
        rest (by simpa using legal.2)
      simpa using later

theorem bodyCode_uniform (offset : Nat) (ctx : Context) (bodyPlace : Location)
    (body : List Stmt) (inside : ctx.home.isSome) (legal : bodyLegal body) :
    Uniform ctx.home (bodyCode offset ctx bodyPlace body) := by
  cases body with
  | nil => exact .cons ⟨⟨rfl, rfl⟩, by simp [Instr.op]⟩ (.single ⟨⟨rfl, rfl⟩, by simp [Instr.op]⟩)
  | cons first rest =>
      rw [bodyCode]
      have lines := (first.homed offset ctx (inside ▸ legal.1)).within inside
      cases returns : first.isReturn with
      | true => exact lines
      | false =>
          have later := bodyCode_uniform (offset + extent (first.code offset ctx))
            (ctx.after first) bodyPlace rest (by simpa using inside) (legal.2 returns)
          exact lines.append (by simpa using later)

end

end StackScript
