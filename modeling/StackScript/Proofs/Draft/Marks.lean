/-
# Marks that hold

A line is sound if what it needs is on the stack, and if wherever control goes
from it, the mark there is the one that the line leaves behind. This is a
property of each line by itself, given the marks that hold at offsets. The
drafts of expressions and statements have it: their marks are kept along every
way through the code.
-/

import StackScript.Proofs.Draft.Scheme

namespace StackScript

open Line (extent placed)

/-- The number of values that an instruction takes off the stack. -/
def Instr.takes : Instr → Nat
  | .plain op _ =>
    match op with
    | .add | .sub | .mul | .div | .mod | .eq | .gt | .lt => 2
    | .print | .not | .negate | .pop | .ret => 1
    | _ => 0
  | .setGlobal _ | .deepSet _ | .jz _ => 1
  | .invoke _ count => count
  | _ => 0

/-- The number of values that an instruction puts on the stack. -/
def Instr.leaves : Instr → Nat
  | .plain op _ =>
    match op with
    | .add | .sub | .mul | .div | .mod | .eq | .gt | .lt => 1
    | .not | .negate | .true | .false | .null => 1
    | _ => 0
  | .const _ | .str _ | .getGlobal _ | .deepGet _ | .invoke _ _ => 1
  | _ => 0

namespace Line

variable {reaches : Nat → Mark → Prop} {offset : Nat} {before between after : Mark}
  {line : Line} {lines more : List Line}

/-- The mark behind a line. -/
def markAfter (line : Line) : Mark :=
  ⟨line.mark.home, line.mark.height - line.instr.takes + line.instr.leaves⟩

/-- What a line asks of the marks around it. -/
def Checked (reaches : Nat → Mark → Prop) (offset : Nat) (line : Line) : Prop :=
  line.instr.takes ≤ line.mark.height ∧
    match line.instr with
    | .plain .ret _ => line.mark.home.isSome
    | .plain .exit _ => line.mark = ⟨none, 0⟩
    | .jmp distance =>
      ∃ target : Nat, (target : Int) = (offset + line.size : Nat) + distance ∧
        reaches target line.markAfter
    | .jz distance =>
      reaches (offset + line.size) line.markAfter ∧
        ∃ target : Nat, (target : Int) = (offset + line.size : Nat) + distance ∧
          reaches target line.markAfter
    | .func _ arity start =>
      reaches start ⟨some start, arity⟩ ∧ reaches (offset + line.size) line.markAfter
    | .deepSet slot =>
      line.mark.home.isSome ∧ slot + 1 < line.mark.height ∧
        reaches (offset + line.size) line.markAfter
    | .deepGet slot =>
      line.mark.home.isSome ∧ slot < line.mark.height ∧
        reaches (offset + line.size) line.markAfter
    | _ => reaches (offset + line.size) line.markAfter

/-- Lines carry one mark into another, if all marks that they show hold and the
last one does behind them: then the first one holds before them, and each line
is sound. -/
def Carries (reaches : Nat → Mark → Prop) (offset : Nat) (before after : Mark)
    (lines : List Line) : Prop :=
  (∀ p ∈ placed offset lines, reaches p.1 p.2.mark) → reaches (offset + extent lines) after →
    reaches offset before ∧ ∀ p ∈ placed offset lines, p.2.Checked reaches p.1

theorem Carries.nil (reaches : Nat → Mark → Prop) (offset : Nat) (mark : Mark) :
    Carries reaches offset mark mark [] := by
  intro _ behind
  exact ⟨behind, by simp⟩

/-- Marks are carried on from one piece of code to the next. -/
theorem Carries.append (first : Carries reaches offset before between lines)
    (second : Carries reaches (offset + extent lines) between after more) :
    Carries reaches offset before after (lines ++ more) := by
  intro shown behind
  simp only [placed_append, List.mem_append, extent_append, ← Nat.add_assoc] at shown behind ⊢
  obtain ⟨middle, sound'⟩ := second (fun p mem => shown p (.inr mem)) behind
  obtain ⟨start, sound⟩ := first (fun p mem => shown p (.inl mem)) middle
  refine ⟨start, ?_⟩
  rintro p (mem | mem)
  · exact sound p mem
  · exact sound' p mem

/-- A line by itself carries its own mark. -/
theorem Carries.single (h : reaches (offset + line.size) after → line.Checked reaches offset) :
    Carries reaches offset line.mark after [line] := by
  intro shown behind
  refine ⟨shown (offset, line) List.mem_cons_self, ?_⟩
  intro p mem
  rw [placed_cons, placed_nil, List.mem_singleton] at mem
  subst mem
  exact h behind

/-- A line in front may look at all marks behind it. -/
theorem Carries.cons (rest : Carries reaches (offset + line.size) between after lines)
    (h : (∀ p ∈ placed offset (line :: lines), reaches p.1 p.2.mark) →
      reaches (offset + extent (line :: lines)) after →
      reaches (offset + line.size) between → line.Checked reaches offset) :
    Carries reaches offset line.mark after (line :: lines) := by
  intro shown behind
  refine ⟨shown (offset, line) List.mem_cons_self, ?_⟩
  have later := rest (fun p mem => shown p (List.mem_cons_of_mem _ mem))
    (by simpa [Nat.add_assoc] using behind)
  intro p mem
  rw [placed_cons, List.mem_cons] at mem
  rcases mem with rfl | mem
  · exact h shown behind later.1
  · exact later.2 p mem

end Line

open Line (Carries)

/-- Only functions have local variables. -/
def Context.Fair (ctx : Context) : Prop := ctx.home = none → ctx.names = []

namespace Context

variable {ctx : Context}

theorem fair_top : top.Fair := fun _ => rfl

theorem fair_ofBody (start : Nat) (parameters : List Parameter) :
    (ofBody start parameters).Fair := fun inside => nomatch inside

theorem Fair.after (fair : ctx.Fair) (st : Stmt) : (ctx.after st).Fair := by
  intro outside
  rw [after_home] at outside
  have names := fair outside
  cases st <;> simp_all [Context.after, declare]

/-- A name with a slot is a local variable. -/
theorem Fair.slot? (fair : ctx.Fair) {name : String} {slot : Nat}
    (found : ctx.slot? name = some slot) : ctx.home.isSome ∧ slot < ctx.names.length := by
  rw [Context.slot?, Option.map_eq_some_iff] at found
  obtain ⟨index, within, rfl⟩ := found
  obtain ⟨bound, -⟩ := List.findIdx?_eq_some_iff_getElem.mp within
  constructor
  · cases outside : ctx.home with
    | none => simp [fair outside] at bound
    | some start => rfl
  · omega

theorem length_le_after (ctx : Context) (st : Stmt) :
    ctx.names.length ≤ (ctx.after st).names.length := by
  cases st with
  | declare place name value =>
      simp only [after, declare]
      split <;> simp
  | _ => exact Nat.le_refl _

theorem length_le_afterAll (ctx : Context) (body : List Stmt) :
    ctx.names.length ≤ (ctx.afterAll body).names.length := by
  induction body generalizing ctx with
  | nil => exact Nat.le_refl _
  | cons first rest ih => exact Nat.le_trans (ctx.length_le_after first) (ih _)

end Context

variable {reaches : Nat → Mark → Prop} {offset : Nat} {ctx : Context}

/-- Popping lines carry a mark down. -/
theorem popLines_carries (home : Option Nat) (place : Location) (height count : Nat) :
    Carries reaches offset ⟨home, height + count⟩ ⟨home, height⟩
      (popLines home place height count) := by
  induction count generalizing offset with
  | zero => exact .nil reaches offset _
  | succ count ih =>
      refine Carries.cons ih ?_
      intro _ _ next
      exact ⟨by simp [Instr.takes], next⟩

/-- What a block has declared is popped at its end. -/
theorem Context.closing_carries {inner : Context} (place : Location) (same : inner.home = ctx.home)
    (grown : ctx.names.length ≤ inner.names.length) :
    Carries reaches offset (inner.mark 0) (ctx.mark 0) (ctx.closing inner place) := by
  have carried : Carries reaches offset _ _ _ := popLines_carries ctx.home place
    ctx.names.length (inner.names.length - ctx.names.length)
  rw [Nat.add_sub_cancel' grown, ← same] at carried
  simpa [Context.mark, Context.closing, same] using carried

theorem literal_carries (ctx : Context) (extra : Nat) (place : Location) (value : Literal) :
    Carries reaches offset (ctx.mark extra) (ctx.mark (extra + 1))
      [ctx.line extra place value.instr] := by
  refine Carries.single ?_
  intro behind
  cases value with
  | bool value => cases value <;> exact ⟨Nat.zero_le _, behind⟩
  | _ => exact ⟨Nat.zero_le _, behind⟩

theorem fetch_carries (fair : ctx.Fair) (extra : Nat) (place : Location) (name : String) :
    Carries reaches offset (ctx.mark extra) (ctx.mark (extra + 1))
      [ctx.line extra place (ctx.fetch name)] := by
  refine Carries.single ?_
  intro behind
  unfold Context.fetch at behind ⊢
  cases found : ctx.slot? name with
  | none =>
      rw [found] at behind
      exact ⟨Nat.zero_le _, behind⟩
  | some slot =>
      rw [found] at behind
      obtain ⟨inside, small⟩ := fair.slot? found
      exact ⟨Nat.zero_le _, inside, Nat.lt_add_right extra small, behind⟩

theorem store_carries (fair : ctx.Fair) (place : Location) (name : String) :
    Carries reaches offset (ctx.mark 1) (ctx.mark 0) [ctx.line 1 place (ctx.store name)] := by
  refine Carries.single ?_
  intro behind
  have some_value : 1 ≤ (ctx.mark 1).height := Nat.le_add_left 1 _
  unfold Context.store at behind ⊢
  cases found : ctx.slot? name with
  | none =>
      rw [found] at behind
      exact ⟨some_value, behind⟩
  | some slot =>
      rw [found] at behind
      obtain ⟨inside, small⟩ := fair.slot? found
      exact ⟨some_value, inside, Nat.succ_lt_succ small, behind⟩

theorem operator_carries (extra : Nat) (place : Location) (op : BinaryOp) :
    Carries reaches offset (ctx.mark (extra + 2)) (ctx.mark (extra + 1))
      (ctx.operator extra place op) := by
  have base : Carries reaches offset (ctx.mark (extra + 2)) (ctx.mark (extra + 1))
      [ctx.line (extra + 2) place (.plain op.base op.base_bare)] := by
    refine Carries.single ?_
    intro behind
    refine ⟨?_, ?_⟩
    · cases op <;> simp [Context.line, Context.mark, BinaryOp.base, Instr.takes] <;> omega
    · cases op <;> exact behind
  unfold Context.operator
  split
  · refine Carries.append base (Carries.single ?_)
    intro behind
    exact ⟨Nat.le_add_left 1 _, behind⟩
  · exact base

mutual

/-- An expression carries a mark to one with one more value. -/
theorem Expr.carries (fair : ctx.Fair) (extra offset : Nat) (e : Expr) :
    Carries reaches offset (ctx.mark extra) (ctx.mark (extra + 1)) (e.code ctx extra) := by
  cases e with
  | literal place value => exact literal_carries ctx extra place value
  | reference place name => exact fetch_carries fair extra place name
  | unary place op operand =>
      rw [Expr.code]
      refine Carries.append (Expr.carries fair extra offset operand) (Carries.single ?_)
      intro behind
      cases op <;> exact ⟨Nat.le_add_left 1 _, behind⟩
  | binary place op left right =>
      rw [Expr.code]
      refine Carries.append ?_ (operator_carries extra place op)
      exact Carries.append (Expr.carries fair extra offset left)
        (Expr.carries fair (extra + 1) _ right)
  | call place callee arguments =>
      rw [Expr.code]
      refine Carries.append (argumentCode_carries fair extra offset arguments)
        (Carries.single ?_)
      intro behind
      have enough : arguments.length ≤ ctx.names.length + (extra + arguments.length) := by omega
      refine ⟨enough, ?_⟩
      have same : ctx.names.length + (extra + arguments.length) - arguments.length + 1 =
          ctx.names.length + (extra + 1) := by omega
      simpa [Line.markAfter, Context.line, Context.mark, Instr.takes, Instr.leaves, same] using behind

theorem argumentCode_carries (fair : ctx.Fair) (extra offset : Nat) (es : List Expr) :
    Carries reaches offset (ctx.mark extra) (ctx.mark (extra + es.length))
      (argumentCode ctx extra es) := by
  cases es with
  | nil => exact .nil reaches offset _
  | cons first rest =>
      rw [argumentCode]
      refine Carries.append (Expr.carries fair extra offset first) ?_
      rw [List.length_cons, Nat.add_comm rest.length, ← Nat.add_assoc]
      exact argumentCode_carries fair (extra + 1) _ rest

end

/-- A branch carries the mark that it begins with to its end. -/
theorem branch_carries {st : Stmt} (place : Location)
    (h : Carries reaches offset (ctx.mark 0) ((ctx.after st).mark 0) (st.code offset ctx)) :
    Carries reaches offset (ctx.mark 0) (ctx.mark 0)
      (st.code offset ctx ++ ctx.closing (ctx.after st) place) :=
  h.append (ctx.closing_carries place (ctx.after_home st) (ctx.length_le_after st))

/-- A test is followed by what runs if it holds. Where the jump leads, the same
mark has to hold. -/
theorem test_carries (fair : ctx.Fair) (place : Location) (condition : Expr) (distance : Nat)
    {after : Mark} {begins : Nat} {part : List Line}
    (begin_eq : offset + extent (condition.code ctx 0) + Opcode.jz.size = begins)
    (carried : Carries reaches begins (ctx.mark 0) after part)
    (lands : (∀ p ∈ placed begins part, reaches p.1 p.2.mark) →
      reaches (begins + extent part) after → reaches (begins + distance) (ctx.mark 0)) :
    Carries reaches offset (ctx.mark 0) after
      (condition.code ctx 0 ++ ctx.line 1 place (.jz distance) :: part) := by
  subst begin_eq
  refine Carries.append (Expr.carries fair 0 offset condition) (Carries.cons carried ?_)
  intro shown behind next
  refine ⟨Nat.le_add_left 1 _, next, _, Int.natCast_add _ _, ?_⟩
  refine lands (fun p mem => shown p (List.mem_cons_of_mem _ mem)) ?_
  simpa [Nat.add_assoc, Instr.op] using behind

/-- Of two branches one is run, and a jump leads around the other. -/
theorem choice_carries (fair : ctx.Fair) (place : Location) (condition : Expr)
    {first second : List Line}
    (yes : Carries reaches (offset + extent (condition.code ctx 0) + Opcode.jz.size)
      (ctx.mark 0) (ctx.mark 0) first)
    (no : Carries reaches
      (offset + extent (condition.code ctx 0) + Opcode.jz.size + extent first + Opcode.jmp.size)
      (ctx.mark 0) (ctx.mark 0) second) :
    Carries reaches offset (ctx.mark 0) (ctx.mark 0)
      (condition.code ctx 0 ++
        ctx.line 1 place (.jz (extent first + Opcode.jmp.size : Nat)) ::
          (first ++ ctx.line 0 place (.jmp (extent second)) :: second)) := by
  refine test_carries fair place condition _ rfl (yes.append (no.cons ?_)) ?_
  · intro _ behind _
    refine ⟨Nat.zero_le _, _, Int.natCast_add _ _, ?_⟩
    rw [Line.extent_cons, ← Nat.add_assoc] at behind
    exact behind
  · intro shown behind
    have reached := no
      (fun p mem => shown p (by simp [mem, Instr.op]))
      (by simpa [Nat.add_assoc, Instr.op] using behind)
    simpa [Nat.add_assoc] using reached.1

/-- A loop goes back to its test. -/
theorem loop_carries (fair : ctx.Fair) (place : Location) (condition : Expr)
    {part : List Line}
    (carried : Carries reaches (offset + extent (condition.code ctx 0) + Opcode.jz.size)
      (ctx.mark 0) (ctx.mark 0) part) :
    Carries reaches offset (ctx.mark 0) (ctx.mark 0)
      (condition.code ctx 0 ++
        ctx.line 1 place (.jz (extent part + Opcode.jmp.size : Nat)) ::
          (part ++ [ctx.line 0 place (.jmp (-(extent (condition.code ctx 0) + Opcode.jz.size +
            extent part + Opcode.jmp.size : Nat)))])) := by
  intro shown behind
  -- The mark at the test does not depend on the jump that leads back to it.
  have start : reaches offset (ctx.mark 0) := by
    refine (Expr.carries fair 0 offset condition (fun p mem => shown p (by simp [mem]))
      (shown (_, ctx.line 1 place (.jz (extent part + Opcode.jmp.size : Nat))) ?_)).1
    simp
  refine (test_carries fair place condition (extent part + Opcode.jmp.size) rfl
    (carried.append (Carries.single ?_)) ?_) shown behind
  · intro _
    refine ⟨Nat.zero_le _, offset, ?_, start⟩
    simp only [Context.line_size, Instr.op]
    omega
  · intro _ behind
    simpa [Instr.op] using behind

/-- The body of a function begins with the arguments, and is jumped over where
the function is defined. -/
theorem function_carries (place : Location) (name : String) (parameters : List Parameter)
    {inner : List Line} {start : Nat}
    (carried : Carries reaches (offset + Opcode.func.size + Opcode.jmp.size)
      ((Context.ofBody start parameters).mark 0) (ctx.mark 0) inner)
    (start_eq : start = offset + Opcode.func.size + Opcode.jmp.size) :
    Carries reaches offset (ctx.mark 0) (ctx.mark 0)
      (ctx.line 0 place (.func name parameters.length start) ::
        ctx.line 0 place (.jmp (extent inner)) :: inner) := by
  intro shown behind
  simp only [Line.placed_cons, Line.extent_cons, Context.line_size, Instr.op, ← Nat.add_assoc,
    List.mem_cons] at shown behind ⊢
  obtain ⟨entered, sound⟩ := carried (fun p mem => shown p (.inr (.inr mem))) behind
  refine ⟨shown _ (.inl rfl), ?_⟩
  rintro p (rfl | rfl | mem)
  · refine ⟨Nat.zero_le _, ?_, shown _ (.inr (.inl rfl))⟩
    subst start_eq
    simpa [Context.mark, Context.ofBody] using entered
  · exact ⟨Nat.zero_le _, _, Int.natCast_add _ _, behind⟩
  · exact sound p mem

/-- Nothing comes behind a value that is returned. -/
theorem ret_carries (fair : ctx.Fair) (offset : Nat) (place : Location) (value : Option Expr)
    (inside : ctx.home.isSome) {after : Mark} :
    Carries reaches offset (ctx.mark 0) after (Stmt.code offset ctx (.ret place value)) := by
  have returns {pushed : List Line}
      (h : Carries reaches offset (ctx.mark 0) (ctx.mark 1) pushed) :
      Carries reaches offset (ctx.mark 0) after
        (pushed ++ [ctx.line 1 place (.plain .ret rfl)]) :=
    h.append (Carries.single fun _ => ⟨Nat.le_add_left 1 _, inside⟩)
  cases value with
  | none =>
      have pushed : Carries reaches offset (ctx.mark 0) (ctx.mark 1)
          [ctx.line 0 place (.plain .null rfl)] :=
        Carries.single fun behind => ⟨Nat.zero_le _, behind⟩
      exact returns pushed
  | some value => exact returns (Expr.carries fair 0 offset value)

mutual

/-- A statement carries the mark that it begins with to one that counts the
variable that it may have declared. -/
theorem Stmt.carries {ctx : Context} (fair : ctx.Fair) (offset : Nat) (st : Stmt)
    (legal : st.Legal ctx.home.isSome) :
    Carries reaches offset (ctx.mark 0) ((ctx.after st).mark 0) (st.code offset ctx) := by
  cases st with
  | expression place value =>
      rw [Stmt.code]
      refine Carries.append (Expr.carries fair 0 offset value) (Carries.single ?_)
      intro behind
      exact ⟨Nat.le_add_left 1 _, behind⟩
  | print place value =>
      rw [Stmt.code]
      refine Carries.append (Expr.carries fair 0 offset value) (Carries.single ?_)
      intro behind
      exact ⟨Nat.le_add_left 1 _, behind⟩
  | declare place name value =>
      rw [Stmt.code]
      have carried : Carries reaches offset _ _ _ := Expr.carries fair 0 offset value
      simp only [Context.after, Context.declare]
      split
      · simpa [Context.mark, Nat.add_comm 1] using carried
      · refine carried.append (Carries.single ?_)
        intro behind
        exact ⟨Nat.le_add_left 1 _, behind⟩
  | assign place name value =>
      rw [Stmt.code]
      exact (Expr.carries fair 0 offset value).append (store_carries fair place name)
  | block place body =>
      rw [Stmt.code]
      refine Carries.append (listCode_carries fair offset body legal) ?_
      exact ctx.closing_carries place (ctx.afterAll_home body) (ctx.length_le_afterAll body)
  | ifThen place condition yes =>
      rw [Stmt.code]
      refine test_carries fair place condition _ rfl
        (branch_carries place (Stmt.carries fair _ yes legal)) ?_
      exact fun _ behind => behind
  | ifElse place condition yes no =>
      rw [Stmt.code]
      exact choice_carries fair place condition
        (branch_carries place (Stmt.carries fair _ yes legal.1))
        (branch_carries place (Stmt.carries fair _ no legal.2))
  | loop place condition body =>
      rw [Stmt.code]
      exact loop_carries fair place condition
        (branch_carries place (Stmt.carries fair _ body legal))
  | function place name parameters bodyPlace body =>
      rw [Stmt.code]
      obtain ⟨outside, bodyLegal⟩ := legal
      exact function_carries place name parameters
        (bodyCode_carries (Context.fair_ofBody _ parameters) _ bodyPlace body rfl bodyLegal)
        rfl
  | ret place value =>
      exact ret_carries fair offset place value legal

theorem listCode_carries {ctx : Context} (fair : ctx.Fair) (offset : Nat) (body : List Stmt)
    (legal : listLegal ctx.home.isSome body) :
    Carries reaches offset (ctx.mark 0) ((ctx.afterAll body).mark 0)
      (listCode offset ctx body) := by
  cases body with
  | nil => exact .nil reaches offset _
  | cons first rest =>
      rw [listCode]
      refine Carries.append (Stmt.carries fair offset first legal.1) ?_
      refine listCode_carries (fair.after first) _ rest ?_
      simpa using legal.2

/-- The body of a function needs no mark behind it: control never gets there. -/
theorem bodyCode_carries {ctx : Context} (fair : ctx.Fair) (offset : Nat) (bodyPlace : Location)
    (body : List Stmt) (inside : ctx.home.isSome) (legal : bodyLegal body) {after : Mark} :
    Carries reaches offset (ctx.mark 0) after (bodyCode offset ctx bodyPlace body) := by
  cases body with
  | nil =>
      rw [bodyCode]
      have pushed : Carries reaches offset (ctx.mark 0) (ctx.mark 1)
          [ctx.line 0 bodyPlace (.plain .null rfl)] :=
        Carries.single fun behind => ⟨Nat.zero_le _, behind⟩
      exact pushed.append (Carries.single fun _ => ⟨Nat.le_add_left 1 _, inside⟩)
  | cons first rest =>
      rw [bodyCode]
      have legal' : first.Legal ctx.home.isSome := inside ▸ legal.1
      cases returns : first.isReturn with
      | true =>
          obtain ⟨place, value, rfl⟩ : ∃ place value, first = .ret place value := by
            cases first <;> first | exact ⟨_, _, rfl⟩ | cases returns
          exact ret_carries fair offset place value inside
      | false =>
          refine Carries.append (Stmt.carries fair offset first legal') ?_
          refine bodyCode_carries (fair.after first) _ bodyPlace rest ?_ (legal.2 returns)
          simpa using inside

end

/-- The marks that lines show. -/
def Line.Reaches (lines : List Line) (offset : Nat) (mark : Mark) : Prop :=
  ∃ line, (offset, line) ∈ placed 0 lines ∧ line.mark = mark

/-- Control never leaves the lines: each is sound, given the marks that all of them
show. -/
def Line.Closed (lines : List Line) : Prop :=
  ∀ p ∈ placed 0 lines, p.2.Checked (Line.Reaches lines) p.1

/-- The end of a program. -/
def exitLine (place : Option Location) : Line := ⟨place, ⟨none, 0⟩, .plain .exit rfl⟩

/-- Statements with the end of the program behind them are a program, which starts
with nothing on the stack. -/
theorem program_closed {body : List Stmt} (legal : listLegal false body)
    (place : Option Location) :
    Line.Reaches (listCode 0 .top body ++ [exitLine place]) 0 ⟨none, 0⟩ ∧
      Line.Closed (listCode 0 .top body ++ [exitLine place]) := by
  have statements : Carries (Line.Reaches (listCode 0 .top body ++ [exitLine place])) 0 _ _ _ :=
    listCode_carries Context.fair_top 0 body legal
  obtain ⟨start, sound⟩ := statements (fun p mem => ⟨p.2, by simp [mem], rfl⟩)
    ⟨exitLine place, by simp, by rw [Context.afterAll_top]; rfl⟩
  refine ⟨start, ?_⟩
  intro p mem
  rw [Line.placed_append, List.mem_append] at mem
  rcases mem with mem | mem
  · exact sound p mem
  · rw [Line.placed_cons, Line.placed_nil, List.mem_singleton] at mem
    subst mem
    exact ⟨Nat.zero_le _, rfl⟩

end StackScript
