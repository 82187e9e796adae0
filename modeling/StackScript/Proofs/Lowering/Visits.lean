/-
# Visits

To lower a statement, the statements and expressions in it are lowered on the way. A visit is
one of these lowerings. Wherever it takes place, the code that it adds stands in the finished
program at the same offset, and the marks of the program hold before it and behind it.
-/

import StackScript.Proofs.Lowering.Layout

namespace StackScript

open Line (extent placed Carries Part Reaches)

/-- What is lowered as a whole. -/
inductive Piece where
  | statement (st : Stmt)
  | expression (e : Expr)

/-- The lowering of a statement or an expression. -/
def Piece.lower (depth : Depth) : Piece → Lower Unit
  | statement st => Lowering.statement depth st
  | expression e => Lowering.expression depth e

namespace Stmt

/-- The expression that a statement begins with. -/
def operand? : Stmt → Option Expr
  | expression _ value | print _ value | declare _ _ value | assign _ _ value => some value
  | ifThen _ condition _ | ifElse _ condition _ _ | loop _ condition _ => some condition
  | ret _ value => value
  | block _ _ | function _ _ _ _ _ => none

/-- A condition and the statement that runs if it holds. -/
def guarded? : Stmt → Option (Expr × Stmt)
  | ifThen _ condition yes | ifElse _ condition yes _ | loop _ condition yes =>
    some (condition, yes)
  | _ => none

end Stmt

namespace Lowering

/-- The number of local variables in scope. -/
def localCount (s : Lowering) : Nat := s.scope.elim 0 Scope.size

/-- The slot that a name means. -/
def slotOf? (s : Lowering) (name : String) : Option Nat := s.scope.bind fun scope => scope.find? name

/-- The state at the beginning of a block. -/
def inBlock (s : Lowering) : Lowering := { s with scope := s.scope.map .enter }

/-- In the course of lowering one piece, another that is part of it comes next. -/
inductive Enters : Piece → Lowering → Piece → Lowering → Prop
  | operand {place : Location} {op : UnaryOp} {inner : Expr} {s : Lowering} :
      Enters (.expression (.unary place op inner)) s (.expression inner) s
  | left {place : Location} {op : BinaryOp} {left right : Expr} {s : Lowering} :
      Enters (.expression (.binary place op left right)) s (.expression left) s
  | right {place : Location} {op : BinaryOp} {left right : Expr} {s mid : Lowering}
      {depth : Depth} : expression depth left s = .ok () mid →
        Enters (.expression (.binary place op left right)) s (.expression right) mid
  | argument {place : Location} {callee : String} {front back : List Expr} {argument : Expr}
      {s mid : Lowering} {depth : Depth} : argumentList depth front s = .ok () mid →
        Enters (.expression (.call place callee (front ++ argument :: back))) s
          (.expression argument) mid
  | start {st : Stmt} {value : Expr} {s : Lowering} : st.operand? = some value →
      Enters (.statement st) s (.expression value) s
  | guarded {st yes : Stmt} {condition : Expr} {s tested jumped : Lowering} {skip : Nat}
      {depth : Depth} : st.guarded? = some (condition, yes) →
        expression depth condition s = .ok () tested →
        Lower.jump st.location .jz tested = .ok skip jumped →
          Enters (.statement st) s (.statement yes) jumped.inBlock
  | otherwise {place : Location} {condition : Expr} {yes no : Stmt}
      {s tested jumped branched left settled : Lowering} {skip leave : Nat} {depth : Depth} :
      expression depth condition s = .ok () tested →
        Lower.jump place .jz tested = .ok skip jumped →
        Lower.block place (do statement (← depth.deeper) yes) jumped = .ok () branched →
        Lower.jump place .jmp branched = .ok leave left →
        Lower.settle place skip left.chunk.size left = .ok () settled →
          Enters (.statement (.ifElse place condition yes no)) s (.statement no) settled.inBlock
  | member {place : Location} {front back : List Stmt} {st : Stmt} {s mid : Lowering}
      {depth : Depth} : statementList depth front s.inBlock = .ok () mid →
        Enters (.statement (.block place (front ++ st :: back))) s (.statement st) mid
  | body {place bodyPlace : Location} {name : String} {parameters : List Parameter}
      {front back : List Stmt} {st : Stmt} {s entered mid : Lowering} {skip : Nat}
      {depth : Depth} : functionHead place name parameters s = .ok skip entered →
        statementList depth front entered = .ok () mid →
        (∀ earlier ∈ front, earlier.isReturn = false) →
          Enters (.statement (.function place name parameters bodyPlace (front ++ st :: back))) s
            (.statement st) mid

/-- The pieces that a lowering comes to, the one that it starts with included. -/
inductive Comes : Piece → Lowering → Piece → Lowering → Prop
  | here {p : Piece} {s : Lowering} : Comes p s p s
  | next {p q r : Piece} {s mid later : Lowering} :
      Comes p s q mid → Enters q mid r later → Comes p s r later

end Lowering

/-- A piece that has been lowered, and the states before and after it. -/
structure Visit where
  piece : Piece
  start : Lowering
  stop : Lowering

/-- Adding a statement to a chunk, a piece of it is lowered. -/
structure Stmt.Visits (st : Stmt) (chunk : Chunk) (visit : Visit) : Prop where
  comes : Lowering.Comes (.statement st) ⟨chunk, none⟩ visit.piece visit.start
  ends : ∃ depth, visit.piece.lower depth visit.start = .ok () visit.stop

section Marks

variable {before between after : Mark} {lines more : List Line}

/-- Lines begin with a mark, unless there are none. -/
def Line.Opens (before after : Mark) : List Line → Prop
  | [] => before = after
  | line :: _ => line.mark = before

theorem Line.Opens.append (h : Line.Opens before between lines)
    (h' : Line.Opens between after more) : Line.Opens before after (lines ++ more) := by
  cases lines with
  | nil =>
      obtain rfl : before = between := h
      exact h'
  | cons line lines => exact h

/-- Lines that carry a mark, whatever marks hold elsewhere, begin with it. -/
theorem Line.Opens.of_carries (offset : Nat)
    (h : ∀ reaches, Carries reaches offset before after lines) : Line.Opens before after lines := by
  cases lines with
  | nil =>
      have carried := h (fun at' mark => at' = offset ∧ mark = after) (by simp) ⟨rfl, rfl⟩
      exact carried.1.2
  | cons line lines =>
      have carried := h
        (fun at' mark => (∃ found, (at', found) ∈ placed offset (line :: lines) ∧
          found.mark = mark) ∨ offset < at')
        (fun p mem => .inl ⟨p.2, mem, rfl⟩)
        (.inr (by have := line.size_pos; simp only [Line.extent_cons]; omega))
      rcases carried.1 with ⟨found, mem, same⟩ | later
      · rw [Line.placed_unique mem List.mem_cons_self] at same
        exact same
      · exact absurd later (Nat.lt_irrefl offset)

/-- A part of a part. -/
theorem Line.Part.trans {start offset inside : Nat} {part inner : List Line}
    (h : Part start lines offset part) (h' : Part offset part inside inner) :
    Part start lines inside inner := by
  obtain ⟨front, back, rfl, rfl⟩ := h
  obtain ⟨front', back', rfl, rfl⟩ := h'
  exact ⟨front ++ front', back' ++ back, by simp, by simp [Nat.add_assoc]⟩

/-- The mark that a part opens with holds where the part starts. -/
theorem Line.Part.reaches {offset : Nat} {part : List Line} (h : Part 0 lines offset part)
    (opens : Line.Opens before after part)
    (behind : part = [] → Reaches lines (offset + extent part) after) :
    Reaches lines offset before := by
  cases part with
  | nil =>
      obtain rfl : before = after := opens
      exact behind rfl
  | cons line rest => exact ⟨line, h.mem List.mem_cons_self, opens⟩

end Marks

section Drafts

variable {ctx : Context}

theorem argumentCode_append (ctx : Context) (extra : Nat) (front back : List Expr) :
    argumentCode ctx extra (front ++ back) =
      argumentCode ctx extra front ++ argumentCode ctx (extra + front.length) back := by
  induction front generalizing extra with
  | nil => rfl
  | cons first rest ih =>
      simp only [List.cons_append, argumentCode, ih, List.append_assoc, List.length_cons,
        Nat.add_right_comm extra 1, Nat.add_assoc]

/-- The statements before the first that returns are like any others in a row. -/
theorem bodyCode_append (offset : Nat) (ctx : Context) (bodyPlace : Location)
    {front : List Stmt} (goesOn : ∀ st ∈ front, st.isReturn = false) (back : List Stmt) :
    bodyCode offset ctx bodyPlace (front ++ back) =
      listCode offset ctx front ++
        bodyCode (offset + extent (listCode offset ctx front)) (ctx.afterAll front) bodyPlace
          back := by
  induction front generalizing offset ctx with
  | nil => simp [listCode]
  | cons first rest ih =>
      have here := goesOn first List.mem_cons_self
      have later := fun st mem => goesOn st (List.mem_cons_of_mem first mem)
      simp [bodyCode, listCode, here, ih _ _ later, Nat.add_assoc]

theorem bodyLegal.right {front back : List Stmt} (h : bodyLegal (front ++ back))
    (goesOn : ∀ st ∈ front, st.isReturn = false) : bodyLegal back := by
  induction front with
  | nil => exact h
  | cons first rest ih =>
      exact ih (h.2 (goesOn first List.mem_cons_self))
        (fun st mem => goesOn st (List.mem_cons_of_mem first mem))

theorem Context.afterAll_append (ctx : Context) (front back : List Stmt) :
    ctx.afterAll (front ++ back) = (ctx.afterAll front).afterAll back := List.foldl_append

theorem Context.Fair.afterAll (fair : ctx.Fair) (body : List Stmt) : (ctx.afterAll body).Fair := by
  induction body generalizing ctx with
  | nil => exact fair
  | cons first rest ih => exact ih (fair.after first)

theorem Expr.opens (fair : ctx.Fair) (extra : Nat) (e : Expr) :
    Line.Opens (ctx.mark extra) (ctx.mark (extra + 1)) (e.code ctx extra) :=
  .of_carries 0 fun _ => e.carries fair extra 0

theorem argumentCode_opens (fair : ctx.Fair) (extra : Nat) (es : List Expr) :
    Line.Opens (ctx.mark extra) (ctx.mark (extra + es.length)) (argumentCode ctx extra es) :=
  .of_carries 0 fun _ => argumentCode_carries fair extra 0 es

theorem operator_opens (extra : Nat) (place : Location) (op : BinaryOp) :
    Line.Opens (ctx.mark (extra + 2)) (ctx.mark (extra + 1)) (ctx.operator extra place op) :=
  .of_carries 0 fun _ => operator_carries extra place op

theorem Context.closing_opens {inner : Context} (place : Location) (same : inner.home = ctx.home)
    (grown : ctx.names.length ≤ inner.names.length) :
    Line.Opens (inner.mark 0) (ctx.mark 0) (ctx.closing inner place) :=
  .of_carries 0 fun _ => ctx.closing_carries place same grown

theorem listCode_opens (fair : ctx.Fair) (offset : Nat) {body : List Stmt}
    (legal : listLegal ctx.home.isSome body) :
    Line.Opens (ctx.mark 0) ((ctx.afterAll body).mark 0) (listCode offset ctx body) :=
  .of_carries offset fun _ => listCode_carries fair offset body legal

theorem bodyCode_opens (fair : ctx.Fair) (offset : Nat) (bodyPlace : Location)
    {body : List Stmt} (inside : ctx.home.isSome) (legal : bodyLegal body) {after : Mark} :
    Line.Opens (ctx.mark 0) after (bodyCode offset ctx bodyPlace body) :=
  .of_carries offset fun _ => bodyCode_carries fair offset bodyPlace body inside legal

end Drafts

namespace Lower

variable {α : Type} {base : Chunk} {x : Lower α} {s later : Lowering} {value : α}
  {post : α → Lowering → Prop}

/-- The state that a lowering ends in, if it succeeds. -/
def ending? (x : Lower α) (s : Lowering) : Option Lowering :=
  match x s with
  | .ok _ later => some later
  | .error _ _ => none

theorem exists_of_ending? (h : x.ending? s = some later) : ∃ value, x s = .ok value later := by
  unfold ending? at h
  split at h
  · cases h
    exact ⟨_, ‹_›⟩
  · cases h

/-- A step that has succeeded has done what it promised. -/
theorem Ensures.of_ok (h : Ensures base x s post) (run : x s = .ok value later) :
    post value later := by
  have outcome := h.outcome
  rwa [run] at outcome

end Lower

namespace Drafting

variable {base : Chunk} {code : List Line} {ctx : Context} {s : Lowering}

/-- What has been added already may be counted to the chunk. -/
theorem rebase (h : Drafting base code ctx s) : Drafting s.chunk [] ctx s :=
  ⟨h.chunkRoomy, rfl, h.described⟩

theorem inBlock (h : Drafting base code ctx s) : Drafting base code ctx s.inBlock := h.enter

end Drafting

namespace Piece

/-- The draft of a piece. -/
def code (offset : Nat) (ctx : Context) (extra : Nat) : Piece → List Line
  | statement st => st.code offset ctx
  | expression e => e.code ctx extra

/-- The mark behind a piece. -/
def after (ctx : Context) (extra : Nat) : Piece → Mark
  | statement st => (ctx.after st).mark extra
  | expression _ => ctx.mark (extra + 1)

/-- Does control never come behind a piece? -/
def isReturn : Piece → Bool
  | statement st => st.isReturn
  | expression _ => false

/-- May a piece stand here? There is nothing above the local variables when a statement
begins. -/
def Legal (ctx : Context) (extra : Nat) : Piece → Prop
  | statement st => extra = 0 ∧ st.Legal ctx.home.isSome
  | expression _ => True

variable {p q : Piece} {lines : List Line} {s later : Lowering} {ctx inner : Context}
  {extra above : Nat}

/-- The code that a piece adds now stands here in the finished program, and the marks of the
program tell how many values are on the stack behind it. -/
structure Stands (p : Piece) (lines : List Line) (s : Lowering) (ctx : Context) (extra : Nat) :
    Prop where
  drafted : Drafting s.chunk [] ctx s
  part : Part 0 lines s.chunk.size (p.code s.chunk.size ctx extra)
  fair : ctx.Fair
  legal : p.Legal ctx extra
  behind : p.isReturn = false →
    Reaches lines (s.chunk.size + extent (p.code s.chunk.size ctx extra)) (p.after ctx extra)

/-- A piece stands where its draft is found in that of a larger piece. -/
theorem Stands.descend (h : p.Stands lines s ctx extra) (front back : List Line)
    (drafted : Drafting later.chunk [] inner later) (fair : inner.Fair) (legal : q.Legal inner above)
    (same : p.code s.chunk.size ctx extra = front ++ (q.code later.chunk.size inner above ++ back))
    (size : later.chunk.size = s.chunk.size + extent front)
    (opens : q.isReturn = false → Line.Opens (q.after inner above) (p.after ctx extra) back)
    (last : q.isReturn = false → back = [] → p.isReturn = false) :
    q.Stands lines later inner above := by
  refine ⟨drafted, h.part.trans ⟨front, back, same, size⟩, fair, legal, fun goesOn => ?_⟩
  have rest : Part 0 lines (later.chunk.size + extent (q.code later.chunk.size inner above)) back :=
    h.part.trans ⟨front ++ q.code later.chunk.size inner above, [], by simp [same],
      by simp [size, Nat.add_assoc]⟩
  refine rest.reaches (opens goesOn) fun empty => ?_
  have behind := h.behind (last goesOn empty)
  rw [same] at behind
  simpa [size, Nat.add_assoc] using behind

end Piece

section Steps

variable {lines : List Line} {s later : Lowering} {ctx : Context} {extra : Nat}

/-- After its first expression, a statement has something left to do with the value, or the
value stays. -/
theorem Stmt.code_operand {st : Stmt} {value : Expr} (found : st.operand? = some value)
    (offset : Nat) (ctx : Context) :
    ∃ back, st.code offset ctx = value.code ctx 0 ++ back ∧
      Line.Opens (ctx.mark 1) ((ctx.after st).mark 0) back ∧
      (back = [] → st.isReturn = false) := by
  cases st with
  | declare place name value =>
      obtain rfl := Option.some.inj found
      refine ⟨_, rfl, ?_, fun _ => rfl⟩
      rw [Context.after, Context.declare]
      split
      · rfl
      · rfl
  | block | function => cases found
  | ret place value =>
      obtain rfl : value = some _ := found
      exact ⟨_, rfl, rfl, nofun⟩
  | _ =>
      obtain rfl := Option.some.inj found
      exact ⟨_, rfl, rfl, fun _ => rfl⟩

/-- The statement that a condition guards stands behind the jump, as a block of its own. -/
theorem Stmt.code_guarded {st yes : Stmt} {condition : Expr}
    (found : st.guarded? = some (condition, yes)) (offset : Nat) (ctx : Context) :
    st.isReturn = false ∧ ctx.after st = ctx ∧
      (∀ inside, st.Legal inside → yes.Legal inside) ∧
      ∃ jump back, st.code offset ctx =
          condition.code ctx 0 ++ ctx.line 1 st.location (.jz jump) ::
            (yes.code (offset + extent (condition.code ctx 0) + Opcode.jz.size) ctx ++
              ctx.closing (ctx.after yes) st.location ++ back) ∧
        Line.Opens (ctx.mark 0) (ctx.mark 0) back := by
  cases st with
  | ifThen place condition yes =>
      obtain ⟨rfl, rfl⟩ := Prod.mk.inj (Option.some.inj found)
      refine ⟨rfl, rfl, fun _ => id, ?_⟩
      simp only [code, location]
      exact ⟨_, [], by rw [List.append_nil], rfl⟩
  | ifElse place condition yes no =>
      obtain ⟨rfl, rfl⟩ := Prod.mk.inj (Option.some.inj found)
      exact ⟨rfl, rfl, fun _ => And.left, _, _, rfl, rfl⟩
  | loop place condition body =>
      obtain ⟨rfl, rfl⟩ := Prod.mk.inj (Option.some.inj found)
      exact ⟨rfl, rfl, fun _ => id, _, _, rfl, rfl⟩
  | _ => cases found

namespace Piece.Stands

open Lowering Lower

/-- The first expression of a statement stands where the statement does. -/
theorem operand {st : Stmt} {value : Expr} (h : (Piece.statement st).Stands lines s ctx extra)
    (found : st.operand? = some value) : (Piece.expression value).Stands lines s ctx 0 := by
  obtain ⟨rfl, legal⟩ := h.legal
  obtain ⟨back, same, opens, last⟩ := st.code_operand found s.chunk.size ctx
  exact h.descend [] back h.drafted h.fair trivial same rfl (fun _ => opens) fun _ => last

/-- A guarded statement stands behind its condition and the jump around it. -/
theorem guarded {st yes : Stmt} {condition : Expr} {tested jumped : Lowering} {skip : Nat}
    {depth : Depth} (h : (Piece.statement st).Stands lines s ctx extra)
    (found : st.guarded? = some (condition, yes))
    (test : Lowering.expression depth condition s = .ok () tested)
    (jumps : Lower.jump st.location .jz tested = .ok skip jumped) :
    (Piece.statement yes).Stands lines jumped.inBlock ctx 0 := by
  obtain ⟨rfl, legal⟩ := h.legal
  obtain ⟨goesOn, after, inner, jump, back, same, opens⟩ :=
    st.code_guarded found s.chunk.size ctx
  obtain ⟨drafted, -⟩ := (expression_ensures condition h.drafted depth 0).of_ok test
  obtain ⟨drafted, -, -⟩ := (jump_ensures drafted .jz (by simp) (ctx.mark 1)).of_ok jumps
  have size : jumped.chunk.size =
      s.chunk.size + extent (condition.code ctx 0) + Opcode.jz.size := by
    simp [drafted.size_eq, Line.size, Instr.op, Nat.add_assoc]
  refine h.descend (condition.code ctx 0 ++ [ctx.line 1 st.location (.jz jump)])
    (ctx.closing (ctx.after yes) st.location ++ back) drafted.rebase.inBlock h.fair
    ⟨rfl, inner _ legal⟩ ?_ ?_ (fun _ => ?_) (fun _ _ => goesOn)
  · simp only [Piece.code, Lowering.inBlock, size, same]
    simp
  · simp [Lowering.inBlock, size, Instr.op, Nat.add_assoc]
  · show Line.Opens _ ((ctx.after st).mark 0) _
    rw [after]
    exact (ctx.closing_opens _ (ctx.after_home yes) (ctx.length_le_after yes)).append opens

/-- The alternative stands behind the guarded statement and the jump that leaves it. -/
theorem otherwise {place : Location} {condition : Expr} {yes no : Stmt}
    {tested jumped branched left settled : Lowering} {skip leave : Nat} {depth : Depth}
    (h : (Piece.statement (.ifElse place condition yes no)).Stands lines s ctx extra)
    (test : Lowering.expression depth condition s = .ok () tested)
    (jumps : Lower.jump place .jz tested = .ok skip jumped)
    (runs : Lower.block place (do Lowering.statement (← depth.deeper) yes) jumped =
      .ok () branched)
    (leaves : Lower.jump place .jmp branched = .ok leave left)
    (settles : Lower.settle place skip left.chunk.size left = .ok () settled) :
    (Piece.statement no).Stands lines settled.inBlock ctx 0 := by
  obtain ⟨rfl, -, legal⟩ := h.legal
  obtain ⟨drafted, -⟩ := (expression_ensures condition h.drafted depth 0).of_ok test
  obtain ⟨drafted, -, rfl⟩ := (jump_ensures drafted .jz (by simp) (ctx.mark 1)).of_ok jumps
  obtain ⟨drafted, -, -⟩ :=
    (branch_ensures (statement_follows s.chunk yes) place depth drafted).of_ok runs
  rw [extent_test, Line.extent_nil, Nat.add_zero] at drafted
  generalize guarded : yes.code (s.chunk.size + extent (condition.code ctx 0) + Opcode.jz.size) ctx ++
    ctx.closing (ctx.after yes) place = first at drafted
  obtain ⟨drafted, -, -⟩ := (jump_ensures drafted .jmp (by simp) (ctx.mark 0)).of_ok leaves
  obtain ⟨drafted, -⟩ := (settleHere_ensures .jz (by simp) (ctx.mark 1)
    (first ++ [openJump ctx 0 place .jmp]) (regroup drafted (by simp))).of_ok settles
  have size : settled.chunk.size = s.chunk.size + extent (condition.code ctx 0) +
      Opcode.jz.size + extent first + Opcode.jmp.size := by
    simp [drafted.size_eq, Line.size, Instr.op, Nat.add_assoc]
  have same : Stmt.code s.chunk.size ctx (.ifElse place condition yes no) =
      condition.code ctx 0 ++ ctx.line 1 place (.jz (extent first + Opcode.jmp.size : Nat)) ::
        (first ++ ctx.line 0 place (.jmp (extent (no.code settled.chunk.size ctx ++
          ctx.closing (ctx.after no) place))) ::
            (no.code settled.chunk.size ctx ++ ctx.closing (ctx.after no) place)) := by
    rw [size, ← guarded]
    rfl
  refine h.descend
    (condition.code ctx 0 ++ ctx.line 1 place (.jz (extent first + Opcode.jmp.size : Nat)) ::
      (first ++ [ctx.line 0 place (.jmp (extent (no.code settled.chunk.size ctx ++
        ctx.closing (ctx.after no) place)))]))
    (ctx.closing (ctx.after no) place) drafted.rebase.inBlock h.fair ⟨rfl, legal⟩ ?_ ?_
    (fun _ => ctx.closing_opens _ (ctx.after_home no) (ctx.length_le_after no)) (fun _ _ => rfl)
  · rw [Piece.code, same]
    simp [Piece.code, Lowering.inBlock]
  · simp [Lowering.inBlock, size, Instr.op, Nat.add_assoc]

/-- A statement of a block stands behind those before it. -/
theorem member {place : Location} {front back : List Stmt} {st : Stmt} {mid : Lowering}
    {depth : Depth}
    (h : (Piece.statement (.block place (front ++ st :: back))).Stands lines s ctx extra)
    (runs : Lowering.statementList depth front s.inBlock = .ok () mid) :
    (Piece.statement st).Stands lines mid (ctx.afterAll front) 0 := by
  obtain ⟨rfl, legal⟩ := h.legal
  obtain ⟨legalFront, legal, legalBack⟩ :=
    (listLegal_append ctx.home.isSome front (st :: back)).mp legal
  obtain ⟨drafted, -, -⟩ :=
    (statementList_ensures s.chunk front h.drafted.inBlock depth).of_ok runs
  have size : mid.chunk.size = s.chunk.size + extent (listCode s.chunk.size ctx front) := by
    simp [drafted.size_eq]
  have whole := ctx.afterAll_append front (st :: back)
  have legalBack : listLegal ((ctx.afterAll front).after st).home.isSome back := by
    simpa using legalBack
  have opens := listCode_opens ((h.fair.afterAll front).after st)
    (mid.chunk.size + extent (st.code mid.chunk.size (ctx.afterAll front))) legalBack
  rw [Context.afterAll_cons] at whole
  rw [← whole] at opens
  refine h.descend (listCode s.chunk.size ctx front)
    (listCode _ ((ctx.afterAll front).after st) back ++
      ctx.closing (ctx.afterAll (front ++ st :: back)) place)
    drafted.rebase (h.fair.afterAll front) ⟨rfl, by simpa using legal⟩ ?_ size
    (fun _ => opens.append (ctx.closing_opens place (ctx.afterAll_home _)
      (ctx.length_le_afterAll _))) (fun _ _ => rfl)
  rw [size]
  simp [Piece.code, Stmt.code, listCode_append, listCode]

/-- A statement of a function stands behind the head of the function and the statements before
it, none of which returns. -/
theorem body {place bodyPlace : Location} {name : String} {parameters : List Parameter}
    {front back : List Stmt} {st : Stmt} {entered mid : Lowering} {skip : Nat} {depth : Depth}
    (h : (Piece.statement (.function place name parameters bodyPlace
      (front ++ st :: back))).Stands lines s ctx extra)
    (head : functionHead place name parameters s = .ok skip entered)
    (runs : Lowering.statementList depth front entered = .ok () mid)
    (goesOn : ∀ earlier ∈ front, earlier.isReturn = false) :
    ∃ start, (Piece.statement st).Stands lines mid
      ((Context.ofBody start parameters).afterAll front) 0 := by
  obtain ⟨rfl, -, legal⟩ := h.legal
  obtain ⟨legal, legalBack⟩ := legal.right goesOn
  obtain ⟨drafted, -, -⟩ := (functionHead_ensures h.drafted place name parameters).of_ok head
  rw [Line.extent_nil, Nat.add_zero] at drafted
  generalize reached : s.chunk.size + Opcode.func.size + Opcode.jmp.size = start at drafted
  obtain ⟨drafted, -, -⟩ := (statementList_ensures s.chunk front drafted depth).of_ok runs
  have offset : s.chunk.size + extent ([] ++ [ctx.line 0 place (.func name parameters.length start),
      ctx.line 0 place (.jmp unknownDistance)]) = start := by
    simp [← reached, Instr.op, Nat.add_assoc]
  rw [offset] at drafted
  have size : mid.chunk.size =
      start + extent (listCode start (Context.ofBody start parameters) front) := by
    rw [drafted.size_eq, Line.extent_append, ← Nat.add_assoc, offset]
  have fair := (Context.fair_ofBody start parameters).afterAll front
  have inside : ((Context.ofBody start parameters).afterAll front).home.isSome := by
    rw [Context.afterAll_home]
    rfl
  refine ⟨start, ?_⟩
  refine h.descend
    (ctx.line 0 place (.func name parameters.length start) ::
      ctx.line 0 place (.jmp (extent (bodyCode start (Context.ofBody start parameters) bodyPlace
        (front ++ st :: back)))) ::
      listCode start (Context.ofBody start parameters) front)
    (if st.isReturn then [] else
      bodyCode (mid.chunk.size + extent (st.code mid.chunk.size
        ((Context.ofBody start parameters).afterAll front)))
        (((Context.ofBody start parameters).afterAll front).after st) bodyPlace back)
    drafted.rebase fair ⟨rfl, inside ▸ legal⟩ ?_ ?_ (fun returns => ?_) (fun _ _ => rfl)
  · simp only [Piece.code, Stmt.code, reached]
    rw [bodyCode_append _ _ _ goesOn, ← size, bodyCode]
    cases st.isReturn <;> simp
  · simp [size, ← reached, Instr.op, Nat.add_assoc]
  · have goes : st.isReturn = false := returns
    simp only [goes, Bool.false_eq_true, if_false]
    exact bodyCode_opens (fair.after st) _ bodyPlace (by simpa using inside) (legalBack goes)

/-- A left operand stands where the operation does. -/
theorem left {place : Location} {op : BinaryOp} {left right : Expr}
    (h : (Piece.expression (.binary place op left right)).Stands lines s ctx extra) :
    (Piece.expression left).Stands lines s ctx extra :=
  h.descend [] _ h.drafted h.fair trivial (List.append_assoc _ _ _) rfl
    (fun _ => (right.opens h.fair (extra + 1)).append (operator_opens extra place op))
    (fun _ _ => rfl)

theorem right {place : Location} {op : BinaryOp} {left right : Expr} {mid : Lowering}
    {depth : Depth}
    (h : (Piece.expression (.binary place op left right)).Stands lines s ctx extra)
    (runs : Lowering.expression depth left s = .ok () mid) :
    (Piece.expression right).Stands lines mid ctx (extra + 1) := by
  obtain ⟨drafted, -⟩ := (expression_ensures left h.drafted depth extra).of_ok runs
  exact h.descend _ _ drafted.rebase h.fair trivial (List.append_assoc _ _ _)
    drafted.size_eq (fun _ => operator_opens extra place op) (fun _ _ => rfl)

/-- An argument stands behind those before it. -/
theorem argument {place : Location} {callee : String} {front back : List Expr} {argument : Expr}
    {mid : Lowering} {depth : Depth}
    (h : (Piece.expression (.call place callee (front ++ argument :: back))).Stands lines s ctx extra)
    (runs : Lowering.argumentList depth front s = .ok () mid) :
    (Piece.expression argument).Stands lines mid ctx (extra + front.length) := by
  obtain ⟨drafted, -⟩ := (argumentList_ensures front h.drafted depth extra).of_ok runs
  refine h.descend (argumentCode ctx extra front)
    (argumentCode ctx (extra + front.length + 1) back ++
      [ctx.line (extra + (front ++ argument :: back).length) place
        (.invoke callee (front ++ argument :: back).length)])
    drafted.rebase h.fair trivial ?_ drafted.size_eq (fun _ => ?_) (fun _ _ => rfl)
  · simp [Piece.code, Expr.code, argumentCode_append, argumentCode]
  · refine (argumentCode_opens h.fair (extra + front.length + 1) back).append ?_
    show ctx.mark _ = ctx.mark _
    rw [List.length_append, List.length_cons]
    congr 1
    omega

end Piece.Stands

/-- Wherever a lowering comes next, the piece stands in the program too. -/
theorem Lowering.Enters.stands {p q : Piece} (enters : Lowering.Enters p s q later)
    (h : p.Stands lines s ctx extra) : ∃ ctx extra, q.Stands lines later ctx extra := by
  cases enters with
  | operand =>
      exact ⟨ctx, extra, h.descend [] _ h.drafted h.fair trivial rfl rfl
        (fun _ => rfl) (fun _ _ => rfl)⟩
  | left => exact ⟨_, _, h.left⟩
  | right runs => exact ⟨_, _, h.right runs⟩
  | argument runs => exact ⟨_, _, h.argument runs⟩
  | start found => exact ⟨_, _, h.operand found⟩
  | guarded found test jumps => exact ⟨_, _, h.guarded found test jumps⟩
  | otherwise test jumps runs leaves settles =>
      exact ⟨_, _, h.otherwise test jumps runs leaves settles⟩
  | member runs => exact ⟨_, _, h.member runs⟩
  | body head runs goesOn =>
      obtain ⟨start, stands⟩ := h.body head runs goesOn
      exact ⟨_, _, stands⟩

/-- All pieces that a lowering comes to stand in the program. -/
theorem Lowering.Comes.stands {p q : Piece} (comes : Lowering.Comes p s q later)
    (h : p.Stands lines s ctx extra) : ∃ ctx extra, q.Stands lines later ctx extra := by
  induction comes with
  | here => exact ⟨ctx, extra, h⟩
  | next _ enters ih =>
      obtain ⟨_, _, stands⟩ := ih h
      exact enters.stands stands

end Steps

end StackScript
