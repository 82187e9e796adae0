/-
# Lowering follows the scheme

What a lowering appends is what the scheme says, or the lowering is refused.
The proof goes along the syntax tree: every step adds its lines to those that
are there already, and jumps that were left open are settled by the step that
knows their target.
-/

import StackScript.Proofs.Lowering.Locals

namespace StackScript.Lowering

open Line (extent)
open Lower (Ensures)

variable {base : Chunk} {code : List Line} {ctx : Context} {s : Lowering}

theorem literal_ensures (h : Drafting base code ctx s) (place : Location) (value : Literal)
    (extra : Nat) :
    Ensures base (literal place value) s fun _ later =>
      Drafting base (code ++ [ctx.line extra place value.instr]) ctx later ∧
        later.scope = s.scope := by
  cases value with
  | null => exact Lower.emit_plain h rfl _
  | bool value =>
      cases value with
      | false => exact Lower.emit_plain h rfl _
      | true => exact Lower.emit_plain h rfl _
  | number value =>
      refine Ensures.bind (Lower.constant_ensures h value) ?_
      rintro id later ⟨small, scope, constants, interned, grown⟩
      refine Lower.emit_ensures (.const value) h scope ?_ ?_ _
      · rw [grown]
        exact Option.map_eq_some_iff.mpr ⟨_, interned, rfl⟩
      · exact Lower.fits_bytes [id] rfl (by simpa using small)
  | string value => exact Lower.emit_named h .str (by simp) value _

theorem reference_ensures (h : Drafting base code ctx s) (place : Location) (name : String)
    (extra : Nat) :
    Ensures base (reference place name) s fun _ later =>
      Drafting base (code ++ [ctx.line extra place (ctx.fetch name)]) ctx later ∧
        later.scope = s.scope := by
  unfold reference
  refine Ensures.after (ctx.slot? name) s
    (congrArg (EStateM.Result.ok · s) (h.slot? name)) ?_
  unfold Context.fetch
  cases found : ctx.slot? name with
  | none => exact Lower.emit_named h .getGlobal (by simp) name _
  | some slot => exact Lower.emit_slot h .deepGet (by simp) (h.slot_lt found) _

theorem store_ensures (h : Drafting base code ctx s) (place : Location) (name : String)
    (extra : Nat) :
    Ensures base (match ctx.slot? name with
        | some slot => Lower.emit place .deepSet [(slot : Int)]
        | none => do Lower.emit place .setGlobal [(← Lower.string place name : Nat)]) s
      fun _ later =>
        Drafting base (code ++ [ctx.line extra place (ctx.store name)]) ctx later ∧
          later.scope = s.scope := by
  unfold Context.store
  cases found : ctx.slot? name with
  | none => exact Lower.emit_named h .setGlobal (by simp) name _
  | some slot => exact Lower.emit_slot h .deepSet (by simp) (h.slot_lt found) _

/-- The instructions of a binary operator. -/
theorem operator_ensures (h : Drafting base code ctx s) (place : Location) (op : BinaryOp)
    (extra : Nat) :
    Ensures base (op.opcodes.forM fun opcode => Lower.emit place opcode []) s fun _ later =>
      Drafting base (code ++ ctx.operator extra place op) ctx later ∧ later.scope = s.scope := by
  rw [BinaryOp.opcodes_eq]
  refine Ensures.bind (Lower.emit_plain h op.base_bare (ctx.mark (extra + 2))) ?_
  rintro _ mid ⟨drafted, scope⟩
  unfold Context.operator
  split
  · refine Ensures.bind (Lower.emit_plain drafted rfl (ctx.mark (extra + 1))) ?_
    rintro _ later ⟨done, same⟩
    refine Ensures.pure ⟨?_, same.trans scope⟩
    simpa [Context.line] using done
  · exact Ensures.pure ⟨drafted, scope⟩

mutual

/-- The code of an expression is its draft. -/
theorem expression_ensures (e : Expr) {base : Chunk} {code : List Line} {ctx : Context}
    {s : Lowering} (h : Drafting base code ctx s) (depth : Depth) (extra : Nat) :
    Ensures base (expression depth e) s fun _ later =>
      Drafting base (code ++ e.code ctx extra) ctx later ∧ later.scope = s.scope := by
  cases e with
  | literal place value =>
      simp only [expression, Expr.code]
      exact literal_ensures h place value extra
  | reference place name =>
      simp only [expression, Expr.code]
      exact reference_ensures h place name extra
  | unary place op operand =>
      simp only [expression, Expr.code]
      refine Ensures.bind (Ensures.deeper h.grown) ?_
      rintro inner _ rfl
      refine Ensures.bind (expression_ensures operand h inner extra) ?_
      rintro _ mid ⟨drafted, scope⟩
      refine Ensures.mono (Lower.emit_plain drafted op.opcode_bare (ctx.mark (extra + 1))) ?_
      rintro _ later ⟨done, same⟩
      exact ⟨by simpa [Context.line] using done, same.trans scope⟩
  | binary place op left right =>
      simp only [expression, Expr.code]
      refine Ensures.bind (Ensures.deeper h.grown) ?_
      rintro inner _ rfl
      refine Ensures.bind (expression_ensures left h inner extra) ?_
      rintro _ mid ⟨drafted, scope⟩
      have rest (deep : Depth) :
          Ensures base (do
              expression deep right
              op.opcodes.forM fun opcode => Lower.emit place opcode []) mid fun _ later =>
            Drafting base (code ++ (left.code ctx extra ++ right.code ctx (extra + 1) ++
              ctx.operator extra place op)) ctx later ∧ later.scope = mid.scope := by
        refine Ensures.bind (expression_ensures right drafted deep (extra + 1)) ?_
        rintro _ mid' ⟨drafted', scope'⟩
        refine Ensures.mono (operator_ensures drafted' place op extra) ?_
        rintro _ later ⟨done, same⟩
        exact ⟨by simpa using done, same.trans scope'⟩
      rw [← scope]
      split
      · exact Ensures.after depth mid rfl (rest depth)
      · refine Ensures.bind (Ensures.deeper drafted.grown) ?_
        rintro deep _ rfl
        exact rest deep
  | call place callee arguments =>
      simp only [expression, Expr.code]
      split
      · exact Ensures.refuse h.grown
      · rename_i few
        have count : arguments.length < 0x100 := by
          have := List.getElem?_eq_none_iff.mp few
          rw [maxArguments] at this
          omega
        refine Ensures.bind (argumentList_ensures arguments h depth extra) ?_
        rintro _ mid ⟨drafted, scope⟩
        refine Ensures.bind (Lower.string_ensures drafted callee) ?_
        rintro id named ⟨small, scope', strings, interned, grown⟩
        refine Ensures.mono (Lower.emit_ensures (.invoke callee arguments.length)
          drafted scope' ?_ ?_ (ctx.mark (extra + arguments.length))) ?_
        · rw [grown]
          exact Option.map_eq_some_iff.mpr ⟨_, interned, rfl⟩
        · refine Lower.fits_bytes [id, arguments.length] rfl ?_
          simp [small, count]
        · rintro _ later ⟨done, same⟩
          exact ⟨by simpa [Context.line] using done, same.trans scope⟩

theorem argumentList_ensures (es : List Expr) {base : Chunk} {code : List Line} {ctx : Context}
    {s : Lowering} (h : Drafting base code ctx s) (depth : Depth) (extra : Nat) :
    Ensures base (argumentList depth es) s fun _ later =>
      Drafting base (code ++ argumentCode ctx extra es) ctx later ∧ later.scope = s.scope := by
  cases es with
  | nil =>
      simp only [argumentList, argumentCode]
      exact Ensures.pure ⟨by simpa using h, rfl⟩
  | cons first rest =>
      simp only [argumentList, argumentCode]
      refine Ensures.bind (Ensures.deeper h.grown) ?_
      rintro inner _ rfl
      refine Ensures.bind (expression_ensures first h inner extra) ?_
      rintro _ mid ⟨drafted, scope⟩
      refine Ensures.mono (argumentList_ensures rest drafted depth (extra + 1)) ?_
      rintro _ later ⟨done, same⟩
      exact ⟨by simpa using done, same.trans scope⟩

end

/-- What the lowering of a statement promises. -/
def Finished (base : Chunk) (code : List Line) (ctx : Context) (scope : Option Scope) (st : Stmt)
    (later : Lowering) : Prop :=
  Drafting base (code ++ st.code (base.size + extent code) ctx) (ctx.after st) later ∧
    Scope.Deepens scope later.scope ∧ st.Legal ctx.home.isSome

/-- The head of a function promises a jump to be settled after the body. -/
theorem functionHead_ensures (h : Drafting base code ctx s) (place : Location) (name : String)
    (parameters : List Parameter) :
    Ensures base (functionHead place name parameters) s fun skip later =>
      let start := base.size + extent code + Opcode.func.size + Opcode.jmp.size
      Drafting base
          (code ++ [ctx.line 0 place (.func name parameters.length start),
            ctx.line 0 place (.jmp Lower.unknownDistance)])
          (.ofBody start parameters) later ∧
        skip = base.size + extent code + Opcode.func.size ∧ ctx = .top := by
  unfold functionHead
  refine Ensures.after s s rfl ?_
  refine Ensures.guard h.grown ?_
  intro outside
  have top : ctx = .top := by
    have described := h.described
    cases found : s.scope with
    | none =>
        rw [found] at described
        exact described
    | some scope => simp [found] at outside
  split
  · exact Ensures.refuse h.grown
  · rename_i few
    have count : parameters.length < 0x100 := by
      have := List.getElem?_eq_none_iff.mp few
      rw [maxParameters] at this
      omega
    refine Ensures.bind (Lower.string_ensures h name) ?_
    rintro id named ⟨small, scope, strings, interned, grown⟩
    refine Ensures.here ?_
    have size : named.chunk.size = base.size + extent code := by
      rw [grown, ← h.size_eq, Chunk.size, Chunk.size]
    simp only [size]
    generalize reached :
      base.size + extent code + Opcode.func.size + Opcode.jmp.size = start
    have identified : s.chunk.identify (.func name parameters.length start) =
        some (named.chunk, [(id : Int), (parameters.length : Int), (start : Int)]) := by
      rw [grown]
      exact Option.map_eq_some_iff.mpr ⟨_, interned, rfl⟩
    refine Ensures.guard (h.grown.trans (Chunk.identify_eq_some identified).1) ?_
    intro near
    have startByte : start < 0x100 := by
      rw [maxFunctionStart] at near
      omega
    have fits : Code.Fits .func [(id : Int), (parameters.length : Int), (start : Int)] :=
      Lower.fits_bytes [id, parameters.length, start] rfl
        (by simp [small, count, startByte])
    refine Ensures.bind (Lower.emit_ensures _ h scope identified fits (ctx.mark 0)) ?_
    rintro _ defined ⟨drafted, -⟩
    refine Ensures.bind (Lower.jump_ensures drafted .jmp (by simp) (ctx.mark 0)) ?_
    rintro skip pending ⟨drafted, -, offset⟩
    refine Ensures.bind (Lower.enterFunction_ensures parameters drafted start) ?_
    rintro _ entered inner
    refine Ensures.pure ⟨?_, ?_, top⟩
    · simpa [Context.line, reached] using inner
    · simpa [Line.size, Instr.op, Nat.add_assoc] using offset

/-- The end of a function promises what the scheme says for its body. -/
theorem functionEnd_ensures (ctx : Context) {lines inner : List Line} {last : Context} {returned : Bool}
    {place : Location} (bodyPlace : Location)
    (h : Drafting base
      (code ++ ctx.line 0 place (.jmp Lower.unknownDistance) :: lines) last s)
    (complete : lines ++ (if returned then [] else [last.line 0 bodyPlace (.plain .null rfl),
      last.line 1 bodyPlace (.plain .ret rfl)]) = inner) :
    Ensures base (functionEnd place bodyPlace (base.size + extent code) returned) s
      fun _ later =>
        Drafting base (code ++ ctx.line 0 place (.jmp (extent inner)) :: inner) .top later ∧
          later.scope = none := by
  have rest {mid : Lowering}
      (drafted : Drafting base
        (code ++ ctx.line 0 place (.jmp Lower.unknownDistance) :: inner) last mid) :
      Ensures base (do
          Lower.leaveFunction
          Lower.settle place (base.size + extent code) (← Lower.here)) mid fun _ later =>
        Drafting base (code ++ ctx.line 0 place (.jmp (extent inner)) :: inner) .top later ∧
          later.scope = none := by
    refine Ensures.after () { mid with scope := none } rfl ?_
    have left : Drafting base
        (code ++ ctx.line 0 place (.jmp Lower.unknownDistance) :: inner) .top
        { mid with scope := none } := ⟨drafted.roomy, drafted.added, rfl⟩
    exact Ensures.here (Lower.settleHere_ensures .jmp (by simp) _ _ left)
  unfold functionEnd
  cases returned with
  | true =>
      obtain rfl : lines = inner := by simpa using complete
      exact rest h
  | false =>
      refine Ensures.bind (Lower.emit_plain h rfl (last.mark 0)) ?_
      rintro _ mid ⟨drafted, -⟩
      refine Ensures.bind (Lower.emit_plain drafted rfl (last.mark 1)) ?_
      rintro _ mid' ⟨drafted', -⟩
      refine rest ?_
      rw [← complete]
      simpa [Context.line] using drafted'

/-- Lines that were added in two steps have been added. -/
theorem regroup {lines more : List Line} (h : Drafting base code ctx s)
    (same : code = lines ++ more) : Drafting base (lines ++ more) ctx s := same ▸ h

/-- Is the draft of a statement what its lowering adds, wherever it stands? -/
def Follows (base : Chunk) (st : Stmt) : Prop :=
  ∀ {code : List Line} {ctx : Context} {s : Lowering}, Drafting base code ctx s →
    ∀ depth : Depth, Ensures base (statement depth st) s fun _ later =>
      Finished base code ctx s.scope st later

/-- A branch is a block of its own, one level further down. -/
theorem branch_ensures {st : Stmt} (follows : Follows base st) (place : Location)
    (depth : Depth) (h : Drafting base code ctx s) :
    Ensures base (Lower.block place do statement (← depth.deeper) st) s fun _ later =>
      Drafting base (code ++ (st.code (base.size + extent code) ctx ++
        ctx.closing (ctx.after st) place)) ctx later ∧
      later.scope = s.scope ∧ st.Legal ctx.home.isSome := by
  refine Lower.block_ensures h ?_
  intro start drafted _
  refine Ensures.bind (Ensures.deeper drafted.grown) ?_
  rintro inner _ rfl
  exact follows drafted inner

/-- The end of a test: a jump to be settled. -/
abbrev openJump (ctx : Context) (extra : Nat) (place : Location) (make : Int → Instr) : Line :=
  ⟨some place, ctx.mark extra, make Lower.unknownDistance⟩

theorem extent_test (test : List Line) (place : Location) :
    base.size + extent (code ++ test ++ [openJump ctx 1 place .jz]) =
      base.size + extent code + extent test + Opcode.jz.size := by
  simp [Line.size, Instr.op, Nat.add_assoc]

theorem ifThen_follows {yes : Stmt} (place : Location) (condition : Expr)
    (yesFollows : Follows base yes) : Follows base (.ifThen place condition yes) := by
  intro code ctx s h depth
  simp only [statement, Finished, Stmt.code, Stmt.Legal]
  refine Ensures.bind (expression_ensures condition h depth 0) ?_
  rintro _ tested ⟨drafted, scope⟩
  refine Ensures.bind (Lower.jump_ensures drafted .jz (by simp) (ctx.mark 1)) ?_
  rintro skip jumped ⟨drafted, jumpedScope, rfl⟩
  refine Ensures.bind (branch_ensures yesFollows place depth drafted) ?_
  rintro _ branched ⟨drafted, branchedScope, legal⟩
  rw [extent_test] at drafted
  generalize yes.code (base.size + extent code + extent (condition.code ctx 0) +
    Opcode.jz.size) ctx ++ ctx.closing (ctx.after yes) place = part at drafted ⊢
  refine Ensures.here ?_
  refine Ensures.mono (Lower.settleHere_ensures .jz (by simp) (ctx.mark 1) part
    (regroup drafted (by simp))) ?_
  rintro _ later ⟨done, same⟩
  refine ⟨regroup done (by simp [Context.line]), ?_, legal⟩
  rw [same, branchedScope, jumpedScope, scope]
  exact .refl _

theorem ifElse_follows {yes no : Stmt} (place : Location) (condition : Expr)
    (yesFollows : Follows base yes) (noFollows : Follows base no) :
    Follows base (.ifElse place condition yes no) := by
  intro code ctx s h depth
  simp only [statement, Finished, Stmt.code, Stmt.Legal]
  refine Ensures.bind (expression_ensures condition h depth 0) ?_
  rintro _ tested ⟨drafted, scope⟩
  refine Ensures.bind (Lower.jump_ensures drafted .jz (by simp) (ctx.mark 1)) ?_
  rintro _ jumped ⟨drafted, jumpedScope, rfl⟩
  refine Ensures.bind (branch_ensures yesFollows place depth drafted) ?_
  rintro _ branched ⟨drafted, branchedScope, legal⟩
  rw [extent_test] at drafted
  generalize yes.code (base.size + extent code + extent (condition.code ctx 0) +
    Opcode.jz.size) ctx ++ ctx.closing (ctx.after yes) place = first at drafted ⊢
  refine Ensures.bind (Lower.jump_ensures drafted .jmp (by simp) (ctx.mark 0)) ?_
  rintro _ left ⟨drafted, leftScope, rfl⟩
  refine Ensures.here ?_
  refine Ensures.bind (Lower.settleHere_ensures .jz (by simp) (ctx.mark 1)
    (first ++ [openJump ctx 0 place .jmp])
    (regroup drafted (by simp))) ?_
  rintro _ settled ⟨drafted, settledScope⟩
  refine Ensures.bind (branch_ensures noFollows place depth drafted) ?_
  rintro _ ended ⟨drafted, endedScope, legal'⟩
  have offset :
      base.size + extent (code ++ condition.code ctx 0 ++
        ⟨some place, ctx.mark 1, .jz (extent (first ++ [openJump ctx 0 place .jmp]))⟩ ::
          (first ++ [openJump ctx 0 place .jmp])) =
        base.size + extent code + extent (condition.code ctx 0) + Opcode.jz.size +
          extent first + Opcode.jmp.size := by
    simp [Line.size, Instr.op, Nat.add_assoc]
  rw [offset] at drafted
  generalize no.code (base.size + extent code + extent (condition.code ctx 0) +
    Opcode.jz.size + extent first + Opcode.jmp.size) ctx ++
      ctx.closing (ctx.after no) place = second at drafted ⊢
  have landing :
      base.size + extent (code ++ condition.code ctx 0 ++ [openJump ctx 1 place .jz] ++ first) =
        base.size + extent (code ++ condition.code ctx 0 ++
          ⟨some place, ctx.mark 1, .jz (extent (first ++ [openJump ctx 0 place .jmp]))⟩ ::
            first) := by
    simp [Line.size, Instr.op]
  refine Ensures.here ?_
  rw [landing]
  refine Ensures.mono (Lower.settleHere_ensures .jmp (by simp) (ctx.mark 0) second
    (regroup drafted (by simp))) ?_
  rintro _ later ⟨done, same⟩
  refine ⟨regroup done ?_, ?_, legal, legal'⟩
  · simp [Context.line, Line.size, Instr.op]
  · rw [same, endedScope, settledScope, leftScope, branchedScope, jumpedScope, scope]
    exact .refl _

theorem loop_follows {body : Stmt} (place : Location) (condition : Expr)
    (bodyFollows : Follows base body) : Follows base (.loop place condition body) := by
  intro code ctx s h depth
  simp only [statement, Finished, Stmt.code, Stmt.Legal]
  refine Ensures.here ?_
  rw [h.size_eq]
  refine Ensures.bind (expression_ensures condition h depth 0) ?_
  rintro _ tested ⟨drafted, scope⟩
  refine Ensures.bind (Lower.jump_ensures drafted .jz (by simp) (ctx.mark 1)) ?_
  rintro _ jumped ⟨drafted, jumpedScope, rfl⟩
  refine Ensures.bind (branch_ensures bodyFollows place depth drafted) ?_
  rintro _ branched ⟨drafted, branchedScope, legal⟩
  rw [extent_test] at drafted
  generalize body.code (base.size + extent code + extent (condition.code ctx 0) +
    Opcode.jz.size) ctx ++ ctx.closing (ctx.after body) place = part at drafted ⊢
  refine Ensures.bind (Lower.jump_ensures drafted .jmp (by simp) (ctx.mark 0)) ?_
  rintro _ turned ⟨drafted, turnedScope, rfl⟩
  generalize whole :
    extent (condition.code ctx 0) + Opcode.jz.size + extent part + Opcode.jmp.size = length
  refine Ensures.bind (Lower.settle_ensures .jmp (by simp) (-(length : Int)) drafted ?_) ?_
  · simp only [Line.extent_append, Line.extent_cons, Line.extent_nil, Line.size, Instr.op,
      Nat.add_zero]
    omega
  rintro _ settled ⟨drafted, settledScope⟩
  refine Ensures.here ?_
  refine Ensures.mono (Lower.settleHere_ensures .jz (by simp) (ctx.mark 1)
    (part ++ [⟨some place, ctx.mark 0, .jmp (-(length : Int))⟩])
    (regroup drafted (by simp))) ?_
  rintro _ later ⟨done, same⟩
  refine ⟨regroup done ?_, ?_, legal⟩
  · simp [Context.line, Line.size, Instr.op]
  · rw [same, settledScope, turnedScope, branchedScope, jumpedScope, scope]
    exact .refl _

/-- A function is finished when its body is. -/
theorem function_follows {body : List Stmt} (place : Location) (name : String)
    (parameters : List Parameter) (bodyPlace : Location)
    (bodyFollows : ∀ {code : List Line} {ctx : Context} {s : Lowering},
      Drafting base code ctx s → ctx.home.isSome → ∀ depth : Depth,
        Ensures base (functionBody depth body) s fun returned later =>
          ∃ lines last, Drafting base (code ++ lines) last later ∧
            lines ++ (if returned then [] else [last.line 0 bodyPlace (.plain .null rfl),
              last.line 1 bodyPlace (.plain .ret rfl)]) =
                bodyCode (base.size + extent code) ctx bodyPlace body ∧
            bodyLegal body) :
    Follows base (.function place name parameters bodyPlace body) := by
  intro code ctx s h depth
  simp only [statement, Finished, Stmt.code, Stmt.Legal]
  refine Ensures.bind (functionHead_ensures h place name parameters) ?_
  rintro _ entered ⟨drafted, rfl, rfl⟩
  refine Ensures.bind (bodyFollows drafted rfl depth) ?_
  rintro returned filled ⟨lines, last, drafted, complete, legal⟩
  have outside : s.scope = none := by
    have inside := h.home_isSome
    cases found : s.scope with
    | none => rfl
    | some scope => simp [found, Context.top] at inside
  simp only [Line.extent_append, Line.extent_cons, Line.extent_nil, Line.size, Context.line,
    Instr.op, Nat.add_zero, ← Nat.add_assoc] at complete
  generalize base.size + extent code + Opcode.func.size + Opcode.jmp.size = start
    at drafted complete ⊢
  have skip : base.size + extent code + Opcode.func.size = base.size + extent (code ++
      [Context.top.line 0 place (.func name parameters.length start)]) := by
    simp [Line.size, Context.line, Instr.op, Nat.add_assoc]
  rw [skip]
  refine Ensures.mono (functionEnd_ensures .top bodyPlace
    (regroup drafted (by simp)) complete) ?_
  rintro _ later ⟨done, scope⟩
  refine ⟨regroup done (by simp), ?_, rfl, legal⟩
  rw [scope, outside]
  rfl

mutual

/-- The code of a statement is its draft. -/
theorem statement_follows (base : Chunk) (st : Stmt) : Follows base st := by
  cases st with
  | expression place value =>
      intro code ctx s h depth
      simp only [statement, Finished, Stmt.code, Stmt.Legal]
      refine Ensures.bind (expression_ensures value h depth 0) ?_
      rintro _ mid ⟨drafted, scope⟩
      refine Ensures.mono (Lower.emit_plain drafted rfl (ctx.mark 1)) ?_
      rintro _ later ⟨done, same⟩
      refine ⟨regroup done (by simp [Context.line]), ?_, trivial⟩
      rw [same, scope]
      exact .refl _
  | print place value =>
      intro code ctx s h depth
      simp only [statement, Finished, Stmt.code, Stmt.Legal]
      refine Ensures.bind (expression_ensures value h depth 0) ?_
      rintro _ mid ⟨drafted, scope⟩
      refine Ensures.mono (Lower.emit_plain drafted rfl (ctx.mark 1)) ?_
      rintro _ later ⟨done, same⟩
      refine ⟨regroup done (by simp [Context.line]), ?_, trivial⟩
      rw [same, scope]
      exact .refl _
  | declare place name value =>
      intro code ctx s h depth
      simp only [statement, Finished, Stmt.code, Stmt.Legal]
      refine Ensures.bind (expression_ensures value h depth 0) ?_
      rintro _ mid ⟨drafted, scope⟩
      refine Ensures.mono (Lower.declare_ensures drafted name 1) ?_
      rintro _ later ⟨done, deeper⟩
      exact ⟨regroup done (by simp), scope ▸ deeper, trivial⟩
  | assign place name value =>
      intro code ctx s h depth
      simp only [statement, Finished, Stmt.code, Stmt.Legal]
      refine Ensures.bind (expression_ensures value h depth 0) ?_
      rintro _ mid ⟨drafted, scope⟩
      refine Ensures.after (ctx.slot? name) mid
        (congrArg (EStateM.Result.ok · mid) (drafted.slot? name)) ?_
      refine Ensures.mono (store_ensures drafted place name 1) ?_
      rintro _ later ⟨done, same⟩
      refine ⟨regroup done (by simp), ?_, trivial⟩
      rw [same, scope]
      exact .refl _
  | block place body =>
      intro code ctx s h depth
      simp only [statement, Finished, Stmt.code, Stmt.Legal]
      refine Ensures.mono (Lower.block_ensures h
        fun start drafted _ => statementList_ensures base body drafted depth) ?_
      rintro _ later ⟨done, same, legal⟩
      refine ⟨done, ?_, legal⟩
      rw [same]
      exact .refl _
  | ifThen place condition yes =>
      exact ifThen_follows place condition (statement_follows base yes)
  | ifElse place condition yes no =>
      exact ifElse_follows place condition (statement_follows base yes)
        (statement_follows base no)
  | loop place condition body =>
      exact loop_follows place condition (statement_follows base body)
  | function place name parameters bodyPlace body =>
      exact function_follows place name parameters bodyPlace
        (functionBody_ensures base body bodyPlace)
  | ret place value =>
      intro code ctx s h depth
      simp only [statement, Finished, Stmt.Legal]
      refine Ensures.after s s rfl ?_
      refine Ensures.guard h.grown ?_
      intro inside
      have legal : ctx.home.isSome := by
        rw [h.home_isSome]
        cases found : s.scope with
        | none => simp [found] at inside
        | some scope => rfl
      cases value with
      | none =>
          refine Ensures.bind (Lower.emit_plain h rfl (ctx.mark 0)) ?_
          rintro _ mid ⟨drafted, scope⟩
          refine Ensures.mono (Lower.emit_plain drafted rfl (ctx.mark 1)) ?_
          rintro _ later ⟨done, same⟩
          refine ⟨regroup done (by simp [Stmt.code, Context.line]), ?_, legal⟩
          rw [same, scope]
          exact .refl _
      | some value =>
          refine Ensures.bind (expression_ensures value h depth 0) ?_
          rintro _ mid ⟨drafted, scope⟩
          refine Ensures.mono (Lower.emit_plain drafted rfl (ctx.mark 1)) ?_
          rintro _ later ⟨done, same⟩
          refine ⟨regroup done (by simp [Stmt.code, Context.line]), ?_, legal⟩
          rw [same, scope]
          exact .refl _

/-- The code of statements in a row is their draft. -/
theorem statementList_ensures (base : Chunk) (body : List Stmt) {code : List Line}
    {ctx : Context} {s : Lowering} (h : Drafting base code ctx s) (depth : Depth) :
    Ensures base (statementList depth body) s fun _ later =>
      Drafting base (code ++ listCode (base.size + extent code) ctx body)
          (ctx.afterAll body) later ∧
        Scope.Deepens s.scope later.scope ∧ listLegal ctx.home.isSome body := by
  cases body with
  | nil =>
      simp only [statementList, listCode]
      exact Ensures.pure ⟨by simpa using h, .refl _, trivial⟩
  | cons first rest =>
      simp only [statementList, listCode, Context.afterAll_cons]
      refine Ensures.bind (Ensures.deeper h.grown) ?_
      rintro inner _ rfl
      refine Ensures.bind (statement_follows base first h inner) ?_
      rintro _ mid ⟨drafted, deeper, legal⟩
      refine Ensures.mono (statementList_ensures base rest drafted depth) ?_
      rintro _ later ⟨done, deeper', legal'⟩
      refine ⟨?_, deeper.trans deeper', legal, by simpa using legal'⟩
      simpa [Nat.add_assoc] using done

/-- The code of the body of a function is its draft, but for the end of a body
that does not return. -/
theorem functionBody_ensures (base : Chunk) (body : List Stmt) (bodyPlace : Location)
    {code : List Line} {ctx : Context} {s : Lowering} (h : Drafting base code ctx s)
    (inside : ctx.home.isSome) (depth : Depth) :
    Ensures base (functionBody depth body) s fun returned later =>
      ∃ lines last, Drafting base (code ++ lines) last later ∧
        lines ++ (if returned then [] else [last.line 0 bodyPlace (.plain .null rfl),
          last.line 1 bodyPlace (.plain .ret rfl)]) =
            bodyCode (base.size + extent code) ctx bodyPlace body ∧
        bodyLegal body := by
  cases body with
  | nil =>
      simp only [functionBody, bodyCode]
      exact Ensures.pure ⟨[], ctx, by simpa using h, rfl, trivial⟩
  | cons first rest =>
      simp only [functionBody, bodyCode]
      refine Ensures.bind (Ensures.deeper h.grown) ?_
      rintro inner _ rfl
      refine Ensures.bind (statement_follows base first h inner) ?_
      rintro _ mid ⟨drafted, -, legal⟩
      rw [inside] at legal
      cases returns : first.isReturn with
      | true => exact Ensures.pure ⟨_, _, drafted, by simp, legal, by simp [returns]⟩
      | false =>
          refine Ensures.mono (functionBody_ensures base rest bodyPlace drafted
            (by simpa using inside) depth) ?_
          rintro returned later ⟨lines, last, done, complete, legal'⟩
          refine ⟨_, last, regroup done (List.append_assoc _ _ _), ?_, legal, fun _ => legal'⟩
          rw [List.append_assoc, complete]
          simp [Nat.add_assoc]

end

end StackScript.Lowering
