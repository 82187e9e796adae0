/-
# Nesting in trees

How deeply expressions and statements nest for a lowering. Operands, arguments, and the statements
in blocks, branches, loops and functions are one level further down; a right operand is so only
where it needs parentheses. A chain of operators that groups to the left is as deep as it is long.

A limit on the levels does nothing but refuse what nests deeper. This is shown of two lowerings of
the same part side by side, the second of which may have more levels than the first.
-/

import StackScript.Proofs.Lowering.Verdicts

namespace StackScript

mutual

/-- How many levels below an expression its deepest operand is. -/
def Expr.nesting : Expr → Nat
  | .literal _ _ => 0
  | .reference _ _ => 0
  | .unary _ _ operand => operand.nesting + 1
  | .binary _ op left right =>
    max (left.nesting + 1) (right.nesting + if right.fitsRightOf op then 0 else 1)
  | .call _ _ arguments => argumentNesting arguments

/-- How many levels below a call its deepest operand is. -/
def argumentNesting : List Expr → Nat
  | [] => 0
  | first :: rest => max (first.nesting + 1) (argumentNesting rest)

end

mutual

/-- How many levels below a statement the deepest operand or statement in it is. -/
def Stmt.nesting : Stmt → Nat
  | .expression _ value => value.nesting
  | .print _ value => value.nesting
  | .declare _ _ value => value.nesting
  | .assign _ _ value => value.nesting
  | .block _ body => listNesting body
  | .ifThen _ condition yes => max condition.nesting (yes.nesting + 1)
  | .ifElse _ condition yes no => max condition.nesting (max yes.nesting no.nesting + 1)
  | .loop _ condition body => max condition.nesting (body.nesting + 1)
  | .function _ _ _ _ body => listNesting body
  | .ret _ none => 0
  | .ret _ (some value) => value.nesting

/-- How many levels below a block the deepest operand or statement in it is. -/
def listNesting : List Stmt → Nat
  | [] => 0
  | first :: rest => max (first.nesting + 1) (listNesting rest)

end

namespace Lower

variable {α β : Type} {root place : Location} {x y : Lower α} {deep deeper : Prop}

/-- A step that is never refused for its nesting. -/
structure Shallow (x : Lower α) : Prop where
  fine : ∀ s place later, x s ≠ .error (.refused ⟨place, .nestingTooDeep⟩) later

namespace Shallow

theorem pure (value : α) : Shallow (pure value) := ⟨nofun⟩

theorem bind {f : α → Lower β} (first : Shallow x) (next : ∀ value, Shallow (f value)) :
    Shallow (x >>= f) := by
  constructor
  intro s place later
  rw [show (x >>= f) s = EStateM.bind x f s from rfl, EStateM.bind]
  cases found : x s with
  | ok value mid => exact (next value).fine mid place later
  | error failure mid =>
      rintro ⟨⟩
      exact first.fine s place later found

theorem get : Shallow get := ⟨nofun⟩

theorem modify (f : Lowering → Lowering) : Shallow (modify f : Lower Unit) := ⟨nofun⟩

theorem refuse {cause : Diagnostic.Cause} (other : cause ≠ .nestingTooDeep) :
    Shallow (Lower.refuse place cause : Lower α) := by
  constructor
  rintro s named later ⟨⟩
  exact other rfl

/-- Nothing comes after a refusal. -/
theorem refuseBind {cause : Diagnostic.Cause} {f : α → Lower β} (other : cause ≠ .nestingTooDeep) :
    Shallow (Lower.refuse place cause >>= f) := by
  constructor
  rintro s named later ⟨⟩
  exact other rfl

end Shallow

theorem here_shallow : Shallow here := .bind .get fun _ => .pure _

theorem append_shallow (op : Opcode) (operands : List Int) : Shallow (append place op operands) := by
  constructor
  rintro ⟨chunk, scope⟩ named later
  unfold append
  rcases written : chunk.append (some place) op operands with ⟨grown, _ | offset⟩
  all_goals
    simp only [written]
    nofun

theorem emit_shallow (op : Opcode) (operands : List Int) : Shallow (emit place op operands) :=
  .bind (append_shallow op operands) fun _ => .pure _

theorem string_shallow (value : String) : Shallow (string place value) := by
  constructor
  intro s named later
  unfold string Chunk.internString
  cases s.chunk.strings.intern? value <;> nofun

theorem constant_shallow (value : Float) : Shallow (constant place value) := by
  constructor
  intro s named later
  unfold constant Chunk.internConstant
  cases s.chunk.constants.intern? value <;> nofun

theorem emit_named_shallow (op : Opcode) (name : String) :
    Shallow (do emit place op [(← string place name : Nat)]) :=
  .bind (string_shallow name) fun _ => emit_shallow op _

theorem settle_shallow (offset target : Nat) : Shallow (settle place offset target) := by
  constructor
  intro s named later
  unfold settle
  cases patched : s.chunk.patch (some place) offset
      (target - (offset + Opcode.jmp.size : Nat) : Int) with
  | ok grown =>
      simp only [patched]
      nofun
  | error failure =>
      simp only [patched]
      obtain ⟨fault, rfl⟩ | ⟨rfl, -⟩ := Chunk.patch_eq_error patched <;> nofun

theorem slot_shallow (name : String) : Shallow (slot? name) := .bind .get fun _ => .pure _

theorem localCount_shallow : Shallow localCount := .bind .get fun _ => .pure _

theorem declare_shallow (name : String) : Shallow (declare place name) := by
  refine .bind .get fun s => ?_
  split
  · exact emit_named_shallow .setGlobal name
  · rename_i scope _
    constructor
    intro s named later
    unfold Scope.declare
    by_cases declared : name ∈ scope.innermost
    · rw [if_pos declared]
      nofun
    · rw [if_neg declared]
      by_cases full : scope.capacity ≤ scope.size
      · rw [if_pos full]
        nofun
      · rw [if_neg full]
        nofun

theorem emitTimes_shallow (op : Opcode) (count : Nat) : Shallow (emitTimes place op count) := by
  induction count with
  | zero => exact .pure ()
  | succ count ih => exact .bind (emit_shallow op []) fun _ => ih

theorem enterFunction_shallow (parameters : List Parameter) :
    Shallow (enterFunction parameters) := by
  refine .bind (.modify _) fun _ => ?_
  induction parameters with
  | nil => exact .pure _
  | cons first rest ih => exact .bind (declare_shallow first.name) fun _ => ih

/-- What the first of two steps does, the second one does too, unless the first one is refused for
its nesting. That happens only under a condition, and the place that is named is the given one. -/
structure Deepens (root : Location) (deep : Prop) (x y : Lower α) : Prop where
  outcome : ∀ s, (x s = y s ∧ ∀ place later, x s ≠ .error (.refused ⟨place, .nestingTooDeep⟩) later) ∨
    deep ∧ ∃ later, x s = .error (.refused ⟨some root, .nestingTooDeep⟩) later

namespace Deepens

theorem of_shallow (h : Shallow x) : Deepens root deep x x := ⟨fun s => .inl ⟨rfl, h.fine s⟩⟩

theorem imp (h : Deepens root deep x y) (imp : deep → deeper) : Deepens root deeper x y :=
  ⟨fun s => (h.outcome s).imp_right fun ⟨is, refused⟩ => ⟨imp is, refused⟩⟩

/-- A step that follows starts in the same state, since the first one has not been refused. -/
theorem bind {f g : α → Lower β} (first : Deepens root deep x y)
    (next : ∀ value, Deepens root deep (f value) (g value)) :
    Deepens root deep (x >>= f) (y >>= g) := by
  constructor
  intro s
  rw [show (x >>= f) s = EStateM.bind x f s from rfl, EStateM.bind,
    show (y >>= g) s = EStateM.bind y g s from rfl, EStateM.bind]
  obtain ⟨same, fine⟩ | ⟨is, mid, refused⟩ := first.outcome s
  · rw [← same]
    cases found : x s with
    | ok value mid => exact (next value).outcome mid
    | error failure mid =>
        refine .inl ⟨rfl, ?_⟩
        rintro place _ ⟨⟩
        exact fine place _ found
  · rw [refused]
    exact .inr ⟨is, mid, rfl⟩

theorem refuseBind {cause : Diagnostic.Cause} {f g : α → Lower β}
    (other : cause ≠ .nestingTooDeep) :
    Deepens root deep (Lower.refuse place cause >>= f) (Lower.refuse place cause >>= g) := by
  refine ⟨fun s => .inl ⟨rfl, ?_⟩⟩
  rintro named later ⟨⟩
  exact other rfl

/-- A step that cannot be refused for its nesting, before another. -/
theorem after {f g : α → Lower β} (h : Shallow x)
    (next : ∀ value, Deepens root deep (f value) (g value)) :
    Deepens root deep (x >>= f) (x >>= g) := (of_shallow h).bind next

/-- Going one level down. What nests a number of levels there nests one more here. -/
theorem down {levels wider nesting : Nat} {f : Depth → Lower β} (le : levels ≤ wider)
    (next : ∀ {levels wider : Nat}, levels ≤ wider →
      Deepens root (levels < nesting) (f ⟨root, levels⟩) (f ⟨root, wider⟩)) :
    Deepens root (levels < nesting + 1) (Depth.deeper ⟨root, levels⟩ >>= f)
      (Depth.deeper ⟨root, wider⟩ >>= f) := by
  cases levels with
  | zero => exact ⟨fun s => .inr ⟨Nat.succ_pos nesting, s, rfl⟩⟩
  | succ levels =>
      obtain ⟨wider, rfl⟩ : ∃ less, wider = less + 1 := ⟨wider - 1, by omega⟩
      exact (next (Nat.le_of_succ_le_succ le)).imp Nat.succ_lt_succ

/-- Going one level down for a while, and then on from where one was. -/
theorem detour {levels wider inside rest : Nat} {f : Depth → Lower α} {g g' : α → Lower β}
    (le : levels ≤ wider)
    (first : ∀ {levels wider : Nat}, levels ≤ wider →
      Deepens root (levels < inside) (f ⟨root, levels⟩) (f ⟨root, wider⟩))
    (next : ∀ value, Deepens root (levels < rest) (g value) (g' value)) :
    Deepens root (levels < max (inside + 1) rest)
      (Depth.deeper ⟨root, levels⟩ >>= fun depth => f depth >>= g)
      (Depth.deeper ⟨root, wider⟩ >>= fun depth => f depth >>= g') := by
  rw [← bind_assoc, ← bind_assoc]
  exact ((down le first).imp (by omega)).bind fun value => (next value).imp (by omega)

theorem block {content content' : Lower Unit} (h : Deepens root deep content content') :
    Deepens root deep (Lower.block place content) (Lower.block place content') := by
  refine after localCount_shallow fun before => ?_
  refine after (.modify _) fun _ => ?_
  refine h.bind fun _ => of_shallow ?_
  exact .bind localCount_shallow fun _ => .bind (emitTimes_shallow .pop _) fun _ => .modify _

end Deepens

end Lower

namespace Lowering

open Lower (Shallow Deepens)

variable {root place : Location} {levels wider : Nat}

theorem literal_shallow (value : Literal) : Shallow (literal place value) := by
  cases value with
  | null => exact Lower.emit_shallow .null []
  | bool value => cases value <;> exact Lower.emit_shallow _ []
  | number value => exact .bind (Lower.constant_shallow value) fun _ => Lower.emit_shallow .const _
  | string value => exact Lower.emit_named_shallow .str value

theorem reference_shallow (name : String) : Shallow (reference place name) := by
  refine .bind (Lower.slot_shallow name) fun slot => ?_
  cases slot with
  | none => exact Lower.emit_named_shallow .getGlobal name
  | some slot => exact Lower.emit_shallow .deepGet _

theorem operator_shallow (opcodes : List Opcode) :
    Shallow (opcodes.forM fun opcode => Lower.emit place opcode []) := by
  induction opcodes with
  | nil => exact .pure _
  | cons first rest ih => exact .bind (Lower.emit_shallow first []) fun _ => ih

mutual

/-- An expression is refused only for operands that are further down than there are levels. -/
theorem expression_deepens (e : Expr) {levels wider : Nat} (le : levels ≤ wider) :
    Deepens root (levels < e.nesting) (expression ⟨root, levels⟩ e)
      (expression ⟨root, wider⟩ e) := by
  cases e with
  | literal place value =>
      simp only [expression]
      exact .of_shallow (literal_shallow value)
  | reference place name =>
      simp only [expression]
      exact .of_shallow (reference_shallow name)
  | unary place op operand =>
      simp only [expression, Expr.nesting]
      refine .down le fun le => ?_
      exact (expression_deepens operand le).bind fun _ => .of_shallow (Lower.emit_shallow _ [])
  | binary place op left right =>
      simp only [expression, Expr.nesting]
      refine .detour le (expression_deepens left) fun _ => ?_
      split
      · simp only [pure_bind, Nat.add_zero]
        exact (expression_deepens right le).bind fun _ => .of_shallow (operator_shallow _)
      · refine .down le fun le => ?_
        exact (expression_deepens right le).bind fun _ => .of_shallow (operator_shallow _)
  | call place callee arguments =>
      simp only [expression, Expr.nesting]
      cases arguments[maxArguments]? with
      | some extra => exact .of_shallow (.refuse nofun)
      | none =>
          refine (argumentList_deepens arguments le).bind fun _ => .of_shallow ?_
          exact .bind (Lower.string_shallow callee) fun _ => Lower.emit_shallow .invoke _

theorem argumentList_deepens (es : List Expr) {levels wider : Nat} (le : levels ≤ wider) :
    Deepens root (levels < argumentNesting es) (argumentList ⟨root, levels⟩ es)
      (argumentList ⟨root, wider⟩ es) := by
  cases es with
  | nil =>
      simp only [argumentList]
      exact .of_shallow (.pure ())
  | cons first rest =>
      simp only [argumentList, argumentNesting]
      exact .detour le (expression_deepens first) fun _ => argumentList_deepens rest le

end

theorem functionHead_shallow (name : String) (parameters : List Parameter) :
    Shallow (functionHead place name parameters) := by
  refine .bind .get fun s => ?_
  dsimp only
  split
  · exact .refuseBind nofun
  · cases parameters[maxParameters]? with
    | some extra => exact .refuse nofun
    | none =>
        refine .bind (Lower.string_shallow name) fun id => .bind Lower.here_shallow fun start => ?_
        split
        · exact .refuseBind nofun
        · refine .bind (Lower.emit_shallow .func _) fun _ => ?_
          refine .bind (Lower.append_shallow .jmp _) fun skip => ?_
          exact .bind (Lower.enterFunction_shallow parameters) fun _ => .pure skip

theorem functionEnd_shallow (bodyPlace : Location) (skip : Nat) (returned : Bool) :
    Shallow (functionEnd place bodyPlace skip returned) := by
  have rest : Shallow (do
      Lower.leaveFunction
      Lower.settle place skip (← Lower.here)) :=
    .bind (.modify _) fun _ => .bind Lower.here_shallow fun _ => Lower.settle_shallow skip _
  unfold functionEnd
  cases returned with
  | true => exact rest
  | false =>
      exact .bind (Lower.emit_shallow .null []) fun _ =>
        .bind (Lower.emit_shallow .ret []) fun _ => rest

/-- The jump around a branch, the branch one level further down, and what follows it. -/
theorem branch_deepens {nesting : Nat} {st : Stmt} (le : levels ≤ wider)
    (h : ∀ {levels wider : Nat}, levels ≤ wider →
      Deepens root (levels < nesting) (statement ⟨root, levels⟩ st) (statement ⟨root, wider⟩ st)) :
    Deepens root (levels < nesting + 1)
      (Lower.block place do statement (← Depth.deeper ⟨root, levels⟩) st)
      (Lower.block place do statement (← Depth.deeper ⟨root, wider⟩) st) :=
  .block (.down le h)

mutual

/-- A statement is refused only for what is further down in it than there are levels. -/
theorem statement_deepens (st : Stmt) {levels wider : Nat} (le : levels ≤ wider) :
    Deepens root (levels < st.nesting) (statement ⟨root, levels⟩ st)
      (statement ⟨root, wider⟩ st) := by
  cases st with
  | expression place value =>
      simp only [statement, Stmt.nesting]
      exact (expression_deepens value le).bind fun _ => .of_shallow (Lower.emit_shallow .pop [])
  | print place value =>
      simp only [statement, Stmt.nesting]
      exact (expression_deepens value le).bind fun _ => .of_shallow (Lower.emit_shallow .print [])
  | declare place name value =>
      simp only [statement, Stmt.nesting]
      exact (expression_deepens value le).bind fun _ => .of_shallow (Lower.declare_shallow name)
  | assign place name value =>
      simp only [statement, Stmt.nesting]
      refine (expression_deepens value le).bind fun _ => .of_shallow ?_
      refine .bind (Lower.slot_shallow name) fun slot => ?_
      cases slot with
      | none => exact Lower.emit_named_shallow .setGlobal name
      | some slot => exact Lower.emit_shallow .deepSet _
  | block place body =>
      simp only [statement, Stmt.nesting]
      exact .block (statementList_deepens body le)
  | ifThen place condition yes =>
      simp only [statement, Stmt.nesting]
      refine ((expression_deepens condition le).imp (by omega)).bind fun _ => ?_
      refine .after (Lower.append_shallow .jz _) fun skip => ?_
      refine ((branch_deepens le (statement_deepens yes)).imp (by omega)).bind fun _ => ?_
      exact .of_shallow (.bind Lower.here_shallow fun _ => Lower.settle_shallow skip _)
  | ifElse place condition yes no =>
      simp only [statement, Stmt.nesting]
      refine ((expression_deepens condition le).imp (by omega)).bind fun _ => ?_
      refine .after (Lower.append_shallow .jz _) fun skip => ?_
      refine ((branch_deepens le (statement_deepens yes)).imp (by omega)).bind fun _ => ?_
      refine .after (Lower.append_shallow .jmp _) fun leave => ?_
      refine .after Lower.here_shallow fun _ => .after (Lower.settle_shallow skip _) fun _ => ?_
      refine ((branch_deepens le (statement_deepens no)).imp (by omega)).bind fun _ => ?_
      exact .of_shallow (.bind Lower.here_shallow fun _ => Lower.settle_shallow leave _)
  | loop place condition body =>
      simp only [statement, Stmt.nesting]
      refine .after Lower.here_shallow fun start => ?_
      refine ((expression_deepens condition le).imp (by omega)).bind fun _ => ?_
      refine .after (Lower.append_shallow .jz _) fun leave => ?_
      refine ((branch_deepens le (statement_deepens body)).imp (by omega)).bind fun _ => ?_
      refine .after (Lower.append_shallow .jmp _) fun again => ?_
      refine .after (Lower.settle_shallow again start) fun _ => ?_
      exact .of_shallow (.bind Lower.here_shallow fun _ => Lower.settle_shallow leave _)
  | function place name parameters bodyPlace body =>
      simp only [statement, Stmt.nesting]
      refine .after (functionHead_shallow name parameters) fun skip => ?_
      refine (functionBody_deepens body le).bind fun returned => ?_
      exact .of_shallow (functionEnd_shallow bodyPlace skip returned)
  | ret place value =>
      simp only [statement]
      refine .after .get fun s => ?_
      split
      · exact .refuseBind nofun
      · cases value with
        | none =>
            exact .of_shallow (.bind (Lower.emit_shallow .null []) fun _ =>
              Lower.emit_shallow .ret [])
        | some value =>
            simp only [Stmt.nesting]
            exact (expression_deepens value le).bind fun _ => .of_shallow (Lower.emit_shallow .ret [])

theorem statementList_deepens (body : List Stmt) {levels wider : Nat} (le : levels ≤ wider) :
    Deepens root (levels < listNesting body) (statementList ⟨root, levels⟩ body)
      (statementList ⟨root, wider⟩ body) := by
  cases body with
  | nil =>
      simp only [statementList]
      exact .of_shallow (.pure ())
  | cons first rest =>
      simp only [statementList, listNesting]
      exact .detour le (statement_deepens first) fun _ => statementList_deepens rest le

/-- What follows a return is not lowered, however deeply it nests. -/
theorem functionBody_deepens (body : List Stmt) {levels wider : Nat} (le : levels ≤ wider) :
    Deepens root (levels < listNesting body) (functionBody ⟨root, levels⟩ body)
      (functionBody ⟨root, wider⟩ body) := by
  cases body with
  | nil =>
      simp only [functionBody]
      exact .of_shallow (.pure false)
  | cons first rest =>
      simp only [functionBody, listNesting]
      refine .detour le (statement_deepens first) fun _ => ?_
      split
      · exact .of_shallow (.pure true)
      · exact functionBody_deepens rest le

end

end Lowering

end StackScript
