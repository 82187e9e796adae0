/-
# Expressions

The code of an expression does what evaluating the expression does: it leaves a
value for the datum on top of the stack, or ends with the same fault. Calls go one
level down, and what happens there is taken for granted here.
-/

import StackScript.Proofs.Simulation.Judgement

namespace StackScript

open Line (extent)

/-- A datum has been computed: a value for it lies on top of the stack. -/
def Computed (chunk : Chunk) (ctx : Context) (base : List Value) (frames : List Nat)
    (extra : List Value) (stop : Nat) (datum : Datum) (w : World) (c : Config) : Prop :=
  ∃ value, datum.Stands chunk value ∧ Represents chunk ctx base frames (extra ++ [value]) w c ∧
    c.offset = stop

/-- Several data have been computed, the last one on top. -/
def AllComputed (chunk : Chunk) (ctx : Context) (base : List Value) (frames : List Nat)
    (extra : List Value) (stop : Nat) (data : List Datum) (w : World) (c : Config) : Prop :=
  ∃ values, List.Forall₂ (Datum.Stands chunk) data values ∧
    Represents chunk ctx base frames (extra ++ values) w c ∧ c.offset = stop

/-- Statements have ended. If they return a value, the machine is about to do so. -/
def Ended (chunk : Chunk) (ctx : Context) (base : List Value) (frames : List Nat) (stop : Nat) :
    Option Datum → World → Config → Prop
  | none, w, c => Represents chunk ctx base frames [] w c ∧ c.offset = stop
  | some datum, w, c => ctx.home.isSome ∧
      ∃ value, datum.Stands chunk value ∧ Leaves chunk base frames value w c

/-- The body of a function has ended. -/
def Returned (chunk : Chunk) (base : List Value) (frames : List Nat) (result : Option Datum)
    (w : World) (c : Config) : Prop :=
  ∃ value, (result.getD .null).Stands chunk value ∧ Leaves chunk base frames value w c

/-- What is taken for granted of evaluation one level further down. -/
structure Deeper (chunk : Chunk) (levels : Nat) (deeper : List Stmt → Eval (Option Datum)) :
    Prop where
  list : ∀ {ctx : Context} {base : List Value} {frames : List Nat} {body : List Stmt} {w : World}
    {c : Config}, listLegal ctx.home.isSome body →
      chunk.Presents c.offset (listCode c.offset ctx body) →
        Represents chunk ctx base frames [] w c →
          Simulates chunk levels (deeper body) w c
            (Ended chunk (ctx.afterAll body) base frames
              (c.offset + extent (listCode c.offset ctx body)))
  body : ∀ {ctx : Context} {base : List Value} {frames : List Nat} {place : Location}
    {body : List Stmt} {w : World} {c : Config}, ctx.home.isSome → bodyLegal body →
      chunk.Presents c.offset (bodyCode c.offset ctx place body) →
        Represents chunk ctx base frames [] w c →
          Simulates chunk levels (deeper body) w c (Returned chunk base frames)

theorem Chunk.Presents.inside {chunk : Chunk} {offset : Nat} {line : Line} {lines : List Line}
    (h : chunk.Presents offset (line :: lines)) : offset + line.size ≤ chunk.size := by
  have fits := h.fits
  rw [Line.extent_cons] at fits
  omega

/-- The global value of a name. -/
def World.fetch (w : World) (name : String) : Except Fault Datum :=
  match w.globals.lookup name with
  | some datum => .ok datum
  | none => .error (.variableNotDefined name)

namespace Eval

variable {w : World} {name : String}

theorem read_global (missing : (w.locals.bind fun locals => locals.lookup name) = none) :
    read name w = lift (w.fetch name) w := by
  simp only [read, get_bind, missing, World.fetch]
  cases w.globals.lookup name <;> rfl

theorem read_local {env : Bindings} {datum : Datum} (found : w.locals = some env)
    (known : env.lookup name = some datum) : read name w = lift (.ok datum) w := by
  simp only [read, get_bind, found, Option.bind_some, known]
  rfl

end Eval

/-- The outcome of reading a name that is not local. -/
theorem Shares.fetch_outcome {chunk : Chunk} {w : World} {c : Config} (h : Shares chunk w c)
    (name : String) : Datum.Outcome chunk (w.fetch name) (c.globals.fetch name) := by
  rw [World.fetch, Globals.fetch]
  cases known : w.globals.lookup name with
  | none =>
      rw [h.find_none known]
      exact .error _
  | some datum =>
      obtain ⟨value, found, stands⟩ := h.find_some known
      rw [found]
      exact .ok stands

/-- What the first instruction of a binary operator computes. -/
def BinaryOp.directly (op : BinaryOp) (first second : Datum) : Except Fault Datum :=
  match op with
  | equal | notEqual => Datum.equal first second
  | less | greaterEqual => Datum.less first second
  | greater | lessEqual => Datum.greater first second
  | add => Datum.calculate "+" (fun x y => .number (x + y)) first second
  | subtract => Datum.calculate "-" (fun x y => .number (x - y)) first second
  | multiply => Datum.calculate "*" (fun x y => .number (x * y)) first second
  | divide => Datum.calculate "/" (fun x y => .number (x / y)) first second
  | remainder => Datum.calculate "%" (fun x y => .number (Number.remainder x y)) first second

theorem BinaryOp.apply_eq (op : BinaryOp) (first second : Datum) :
    op.apply first second =
      if op.negates then op.directly first second >>= Datum.invert
      else op.directly first second := by
  cases op <;> rfl

theorem BinaryOp.directly_outcome (chunk : Chunk) (op : BinaryOp) :
    ∃ operation, op.base.binary? = some operation ∧
      ∀ {first second : Datum} {x y : Value}, first.Stands chunk x → second.Stands chunk y →
        Datum.Outcome chunk (op.directly first second) (operation x y) := by
  cases op with
  | equal | notEqual => exact ⟨_, rfl, Datum.equal_outcome⟩
  | less | greaterEqual => exact ⟨_, rfl, Datum.calculate_outcome "<" fun p q => .bool (p < q)⟩
  | greater | lessEqual => exact ⟨_, rfl, Datum.calculate_outcome ">" fun p q => .bool (q < p)⟩
  | add => exact ⟨_, rfl, Datum.calculate_outcome "+" fun p q => .number (p + q)⟩
  | subtract => exact ⟨_, rfl, Datum.calculate_outcome "-" fun p q => .number (p - q)⟩
  | multiply => exact ⟨_, rfl, Datum.calculate_outcome "*" fun p q => .number (p * q)⟩
  | divide => exact ⟨_, rfl, Datum.calculate_outcome "/" fun p q => .number (p / q)⟩
  | remainder =>
      exact ⟨_, rfl, Datum.calculate_outcome "%" fun p q => .number (Number.remainder p q)⟩

theorem UnaryOp.apply_outcome (chunk : Chunk) (op : UnaryOp) :
    ∃ operation, op.opcode.unary? = some operation ∧
      ∀ {datum : Datum} {value : Value}, datum.Stands chunk value →
        Datum.Outcome chunk (op.apply datum) (operation value) := by
  cases op with
  | negate => exact ⟨_, rfl, Datum.negate_outcome⟩
  | not => exact ⟨_, rfl, Datum.invert_outcome⟩

theorem Eval.lift_bind (x : Except Fault Datum) (f : Datum → Except Fault Datum) :
    Eval.lift (x >>= f) = Eval.lift x >>= fun datum => Eval.lift (f datum) := by
  cases x <;> rfl

section Operations

variable {chunk : Chunk} {levels : Nat} {ctx : Context} {base extra taken : List Value}
  {frames : List Nat} {w : World} {c : Config} {instr : Instr}

/-- An instruction that computes a value, or fails, as an operation does. -/
theorem Represents.operate {outcome : Except Fault Datum} {onValues : Except Fault Value}
    (h : Represents chunk ctx base frames (extra ++ taken) w c)
    (reads : chunk.Reads c.offset instr) (inside : c.offset + instr.op.size ≤ chunk.size)
    (same : Datum.Outcome chunk outcome onValues)
    (performed : ∀ kept, c.stack = kept ++ taken → ∀ m : Machine, m.globals = c.globals →
      Exec.perform instr (m.holding (kept ++ taken) c.frames) =
        Exec.deliver onValues (m.holding kept c.frames)) :
    Simulates chunk levels (Eval.lift outcome) w c
      (Computed chunk ctx base frames extra (c.offset + instr.op.size)) := by
  obtain ⟨kept, stack, onward⟩ := h.exchange
  have effect := performed kept stack
  cases same with
  | ok stands =>
      rename_i datum value
      refine .next (Config.moves_deliver reads inside stack effect) (.pure ?_)
      exact ⟨value, stands, onward rfl rfl rfl (h.shares.congr rfl rfl), rfl⟩
  | error fault => exact .fail (Config.fails_deliver reads stack effect) h.shares

/-- The instruction of a literal puts its value on the stack. -/
theorem Literal.instr_performed (chunk : Chunk) (value : Literal) :
    ∃ shown, value.datum.Stands chunk shown ∧
      ∀ m : Machine, Exec.perform value.instr m = Exec.deliver (.ok shown) m := by
  cases value with
  | null => exact ⟨_, .null, fun m => rfl⟩
  | bool value =>
      refine ⟨_, .bool value, fun m => ?_⟩
      cases value <;> rfl
  | number value => exact ⟨_, .number value, fun m => rfl⟩
  | string value => exact ⟨_, .string value, fun m => rfl⟩

/-- A name is read from its slot, or among the globals if it has none. -/
theorem Represents.read (h : Represents chunk ctx base frames extra w c) (name : String)
    (reads : chunk.Reads c.offset (ctx.fetch name))
    (inside : c.offset + (ctx.fetch name).op.size ≤ chunk.size) :
    Simulates chunk levels (Eval.read name) w c
      (Computed chunk ctx base frames extra (c.offset + (ctx.fetch name).op.size)) := by
  obtain ⟨values, stack, locals⟩ := h.stack
  rw [← List.append_nil extra] at h
  unfold Context.fetch at reads inside ⊢
  cases slot : ctx.slot? name with
  | none =>
      simp only [slot] at reads inside ⊢
      refine .congr (Eval.read_global (locals.lookup_none slot)) ?_
      refine h.operate reads inside (h.shares.fetch_outcome name) ?_
      intro kept _ m globals
      rw [List.append_nil, Exec.perform_getGlobal, globals]
  | some index =>
      simp only [slot] at reads inside ⊢
      obtain ⟨env, datum, found, known, within, stands, -⟩ := locals.lookup_some slot
      refine .congr (Eval.read_local found known) ?_
      refine h.operate reads inside (.ok stands) ?_
      intro kept whole m _
      obtain ⟨earlier, rfl⟩ := h.frame (locals.home_isSome found)
      have reach : index < (values ++ extra).length := by
        rw [List.length_append]
        omega
      rw [List.append_nil] at whole ⊢
      rw [← whole, stack, h.onFrames, List.append_assoc, Exec.perform_deepGet reach,
        List.getElem_append_left within]
      rfl

/-- A unary operator. -/
theorem Represents.unary {datum : Datum} {value : Value} {op : UnaryOp}
    (h : Represents chunk ctx base frames (extra ++ [value]) w c) (stands : datum.Stands chunk value)
    (reads : chunk.Reads c.offset (.plain op.opcode op.opcode_bare))
    (inside : c.offset + op.opcode.size ≤ chunk.size) :
    Simulates chunk levels (Eval.lift (op.apply datum)) w c
      (Computed chunk ctx base frames extra (c.offset + op.opcode.size)) := by
  obtain ⟨operation, found, same⟩ := op.apply_outcome chunk
  exact h.operate reads inside (same stands) fun kept _ m _ => Exec.perform_unary found value

/-- A binary operator: one instruction, or two if the operator is a negation. -/
theorem Represents.binary {first second : Datum} {x y : Value} {op : BinaryOp} {height : Nat}
    {place : Location} (h : Represents chunk ctx base frames (extra ++ [x, y]) w c)
    (stands : first.Stands chunk x) (stands' : second.Stands chunk y)
    (presents : chunk.Presents c.offset (ctx.operator height place op)) :
    Simulates chunk levels (Eval.lift (op.apply first second)) w c
      (Computed chunk ctx base frames extra
        (c.offset + extent (ctx.operator height place op))) := by
  obtain ⟨operation, found, same⟩ := op.directly_outcome chunk
  have direct : Simulates chunk levels (Eval.lift (op.directly first second)) w c
      (Computed chunk ctx base frames extra (c.offset + op.base.size)) :=
    h.operate presents.head presents.inside (same stands stands')
      fun kept _ m _ => Exec.perform_binary found x y
  have behind := presents.tail
  rw [op.apply_eq]
  unfold Context.operator at behind ⊢
  by_cases negates : op.negates
  · rw [if_pos negates] at behind
    rw [if_pos negates, if_pos negates, Eval.lift_bind]
    refine direct.bind ?_
    intro datum later d computed
    obtain ⟨value, stands, here, offset⟩ := computed
    rw [Context.line_size, Instr.op, ← offset] at behind
    have total : c.offset + extent [ctx.line (height + 2) place (.plain op.base op.base_bare),
        ctx.line (height + 1) place (.plain .not rfl)] = d.offset + Opcode.not.size := by
      rw [offset]
      exact (Nat.add_assoc _ _ _).symm
    rw [total]
    have inverts : UnaryOp.not.apply datum = datum.invert := rfl
    rw [← inverts]
    exact here.unary stands behind.head behind.inside
  · rw [if_neg negates, if_neg negates]
    exact direct

end Operations

section Calls

variable {chunk : Chunk} {levels : Nat} {deeper : List Stmt → Eval (Option Datum)} {ctx : Context}
  {base extra : List Value} {frames : List Nat} {w : World} {c : Config}

/-- The arguments of a call are the local variables at its beginning. -/
theorem Locals.ofCall {parameters : List Parameter} {data : List Datum} {values : List Value}
    (start : Nat) (stand : List.Forall₂ (Datum.Stands chunk) data values)
    (same : data.length = parameters.length) :
    Locals chunk (.ofBody start parameters) (some (.ofCall parameters data)) values := by
  have names : (Bindings.ofCall parameters data).map Prod.fst =
      (parameters.map Parameter.name).reverse := by
    rw [Bindings.ofCall, List.map_reverse, List.map_fst_zip (by simp [same])]
  have bound : (Bindings.ofCall parameters data).map Prod.snd = data.reverse := by
    rw [Bindings.ofCall, List.map_reverse, List.map_snd_zip (by simp [same])]
  rw [Context.ofBody, ← names]
  refine .inside ?_
  rw [bound]
  exact List.rel_reverse stand

/-- The body of a function that is called. -/
theorem Represents.inCall {callee : String} {data : List Datum} {values : List Value}
    {parameters : List Parameter} {body : List Stmt} {function : Function} {start : Nat}
    {place : Location} (below : Deeper chunk levels deeper)
    (h : Represents chunk ctx base frames (extra ++ values) w c)
    (stand : List.Forall₂ (Datum.Stands chunk) data values)
    (reads : chunk.Reads c.offset (.invoke callee values.length))
    (inside : c.offset + Opcode.invoke.size ≤ chunk.size)
    (found : c.globals.find? callee = some (.function function))
    (arity : function.arity = values.length) (same : data.length = parameters.length)
    (starts : function.start = start) (legal : bodyLegal body)
    (presents : chunk.Presents start (bodyCode start (.ofBody start parameters) place body)) :
    Simulates chunk (levels + 1)
      (do
        let result ← Eval.inCall (.ofCall parameters data) (deeper body)
        return result.getD .null) w c
      (Computed chunk ctx base frames extra (c.offset + Opcode.invoke.size)) := by
  obtain ⟨kept, stack, onward⟩ := h.exchange
  have reaches : start ≤ chunk.size := Nat.le_trans (Nat.le_add_right _ _) presents.fits
  refine .deeper (Config.moves_invoke reads reaches stack found arity starts) ?_
  have entered : Represents chunk (.ofBody start parameters)
      (kept ++ [.pointer (c.offset + 2 : Nat)]) (c.frames ++ [kept.length + 1]) []
      { w with locals := some (.ofCall parameters data) }
      { c with
        offset := start
        last := c.offset
        stack := kept ++ .pointer (c.offset + 2 : Nat) :: values
        frames := c.frames ++ [kept.length + 1] } := by
    refine ⟨⟨values, by simp, .ofCall start stand same⟩, rfl, ?_, h.shares.globals, h.shares.output⟩
    exact fun _ => ⟨c.frames, by simp⟩
  refine (below.body rfl legal presents entered).inCall.bind ?_
  rintro result later d ⟨inner, ⟨value, stands, leaves⟩, rfl⟩
  obtain ⟨bare, readsRet⟩ := leaves.reads
  obtain ⟨others, onStack⟩ := leaves.stack
  rw [List.append_assoc kept, List.singleton_append] at onStack
  refine .next (Config.moves_ret readsRet inside onStack leaves.onFrames) (.pure ?_)
  exact ⟨value, stands, onward rfl rfl rfl ⟨leaves.shares.globals, leaves.shares.output⟩, rfl⟩

section Calling

variable {callee : String} {data : List Datum}

theorem call_missing (found : w.globals.lookup callee = none) :
    call deeper callee data w = Eval.fail (.functionNotDefined callee) w := by
  simp only [call, Eval.get_bind, found]

theorem call_other {datum : Datum} (found : w.globals.lookup callee = some datum)
    (other : datum.kind ≠ .function) :
    call deeper callee data w = Eval.fail (.notCallable callee datum.kind) w := by
  simp only [call, Eval.get_bind, found]
  cases datum with
  | function name parameters body => exact absurd rfl other
  | _ => rfl

variable {name : String} {parameters : List Parameter} {body : List Stmt}

theorem call_arity (found : w.globals.lookup callee = some (.function name parameters body))
    (wrong : data.length ≠ parameters.length) :
    call deeper callee data w =
      Eval.fail (.arityMismatch callee parameters.length data.length) w := by
  simp only [call, Eval.get_bind, found, if_neg wrong]

theorem call_function (found : w.globals.lookup callee = some (.function name parameters body))
    (right : data.length = parameters.length) :
    call deeper callee data w =
      (do
        let result ← Eval.inCall (.ofCall parameters data) (deeper body)
        return result.getD .null : Eval Datum) w := by
  simp only [call, Eval.get_bind, found, if_pos right]

end Calling

/-- A call. -/
theorem Represents.call {callee : String} {data : List Datum} {values : List Value}
    (below : Deeper chunk levels deeper)
    (h : Represents chunk ctx base frames (extra ++ values) w c)
    (stand : List.Forall₂ (Datum.Stands chunk) data values)
    (reads : chunk.Reads c.offset (.invoke callee values.length))
    (inside : c.offset + Opcode.invoke.size ≤ chunk.size) :
    Simulates chunk (levels + 1) (StackScript.call deeper callee data) w c
      (Computed chunk ctx base frames extra (c.offset + Opcode.invoke.size)) := by
  cases known : w.globals.lookup callee with
  | none =>
      have missing := h.shares.find_none known
      refine .congr (call_missing known) ?_
      exact .fail (Config.fails_invoke_missing reads missing) h.shares
  | some datum =>
      obtain ⟨value, found, stands⟩ := h.shares.find_some known
      by_cases isFunction : datum.kind = .function
      · cases stands with
        | function legal presents =>
            rename_i name parameters body start place
            by_cases right : data.length = parameters.length
            · refine .congr (call_function known right) ?_
              refine h.inCall below stand reads inside found ?_ right rfl legal presents
              exact congrArg Int.ofNat (right.symm.trans stand.length_eq)
            · refine .congr (call_arity known right) ?_
              rw [stand.length_eq] at right ⊢
              have wrong : (values.length : Int) ≠ (parameters.length : Int) :=
                fun same => right (Int.ofNat_inj.mp same)
              exact .fail (Config.fails_invoke_arity reads found wrong) h.shares
        | _ => cases isFunction
      · refine .congr (call_other known isFunction) ?_
        rw [stands.kind_eq] at isFunction ⊢
        exact .fail (Config.fails_invoke_other reads found isFunction) h.shares

mutual

/-- The code of an expression computes what evaluation does. -/
theorem Expr.simulates (e : Expr) (below : Deeper chunk levels deeper) {extra : List Value}
    {height : Nat} {w : World} {c : Config} (h : Represents chunk ctx base frames extra w c)
    (presents : chunk.Presents c.offset (e.code ctx height)) :
    Simulates chunk (levels + 1) (e.evaluate deeper) w c
      (Computed chunk ctx base frames extra (c.offset + extent (e.code ctx height))) := by
  cases e with
  | literal place value =>
      rw [Expr.code] at presents ⊢
      rw [← List.append_nil extra] at h
      obtain ⟨shown, stands, performed⟩ := value.instr_performed chunk
      refine h.operate presents.head presents.inside (.ok stands) fun kept _ m _ => ?_
      rw [List.append_nil]
      exact performed _
  | reference place name =>
      rw [Expr.code] at presents ⊢
      exact h.read name presents.head presents.inside
  | unary place op operand =>
      rw [Expr.code] at presents ⊢
      refine (operand.simulates below h presents.left).bind ?_
      rintro datum later d ⟨value, stands, here, offset⟩
      have behind := presents.right
      rw [← offset] at behind
      rw [Line.extent_append, ← Nat.add_assoc, ← offset]
      exact here.unary stands behind.head behind.inside
  | binary place op left right =>
      rw [Expr.code, List.append_assoc] at presents ⊢
      refine (left.simulates below h presents.left).bind ?_
      rintro first later d ⟨x, stands, here, offset⟩
      have behind := presents.right
      rw [← offset] at behind
      refine (right.simulates below here behind.left).bind ?_
      rintro second last d' ⟨y, stands', there, offset'⟩
      have behind' := behind.right
      rw [← offset'] at behind'
      rw [Line.extent_append, Line.extent_append, ← Nat.add_assoc, ← Nat.add_assoc, ← offset,
        ← offset']
      rw [List.append_assoc] at there
      exact there.binary stands stands' behind'
  | call place callee arguments =>
      rw [Expr.code] at presents ⊢
      refine (argumentsSimulate arguments below h presents.left).bind ?_
      rintro data later d ⟨count, values, stand, here, offset⟩
      have behind := presents.right
      rw [← offset] at behind
      rw [Line.extent_append, ← Nat.add_assoc, ← offset]
      have reads := behind.head
      rw [← count, stand.length_eq] at reads
      exact here.call below stand reads behind.inside

/-- The code of arguments computes them from left to right. -/
theorem argumentsSimulate (arguments : List Expr) (below : Deeper chunk levels deeper)
    {extra : List Value} {height : Nat} {w : World} {c : Config}
    (h : Represents chunk ctx base frames extra w c)
    (presents : chunk.Presents c.offset (argumentCode ctx height arguments)) :
    Simulates chunk (levels + 1) (evaluateAll deeper arguments) w c fun data later d =>
      data.length = arguments.length ∧
        AllComputed chunk ctx base frames extra
          (c.offset + extent (argumentCode ctx height arguments)) data later d := by
  cases arguments with
  | nil => exact .pure ⟨rfl, [], .nil, by rwa [List.append_nil], rfl⟩
  | cons first rest =>
      rw [argumentCode] at presents ⊢
      refine (first.simulates below h presents.left).bind ?_
      rintro datum later d ⟨value, stands, here, offset⟩
      have behind := presents.right
      rw [← offset] at behind
      refine (argumentsSimulate rest below here behind).bind ?_
      rintro data last d' ⟨count, values, stand, there, offset'⟩
      rw [List.append_assoc] at there
      refine .pure ⟨congrArg Nat.succ count, value :: values, .cons stands stand, there, ?_⟩
      rw [offset', offset, Line.extent_append, Nat.add_assoc]

end

end Calls

end StackScript
