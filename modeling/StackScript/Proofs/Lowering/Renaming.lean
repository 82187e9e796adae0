/-
# Names of local variables

The names of parameters and local variables do not matter. Functions that are alike have the same
code, and the same pools and places come of them. Names in the pools come from elsewhere: from
strings, callees and global variables.

The proof goes along the syntax tree, with the two lowerings side by side.
-/

import StackScript.Proofs.Lowering.Mirrors
import StackScript.Proofs.Lowering.Refusal

namespace StackScript

namespace Lowering

open Lower (Mirrors)

variable {start : Chunk} {shared : String → Prop} {base : Nat} {outer : List Nat}
  {pairs : Pairs} {s t : Lowering}

theorem literal_mirrors (h : Paired start shared base outer pairs s t) (place : Location)
    (value : Literal)
    (mentioned : ∀ name ∈ (Expr.literal place value).mentions (pairs.map Prod.fst), shared name) :
    Mirrors (literal place value) (literal place value) s t fun _ s' t' =>
      Paired start shared base outer pairs s' t' := by
  cases value with
  | null => exact Lower.emit_mirrors h .null []
  | bool value =>
      cases value with
      | false => exact Lower.emit_mirrors h .false []
      | true => exact Lower.emit_mirrors h .true []
  | number value =>
      exact .bind ((Lower.Blind.constant place value).mirrors h) fun _ _ _ named =>
        Lower.emit_mirrors named .const _
  | string value =>
      exact Lower.emit_named_mirrors h .str (mentioned value (by simp [Expr.mentions]))

/-- What becomes of a name depends on the variable that it means. -/
theorem variable_mirrors (h : Paired start shared base outer pairs s t) {name other : String}
    (same : pairs.Same name other) {f g : Option Nat → Lower Unit}
    (slot : ∀ slot, Mirrors (f (some slot)) (g (some slot)) s t fun _ s' t' =>
      Paired start shared base outer pairs s' t')
    (global : name = other → name ∉ pairs.map Prod.fst →
      Mirrors (f none) (g none) s t fun _ s' t' => Paired start shared base outer pairs s' t') :
    Mirrors (Lower.slot? name >>= f) (Lower.slot? other >>= g) s t fun _ s' t' =>
      Paired start shared base outer pairs s' t' := by
  have first : (s.scope.bind fun scope => scope.find? name) =
      (pairs.findIdx? (·.1 == name)).map fun index => pairs.length - 1 - index := by
    rw [h.first, Scope.find?_within]
  have second : (t.scope.bind fun scope => scope.find? other) =
      (pairs.findIdx? (·.1 == name)).map fun index => pairs.length - 1 - index := by
    rw [h.second, Scope.find?_within, same.declared]
  refine .after _ _ s t (congrArg (EStateM.Result.ok · s) first)
    (congrArg (EStateM.Result.ok · t) second) ?_
  cases found : pairs.findIdx? (·.1 == name) with
  | some index => exact slot _
  | none =>
      refine global (same.elsewhere found) ?_
      rw [List.findIdx?_eq_none_iff] at found
      rintro mem
      obtain ⟨pair, inside, rfl⟩ := List.mem_map.mp mem
      simpa using found pair inside

theorem reference_mirrors (h : Paired start shared base outer pairs s t) (place : Location)
    {name other : String} (same : pairs.Same name other)
    (mentioned : ∀ name' ∈ (Expr.reference place name).mentions (pairs.map Prod.fst),
      shared name') :
    Mirrors (reference place name) (reference place other) s t fun _ s' t' =>
      Paired start shared base outer pairs s' t' := by
  refine variable_mirrors h same (fun slot => Lower.emit_mirrors h .deepGet _) ?_
  rintro rfl absent
  exact Lower.emit_named_mirrors h .getGlobal
    (mentioned name (by rw [Expr.mentions, if_neg absent]; exact List.mem_singleton.mpr rfl))

theorem operator_mirrors (h : Paired start shared base outer pairs s t) (place : Location)
    (opcodes : List Opcode) :
    Mirrors (opcodes.forM fun opcode => Lower.emit place opcode [])
      (opcodes.forM fun opcode => Lower.emit place opcode []) s t fun _ s' t' =>
        Paired start shared base outer pairs s' t' := by
  induction opcodes generalizing s t with
  | nil => exact .pure h
  | cons first rest ih => exact .bind (Lower.emit_mirrors h first []) fun _ _ _ done => ih done

/-- Expressions that are alike stand in the same places without parentheses. -/
theorem fitsRightOf_eq {e e' : Expr} (alike : e.Alike pairs e') (op : BinaryOp) :
    e.fitsRightOf op = e'.fitsRightOf op := by
  cases alike <;> rfl

theorem length_eq_of_alike {es es' : List Expr} (alike : ArgumentsAlike pairs es es') :
    es.length = es'.length := by
  induction es generalizing es' with
  | nil =>
      cases alike
      rfl
  | cons first rest ih =>
      cases alike with
      | cons _ alike => exact congrArg (· + 1) (ih alike)

mutual

theorem expression_mirrors (e : Expr) {e' : Expr} {pairs : Pairs} {s t : Lowering}
    (h : Paired start shared base outer pairs s t) (alike : e.Alike pairs e')
    (mentioned : ∀ name ∈ e.mentions (pairs.map Prod.fst), shared name) (depth : Depth) :
    Mirrors (expression depth e) (expression depth e') s t fun _ s' t' =>
      Paired start shared base outer pairs s' t' := by
  cases e with
  | literal place value =>
      cases alike
      simp only [expression]
      exact literal_mirrors h place value mentioned
  | reference place name =>
      cases alike with
      | reference _ same =>
          simp only [expression]
          exact reference_mirrors h place same mentioned
  | unary place op operand =>
      cases alike with
      | unary _ _ alike =>
          simp only [expression]
          refine .bind Mirrors.deeper ?_
          rintro inner _ _ ⟨rfl, rfl⟩
          exact .bind (expression_mirrors operand h alike (by simpa [Expr.mentions] using mentioned)
            inner) fun _ _ _ done => Lower.emit_mirrors done _ []
  | binary place op left right =>
      cases alike with
      | binary _ _ alike alike' =>
          simp only [Expr.mentions, List.mem_append] at mentioned
          simp only [expression]
          refine .bind Mirrors.deeper ?_
          rintro inner _ _ ⟨rfl, rfl⟩
          refine .bind (expression_mirrors left h alike (fun name mem => mentioned name (.inl mem))
            inner) fun _ s' t' done => ?_
          have rest (deep : Depth) :
              Mirrors (do
                  expression deep right
                  op.opcodes.forM fun opcode => Lower.emit place opcode []) (do
                  expression deep _
                  op.opcodes.forM fun opcode => Lower.emit place opcode []) s' t'
                fun _ s' t' => Paired start shared base outer pairs s' t' :=
            .bind (expression_mirrors right done alike'
              (fun name mem => mentioned name (.inr mem)) deep) fun _ _ _ done =>
                operator_mirrors done place _
          rw [fitsRightOf_eq alike']
          split
          · exact .after depth depth s' t' rfl rfl (rest depth)
          · refine .bind Mirrors.deeper ?_
            rintro deep _ _ ⟨rfl, rfl⟩
            exact rest deep
  | call place callee arguments =>
      cases alike with
      | @call _ _ _ others alike =>
          simp only [Expr.mentions, List.mem_append, List.mem_singleton] at mentioned
          simp only [expression]
          have count := length_eq_of_alike alike
          cases few : arguments[maxArguments]? with
          | some extra => exact .refuse
          | none =>
              have few' : others[maxArguments]? = none := by
                rw [List.getElem?_eq_none_iff] at few ⊢
                omega
              rw [few', count]
              refine .bind (argumentList_mirrors arguments h alike
                (fun name mem => mentioned name (.inl mem)) depth) fun _ _ _ done => ?_
              exact .bind ((Lower.Blind.string place (mentioned callee (.inr rfl))).mirrors done)
                fun _ _ _ named => Lower.emit_mirrors named .invoke _

theorem argumentList_mirrors (es : List Expr) {es' : List Expr} {pairs : Pairs} {s t : Lowering}
    (h : Paired start shared base outer pairs s t) (alike : ArgumentsAlike pairs es es')
    (mentioned : ∀ name ∈ argumentMentions (pairs.map Prod.fst) es, shared name)
    (depth : Depth) :
    Mirrors (argumentList depth es) (argumentList depth es') s t fun _ s' t' =>
      Paired start shared base outer pairs s' t' := by
  cases es with
  | nil =>
      cases alike
      simp only [argumentList]
      exact .pure h
  | cons first rest =>
      cases alike with
      | cons alike alike' =>
          simp only [argumentMentions, List.mem_append] at mentioned
          simp only [argumentList]
          refine .bind Mirrors.deeper ?_
          rintro inner _ _ ⟨rfl, rfl⟩
          exact .bind (expression_mirrors first h alike
            (fun name mem => mentioned name (.inl mem)) inner) fun _ _ _ done =>
              argumentList_mirrors rest done alike' (fun name mem => mentioned name (.inr mem))
                depth

end

/-- Does a statement have the same code as any that is alike, wherever they stand? -/
def Copies (start : Chunk) (shared : String → Prop) (st : Stmt) : Prop :=
  ∀ {other : Stmt} {base : Nat} {outer : List Nat} {pairs : Pairs} {s t : Lowering},
    Paired start shared base outer pairs s t → st.Alike pairs other →
      (∀ name ∈ st.mentions (pairs.map Prod.fst), shared name) → ∀ depth : Depth,
        Mirrors (statement depth st) (statement depth other) s t fun _ s' t' =>
          Paired start shared base outer (Pairs.ofStmts st other ++ pairs) s' t'

/-- A branch is a block of its own, one level further down. -/
theorem branch_mirrors {st other : Stmt} (copies : Copies start shared st)
    (h : Paired start shared base outer pairs s t) (alike : st.Alike pairs other)
    (mentioned : ∀ name ∈ st.mentions (pairs.map Prod.fst), shared name) (place : Location)
    (depth : Depth) :
    Mirrors (Lower.block place do statement (← depth.deeper) st)
      (Lower.block place do statement (← depth.deeper) other) s t fun _ s' t' =>
        Paired start shared base outer pairs s' t' := by
  refine Lower.block_mirrors h fun s' t' entered => ?_
  refine .bind Mirrors.deeper ?_
  rintro inner _ _ ⟨rfl, rfl⟩
  exact (copies entered alike mentioned inner).mono fun _ _ _ done => ⟨_, done⟩

theorem ifThen_copies {yes : Stmt} (place : Location) (condition : Expr)
    (yesCopies : Copies start shared yes) : Copies start shared (.ifThen place condition yes) := by
  intro other base outer pairs s t h alike mentioned depth
  cases alike with
  | ifThen _ test alike =>
      simp only [Stmt.mentions, List.mem_append] at mentioned
      simp only [statement]
      refine .bind (expression_mirrors condition h test
        (fun name mem => mentioned name (.inl mem)) depth) fun _ _ _ tested => ?_
      refine .bind ((Lower.Blind.append place .jz _).mirrors tested) fun skip _ _ jumped => ?_
      refine .bind (branch_mirrors yesCopies jumped alike
        (fun name mem => mentioned name (.inr mem)) place depth) fun _ _ _ branched => ?_
      refine Lower.here_mirrors branched ?_
      exact (Lower.Blind.settle place _ _).mirrors branched

theorem ifElse_copies {yes no : Stmt} (place : Location) (condition : Expr)
    (yesCopies : Copies start shared yes) (noCopies : Copies start shared no) :
    Copies start shared (.ifElse place condition yes no) := by
  intro other base outer pairs s t h alike mentioned depth
  cases alike with
  | ifElse _ test alike alike' =>
      simp only [Stmt.mentions, List.mem_append] at mentioned
      simp only [statement]
      refine .bind (expression_mirrors condition h test
        (fun name mem => mentioned name (.inl mem)) depth) fun _ _ _ tested => ?_
      refine .bind ((Lower.Blind.append place .jz _).mirrors tested) fun skip _ _ jumped => ?_
      refine .bind (branch_mirrors yesCopies jumped alike
        (fun name mem => mentioned name (.inr (.inl mem))) place depth) fun _ _ _ branched => ?_
      refine .bind ((Lower.Blind.append place .jmp _).mirrors branched) fun leave _ _ left => ?_
      refine Lower.here_mirrors left ?_
      refine .bind ((Lower.Blind.settle place _ _).mirrors left) fun _ _ _ settled => ?_
      refine .bind (branch_mirrors noCopies settled alike'
        (fun name mem => mentioned name (.inr (.inr mem))) place depth) fun _ _ _ ended => ?_
      refine Lower.here_mirrors ended ?_
      exact (Lower.Blind.settle place _ _).mirrors ended

theorem loop_copies {body : Stmt} (place : Location) (condition : Expr)
    (bodyCopies : Copies start shared body) : Copies start shared (.loop place condition body) := by
  intro other base outer pairs s t h alike mentioned depth
  cases alike with
  | loop _ test alike =>
      simp only [Stmt.mentions, List.mem_append] at mentioned
      simp only [statement]
      refine Lower.here_mirrors h ?_
      refine .bind (expression_mirrors condition h test
        (fun name mem => mentioned name (.inl mem)) depth) fun _ _ _ tested => ?_
      refine .bind ((Lower.Blind.append place .jz _).mirrors tested) fun leave _ _ jumped => ?_
      refine .bind (branch_mirrors bodyCopies jumped alike
        (fun name mem => mentioned name (.inr mem)) place depth) fun _ _ _ branched => ?_
      refine .bind ((Lower.Blind.append place .jmp _).mirrors branched) fun again _ _ turned => ?_
      refine .bind ((Lower.Blind.settle place _ _).mirrors turned) fun _ _ _ settled => ?_
      refine Lower.here_mirrors settled ?_
      exact (Lower.Blind.settle place _ _).mirrors settled

/-- There is nothing to show for functions inside of others. -/
theorem functionHead_inside (h : Paired start shared base outer pairs s t) (place : Location)
    (name : String) (parameters others : List Parameter) :
    Mirrors (functionHead place name parameters) (functionHead place name others) s t
      fun _ _ _ => False := by
  have inside : s.scope.isSome := by
    rw [h.first]
    rfl
  unfold functionHead
  refine .after s t s t rfl rfl ?_
  rw [if_pos inside]
  exact .refuseBind

theorem ofStmts_fst {st other : Stmt} (alike : st.Alike pairs other) :
    (Pairs.ofStmts st other).map Prod.fst = st.declared?.toList := by
  cases alike <;> rfl

mutual

/-- The code of a statement does not depend on the names of local variables. -/
theorem statement_copies (st : Stmt) : Copies start shared st := by
  cases st with
  | expression place value =>
      intro other base outer pairs s t h alike mentioned depth
      cases alike with
      | expression _ alike =>
          simp only [statement]
          exact .bind (expression_mirrors value h alike (by simpa [Stmt.mentions] using mentioned)
            depth) fun _ _ _ done => Lower.emit_mirrors done .pop []
  | print place value =>
      intro other base outer pairs s t h alike mentioned depth
      cases alike with
      | print _ alike =>
          simp only [statement]
          exact .bind (expression_mirrors value h alike (by simpa [Stmt.mentions] using mentioned)
            depth) fun _ _ _ done => Lower.emit_mirrors done .print []
  | declare place name value =>
      intro other base outer pairs s t h alike mentioned depth
      cases alike with
      | declare _ _ name' alike =>
          simp only [statement]
          exact .bind (expression_mirrors value h alike (by simpa [Stmt.mentions] using mentioned)
            depth) fun _ _ _ done => Lower.declare_mirrors done _ _ name name'
  | assign place name value =>
      intro other base outer pairs s t h alike mentioned depth
      cases alike with
      | assign _ alike same =>
          simp only [Stmt.mentions, List.mem_append] at mentioned
          simp only [statement]
          refine .bind (expression_mirrors value h alike
            (fun name mem => mentioned name (.inl mem)) depth) fun _ _ _ done => ?_
          refine variable_mirrors done same (fun slot => Lower.emit_mirrors done .deepSet _) ?_
          rintro rfl absent
          refine Lower.emit_named_mirrors done .setGlobal (mentioned name (.inr ?_))
          rw [if_neg absent]
          exact List.mem_singleton.mpr rfl
  | block place body =>
      intro other base outer pairs s t h alike mentioned depth
      cases alike with
      | block _ alike =>
          simp only [Stmt.mentions] at mentioned
          simp only [statement]
          have copied : Mirrors (Lower.block place (statementList depth body))
              (Lower.block place (statementList depth _)) s t fun _ s' t' =>
                Paired start shared base outer pairs s' t' :=
            Lower.block_mirrors h fun s' t' entered =>
              statementList_mirrors body entered alike mentioned depth
          exact copied
  | ifThen place condition yes => exact ifThen_copies place condition (statement_copies yes)
  | ifElse place condition yes no =>
      exact ifElse_copies place condition (statement_copies yes) (statement_copies no)
  | loop place condition body => exact loop_copies place condition (statement_copies body)
  | function place name parameters bodyPlace body =>
      intro other base outer pairs s t h alike mentioned depth
      cases alike
      simp only [statement]
      exact .bind (functionHead_inside h place name parameters _) fun _ _ _ absurd => absurd.elim
  | ret place value =>
      intro other base outer pairs s t h alike mentioned depth
      have inside : s.scope.isNone = false := by
        rw [h.first]
        rfl
      have inside' : t.scope.isNone = false := by
        rw [h.second]
        rfl
      cases alike with
      | retNone =>
          simp only [statement]
          refine .after s t s t rfl rfl ?_
          simp only [inside, inside', Bool.false_eq_true, if_false]
          exact .bind (Lower.emit_mirrors h .null []) fun _ _ _ done =>
            Lower.emit_mirrors done .ret []
      | ret _ alike =>
          simp only [statement]
          refine .after s t s t rfl rfl ?_
          simp only [inside, inside', Bool.false_eq_true, if_false]
          exact .bind (expression_mirrors _ h alike (by simpa [Stmt.mentions] using mentioned)
            depth) fun _ _ _ done => Lower.emit_mirrors done .ret []

/-- So it is with statements in a row. -/
theorem statementList_mirrors (body : List Stmt) {other : List Stmt} {base : Nat}
    {outer : List Nat} {pairs : Pairs} {s t : Lowering}
    (h : Paired start shared base outer pairs s t) (alike : ListAlike pairs body other)
    (mentioned : ∀ name ∈ listMentions (pairs.map Prod.fst) body, shared name) (depth : Depth) :
    Mirrors (statementList depth body) (statementList depth other) s t fun _ s' t' => ∃ added,
      Paired start shared base outer (added ++ pairs) s' t' := by
  cases body with
  | nil =>
      cases alike
      simp only [statementList]
      exact .pure ⟨[], h⟩
  | cons first rest =>
      cases alike with
      | @cons _ _ other _ others alike alike' =>
          simp only [listMentions, List.mem_append] at mentioned
          simp only [statementList]
          refine .bind Mirrors.deeper ?_
          rintro inner _ _ ⟨rfl, rfl⟩
          refine .bind (statement_copies first h alike
            (fun name mem => mentioned name (.inl mem)) inner) fun _ _ _ done => ?_
          refine (statementList_mirrors rest done alike' ?_ depth).mono ?_
          · rw [List.map_append, ofStmts_fst alike]
            exact fun name mem => mentioned name (.inr mem)
          · rintro _ s' t' ⟨added, done⟩
            exact ⟨added ++ Pairs.ofStmts first other, by simpa using done⟩

end

theorem isReturn_eq {st other : Stmt} (alike : st.Alike pairs other) :
    other.isReturn = st.isReturn := by
  cases alike <;> rfl

/-- So it is with the body of a function, up to its first return. -/
theorem functionBody_mirrors (body : List Stmt) {other : List Stmt} {pairs : Pairs}
    {s t : Lowering} (h : Paired start shared base outer pairs s t)
    (alike : ListAlike pairs body other)
    (mentioned : ∀ name ∈ listMentions (pairs.map Prod.fst) (reachable body), shared name)
    (depth : Depth) :
    Mirrors (functionBody depth body) (functionBody depth other) s t fun _ s' t' => ∃ last,
      Paired start shared base outer last s' t' := by
  induction body generalizing other pairs s t with
  | nil =>
      cases alike
      simp only [functionBody]
      exact .pure ⟨_, h⟩
  | cons first rest ih =>
      cases alike with
      | cons alike alike' =>
          simp only [reachable, listMentions, List.mem_append] at mentioned
          simp only [functionBody]
          refine .bind Mirrors.deeper ?_
          rintro inner _ _ ⟨rfl, rfl⟩
          refine .bind (statement_copies first h alike
            (fun name mem => mentioned name (.inl mem)) inner) fun _ _ _ done => ?_
          rw [isReturn_eq alike]
          cases returns : first.isReturn with
          | true => exact .pure ⟨_, done⟩
          | false =>
              simp only [returns, Bool.false_eq_true, if_false] at mentioned ⊢
              refine ih done alike' ?_
              rw [List.map_append, ofStmts_fst alike]
              exact fun name mem => mentioned name (.inr mem)

/-- Parameters are declared side by side. -/
theorem parameters_mirrors (parameters others : List Parameter)
    (h : Paired start shared base outer pairs s t) (count : parameters.length = others.length) :
    Mirrors (parameters.forM fun parameter => Lower.declare parameter.location parameter.name)
      (others.forM fun parameter => Lower.declare parameter.location parameter.name) s t
      fun _ s' t' =>
        Paired start shared base outer (Pairs.ofParameters parameters others ++ pairs) s' t' := by
  induction parameters generalizing others pairs s t with
  | nil =>
      obtain rfl : others = [] := List.eq_nil_of_length_eq_zero count.symm
      exact .pure h
  | cons first rest ih =>
      cases others with
      | nil => cases count
      | cons other others =>
          refine .bind (Lower.declare_mirrors h _ _ first.name other.name) fun _ _ _ done => ?_
          refine (ih others done (Nat.succ.inj count)).mono fun _ _ _ done => ?_
          simpa [Pairs.ofParameters] using done

/-- The heads of functions differ in the names of the parameters at most. -/
theorem functionHead_mirrors (h : Twin start shared none none s t) (place : Location)
    {name : String} (mentioned : shared name) (parameters others : List Parameter)
    (count : parameters.length = others.length) :
    Mirrors (functionHead place name parameters) (functionHead place name others) s t
      fun _ s' t' => Paired start shared 0 [] (Pairs.ofParameters parameters others) s' t' := by
  unfold functionHead
  refine .after s t s t rfl rfl ?_
  simp only [h.first, h.second, Option.isSome_none, Bool.false_eq_true, if_false]
  cases few : parameters[maxParameters]? with
  | some extra => exact .refuse
  | none =>
      have few' : others[maxParameters]? = none := by
        rw [List.getElem?_eq_none_iff] at few ⊢
        omega
      rw [few', count]
      refine .bind ((Lower.Blind.string place mentioned).mirrors h) fun id _ _ named => ?_
      refine Lower.here_mirrors named ?_
      split
      · exact .refuseBind
      · refine .bind (Lower.emit_mirrors named .func _) fun _ _ _ defined => ?_
        refine .bind ((Lower.Blind.append place .jmp _).mirrors defined) fun _ s' t' jumped => ?_
        refine .bind ?_ fun _ _ _ entered => .pure entered
        refine .after () () { s' with scope := some { capacity := Scope.maxVariables } }
          { t' with scope := some { capacity := Scope.maxVariables } } rfl rfl ?_
        have empty : Paired start shared 0 [] []
            { s' with scope := some { capacity := Scope.maxVariables } }
            { t' with scope := some { capacity := Scope.maxVariables } } :=
          ⟨jumped.chunk, jumped.strings, rfl, rfl⟩
        refine (parameters_mirrors parameters others empty count).mono fun _ _ _ done => ?_
        simpa using done

theorem functionEnd_mirrors (h : Paired start shared base outer pairs s t)
    (place bodyPlace : Location) (skip : Nat) (returned : Bool) :
    Mirrors (functionEnd place bodyPlace skip returned)
      (functionEnd place bodyPlace skip returned) s t fun _ s' t' =>
        Twin start shared none none s' t' := by
  have rest {s t : Lowering} (h : Paired start shared base outer pairs s t) :
      Mirrors (do
          Lower.leaveFunction
          Lower.settle place skip (← Lower.here)) (do
          Lower.leaveFunction
          Lower.settle place skip (← Lower.here)) s t fun _ s' t' =>
        Twin start shared none none s' t' := by
    refine .after () () { s with scope := none } { t with scope := none } rfl rfl ?_
    have left : Twin start shared none none { s with scope := none } { t with scope := none } :=
      ⟨h.chunk, h.strings, rfl, rfl⟩
    refine Lower.here_mirrors left ?_
    exact (Lower.Blind.settle place _ _).mirrors left
  unfold functionEnd
  cases returned with
  | true => exact rest h
  | false =>
      refine .bind (Lower.emit_mirrors h .null []) fun _ _ _ done => ?_
      exact .bind (Lower.emit_mirrors done .ret []) fun _ _ _ done => rest done

/-- The code of a function does not depend on the names of its parameters and local variables. -/
theorem function_mirrors {place bodyPlace : Location} {name : String}
    {parameters others : List Parameter} {body other : List Stmt}
    (count : parameters.length = others.length)
    (alike : ListAlike (.ofParameters parameters others) body other)
    (mentioned : ∀ name' ∈ functionMentions name parameters body, shared name')
    (h : Twin start shared none none s t) (depth : Depth) :
    Mirrors (statement depth (.function place name parameters bodyPlace body))
      (statement depth (.function place name others bodyPlace other)) s t fun _ s' t' =>
        Twin start shared none none s' t' := by
  have first : (Pairs.ofParameters parameters others).map Prod.fst =
      (parameters.map Parameter.name).reverse := by
    rw [Pairs.ofParameters, List.map_reverse, List.map_fst_zip (by simp [count])]
  simp only [functionMentions, List.mem_cons] at mentioned
  simp only [statement]
  refine .bind (functionHead_mirrors h place (mentioned name (.inl rfl)) parameters others count)
    fun skip _ _ entered => ?_
  refine .bind (functionBody_mirrors body entered alike ?_ depth) ?_
  · rw [first]
    exact fun name mem => mentioned name (.inr mem)
  · rintro returned _ _ ⟨last, filled⟩
    exact functionEnd_mirrors filled place bodyPlace skip returned

end Lowering

/-- Functions that differ in nothing but the names of parameters and local variables have the same
code, and they leave the same pools and places behind. Of their names, none is in the pool but
those that are mentioned otherwise. -/
theorem Lowerer.Used.locals_nameless {lowerer lowerer' next next' : Lowerer}
    {chunk later later' : Chunk} {limit bytes bytes' : Nat} {place bodyPlace : Location}
    {name : String} {parameters others : List Parameter} {body other : List Stmt}
    (count : parameters.length = others.length)
    (alike : ListAlike (.ofParameters parameters others) body other)
    (used : lowerer.Used) (used' : lowerer'.Used)
    (added : lowerer.add limit chunk (.function place name parameters bodyPlace body) =
      (next, later, .ok bytes))
    (added' : lowerer'.add limit chunk (.function place name others bodyPlace other) =
      (next', later', .ok bytes')) :
    later' = later ∧ bytes' = bytes ∧
      ∀ string ∈ later.strings.entries.toList, string ∈ chunk.strings.entries.toList ∨
        string ∈ functionMentions name parameters body := by
  obtain ⟨s, ran, rfl, rfl⟩ := Chunk.ran_of_addStatement (used.addStatement_eq added)
  obtain ⟨t, ran', rfl, rfl⟩ := Chunk.ran_of_addStatement (used'.addStatement_eq added')
  have start : Twin chunk (· ∈ functionMentions name parameters body) none none ⟨chunk, none⟩
      ⟨chunk, none⟩ := ⟨rfl, fun _ => .inl, rfl, rfl⟩
  obtain ⟨-, twin⟩ := (Lowering.function_mirrors count alike (fun _ => id) start
    ⟨place, limit⟩).outcome _ _ _ _ ran ran'
  exact ⟨twin.chunk, by rw [twin.chunk], twin.strings⟩

/-- The body of a function that copies its parameter in a block. -/
def copyingBody (outer inner : String) : List Stmt :=
  [.block default
      [.declare default inner (.reference default outer),
        .assign default inner (.call default "g" [.reference default inner])],
    .ret default (some (.reference default outer))]

/-- The copy may hide the parameter, or it may have the name of the callee. -/
theorem Lowerer.locals_nameless_copying :
    ∃ later later',
      ({} : Lowerer).add 10 (.empty 256)
        (.function default "f" [⟨default, "a"⟩] default (copyingBody "a" "a")) =
          ({}, later, .ok 20) ∧
      ({} : Lowerer).add 10 (.empty 256)
        (.function default "f" [⟨default, "x"⟩] default (copyingBody "x" "g")) =
          ({}, later', .ok 20) ∧
      ListAlike (.ofParameters [⟨default, "a"⟩] [⟨default, "x"⟩]) (copyingBody "a" "a")
        (copyingBody "x" "g") ∧
      later' = later ∧ ∀ string ∈ later.strings.entries.toList, string ∈ ["f", "g"] := by
  have added : ({} : Lowerer).add 10 (.empty 256)
      (.function default "f" [⟨default, "a"⟩] default (copyingBody "a" "a")) = ({}, _, .ok 20) :=
    Lowerer.add_of_bytes (by decide +kernel)
  have added' : ({} : Lowerer).add 10 (.empty 256)
      (.function default "f" [⟨default, "x"⟩] default (copyingBody "x" "g")) = ({}, _, .ok 20) :=
    Lowerer.add_of_bytes (by decide +kernel)
  have parameter : Pairs.Same [("a", "x")] "a" "x" := ⟨by decide, by decide⟩
  have copy : Pairs.Same [("a", "g"), ("a", "x")] "a" "g" := ⟨by decide, by decide⟩
  have alike : ListAlike (.ofParameters [⟨default, "a"⟩] [⟨default, "x"⟩]) (copyingBody "a" "a")
      (copyingBody "x" "g") :=
    .cons (.block _ (.cons (.declare _ _ _ (.reference _ parameter))
      (.cons (.assign _ (.call _ _ (.cons (.reference _ copy) .nil)) copy) .nil)))
      (.cons (.ret _ (.reference _ parameter)) .nil)
  obtain ⟨same, -, names⟩ := Used.locals_nameless (by rfl) alike .new .new added added'
  refine ⟨_, _, added, added', alike, same, fun string mem => ?_⟩
  rcases names string mem with old | new
  · simp [Chunk.empty, Pool.empty] at old
  · have mentioned : functionMentions "f" [⟨default, "a"⟩] (copyingBody "a" "a") = ["f", "g"] := by
      simp [functionMentions, reachable, copyingBody, listMentions, Stmt.mentions, Expr.mentions,
        argumentMentions, Stmt.declared?, Stmt.isReturn]
    rwa [mentioned] at new

end StackScript
