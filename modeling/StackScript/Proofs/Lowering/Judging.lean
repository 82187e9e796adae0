/-
# Verdicts on statements

What comes of every expression and statement, in any chunk: how many bytes it takes, which names it
leaves in its block, and what it is refused for. The proof goes along the syntax tree.
-/

import StackScript.Proofs.Lowering.Verdicts

namespace StackScript

namespace Lowering

open Lower (Judged)

variable {overlong late : Prop} {size : Nat} {blocks : Option Blocks} {s : Lowering}

theorem literal_judged (h : Standing size blocks s) (place : Location) (value : Literal) :
    Judged overlong late (literal place value) s [] fun _ later =>
      Standing (size + value.bytes) blocks later := by
  cases value with
  | null => exact Lower.emit_judged h .null []
  | bool value =>
      cases value with
      | false => exact Lower.emit_judged h .false []
      | true => exact Lower.emit_judged h .true []
  | number value =>
      exact .proceed (Lower.constant_judged h value) fun _ _ named =>
        Lower.emit_judged named .const _
  | string value => exact Lower.emit_named_judged h .str value

/-- A use of a name takes two bytes, whatever the name means. -/
theorem reference_judged (h : Standing size blocks s) (place : Location) (name : String) :
    Judged overlong late (reference place name) s [] fun _ later =>
      Standing (size + 2) blocks later := by
  refine .after (s.scope.bind fun scope => scope.find? name) s rfl ?_
  cases s.scope.bind fun scope => scope.find? name with
  | none => exact Lower.emit_named_judged h .getGlobal name
  | some slot => exact Lower.emit_judged h .deepGet _

theorem operator_judged (h : Standing size blocks s) (place : Location) (op : BinaryOp) :
    Judged overlong late (op.opcodes.forM fun opcode => Lower.emit place opcode []) s []
      fun _ later => Standing (size + op.bytes) blocks later := by
  cases op
  case notEqual | lessEqual | greaterEqual =>
    exact .proceed (Lower.emit_judged h _ []) fun _ _ mid =>
      .proceed (Lower.emit_judged mid _ []) fun _ _ done => .pure done
  all_goals exact .proceed (Lower.emit_judged h _ []) fun _ _ done => .pure done

mutual

theorem expression_judged (e : Expr) {size : Nat} {blocks : Option Blocks} {s : Lowering}
    (h : Standing size blocks s) (depth : Depth) :
    Judged overlong late (expression depth e) s e.faults fun _ later =>
      Standing (size + e.bytes) blocks later := by
  cases e with
  | literal place value =>
      simp only [expression, Expr.faults, Expr.bytes]
      exact literal_judged h place value
  | reference place name =>
      simp only [expression, Expr.faults, Expr.bytes]
      exact reference_judged h place name
  | unary place op operand =>
      simp only [expression, Expr.faults, Expr.bytes]
      refine .proceed Judged.deeper ?_
      rintro inner _ rfl
      refine .finish (expression_judged operand h inner) fun _ mid standing => ?_
      cases op <;> exact Lower.emit_judged standing _ []
  | binary place op left right =>
      simp only [expression, Expr.faults, Expr.bytes]
      refine .proceed Judged.deeper ?_
      rintro inner _ rfl
      refine .bind (expression_judged left h inner) fun _ mid standing => ?_
      have rest (deep : Depth) :
          Judged overlong late (do
              expression deep right
              op.opcodes.forM fun opcode => Lower.emit place opcode []) mid right.faults
            fun _ later =>
              Standing (size + (left.bytes + right.bytes + op.bytes)) blocks later := by
        refine .finish (expression_judged right standing deep) fun _ _ standing => ?_
        refine Judged.mono (operator_judged standing place op) fun _ later done => ?_
        simpa [Nat.add_assoc] using done
      split
      · exact .after depth mid rfl (rest depth)
      · refine .proceed Judged.deeper ?_
        rintro deep _ rfl
        exact rest deep
  | call place callee arguments =>
      simp only [expression, Expr.faults, Expr.bytes]
      cases few : arguments[maxArguments]? with
      | some extra => exact .refuse (by simp [excess, few]) rfl
      | none =>
          have fine : excess maxArguments Expr.location .tooManyArguments arguments = [] := by
            simp [excess, few]
          rw [fine, List.nil_append]
          refine .finish (argumentList_judged arguments h depth) fun _ _ standing => ?_
          exact .proceed (Lower.string_judged standing callee) fun _ _ named =>
            Lower.emit_judged named .invoke _

theorem argumentList_judged (es : List Expr) {size : Nat} {blocks : Option Blocks} {s : Lowering}
    (h : Standing size blocks s) (depth : Depth) :
    Judged overlong late (argumentList depth es) s (argumentFaults es) fun _ later =>
      Standing (size + argumentBytes es) blocks later := by
  cases es with
  | nil =>
      simp only [argumentList, argumentFaults, argumentBytes]
      exact .pure h
  | cons first rest =>
      simp only [argumentList, argumentFaults, argumentBytes]
      refine .proceed Judged.deeper ?_
      rintro inner _ rfl
      refine .bind (expression_judged first h inner) fun _ _ standing => ?_
      refine Judged.mono (argumentList_judged rest standing depth) fun _ _ done => ?_
      rwa [Nat.add_assoc] at done

end

/-- What holds after a statement that is accepted. -/
structure Accepted (size : Nat) (blocks : Option Blocks) (st : Stmt) (later : Lowering) :
    Prop where
  standing : Standing (size + st.bytes blocks.isSome) (blocks.map (Blocks.after · st)) later
  near : ¬ st.Overlong blocks.isSome
  early : blocks = none → ¬ st.Late size

/-- Most statements leave nothing in their block. -/
theorem Accepted.plain {st : Stmt} {later : Lowering} {total : Nat}
    (standing : Standing total blocks later) (same : ∀ around, Blocks.after around st = around)
    (count : size + st.bytes blocks.isSome = total) (near : ¬ st.Overlong blocks.isSome)
    (early : blocks = none → ¬ st.Late size) : Accepted size blocks st later := by
  refine ⟨?_, near, early⟩
  have kept : blocks.map (Blocks.after · st) = blocks := by
    cases blocks with
    | none => rfl
    | some around => exact congrArg some (same around)
  rwa [kept, count]

/-- Is the verdict on a statement the right one, wherever it stands? -/
def Judges (overlong late : Prop) (st : Stmt) : Prop :=
  ∀ {size : Nat} {blocks : Option Blocks} {s : Lowering}, Standing size blocks s →
    (st.Overlong blocks.isSome → overlong) → (blocks = none → st.Late size → late) →
      ∀ depth : Depth, Judged overlong late (statement depth st) s (st.faults blocks)
        fun _ later => Accepted size blocks st later

/-- The slots of a statement are those of the names that it declares. -/
theorem slots_eq (st : Stmt) (inside : Bool) :
    st.slots inside = if inside then (st.declared?.toList ++ []).length else 0 := by
  cases st <;> cases inside <;> rfl

theorem listSlots_eq (body : List Stmt) (inside : Bool) :
    listSlots inside body =
      if inside then ((declaredNames body).reverse ++ []).length else 0 := by
  induction body with
  | nil => cases inside <;> rfl
  | cons first rest ih =>
      have here := slots_eq first inside
      cases inside <;> cases declared : first.declared? <;>
        simp_all [listSlots, declaredNames, Nat.add_comm]

/-- A branch is a block of its own, one level further down. -/
theorem branch_judged {st : Stmt} (judges : Judges overlong late st) (place : Location)
    (depth : Depth) (h : Standing size blocks s) (far : st.Overlong blocks.isSome → overlong)
    (start : blocks = none → st.Late size → late) :
    Judged overlong late (Lower.block place do statement (← depth.deeper) st) s
      (st.faults (blocks.map ([] :: ·))) fun _ later =>
        Standing (size + st.branchBytes blocks.isSome) blocks later ∧
          ¬ st.Overlong blocks.isSome ∧ (blocks = none → ¬ st.Late size) := by
  rw [Stmt.branchBytes, ← Nat.add_assoc]
  refine Lower.block_judged (st.declared?.toList ++ []) h (slots_eq st _) ?_
  intro entered standing
  refine .proceed Judged.deeper ?_
  rintro inner _ rfl
  have inside : (blocks.map fun around => [] :: around).isSome = blocks.isSome :=
    Option.isSome_map
  refine Judged.mono (judges standing (by rwa [inside]) (fun none => start (by simpa using none))
    inner) ?_
  rintro _ later ⟨standing, near, early⟩
  rw [inside] at standing near
  refine ⟨?_, near, fun none => early (by simp [none])⟩
  cases blocks with
  | none => exact standing
  | some around =>
      rw [Option.map_some, Option.map_some, Blocks.after_cons] at standing
      exact standing

/-- The verdict on a block rests on that on its statements. -/
theorem block_judged {body : List Stmt} {content : Lower Unit} (place : Location)
    (h : Standing size blocks s) (far : listOverlong blocks.isSome body → overlong)
    (start : blocks = none → listLate size body → late)
    (judged : ∀ {around : Option Blocks} {s : Lowering}, Standing size around s →
      (listOverlong around.isSome body → overlong) → (around = none → listLate size body → late) →
        Judged overlong late content s (listFaults around body) fun _ later =>
          Standing (size + listBytes around.isSome body)
              (around.map fun around => body.foldl Blocks.after around) later ∧
            ¬ listOverlong around.isSome body ∧ (around = none → ¬ listLate size body)) :
    Judged overlong late (Lower.block place content) s
      (listFaults (blocks.map ([] :: ·)) body) fun _ later =>
        Standing (size + listBytes blocks.isSome body + listSlots blocks.isSome body) blocks
            later ∧
          ¬ listOverlong blocks.isSome body ∧ (blocks = none → ¬ listLate size body) := by
  refine Lower.block_judged ((declaredNames body).reverse ++ []) h (listSlots_eq body _) ?_
  intro entered standing
  have inside : (blocks.map fun around => [] :: around).isSome = blocks.isSome :=
    Option.isSome_map
  refine Judged.mono (judged standing (by rwa [inside])
    (fun outside => start (by simpa using outside))) ?_
  rintro _ later ⟨standing, near, early⟩
  rw [inside] at standing near
  refine ⟨?_, near, fun outside => early (by simp [outside])⟩
  cases blocks with
  | none => exact standing
  | some around =>
      rw [Option.map_some, Option.map_some, Blocks.afterAll_cons] at standing
      exact standing

theorem ifThen_judges {yes : Stmt} (place : Location) (condition : Expr)
    (yesJudges : Judges overlong late yes) :
    Judges overlong late (.ifThen place condition yes) := by
  intro size blocks s h far start depth
  simp only [statement, Stmt.faults]
  refine .bind (expression_judged condition h depth) fun _ _ tested => ?_
  refine .proceed (Lower.jump_judged tested .jz) ?_
  rintro _ _ ⟨rfl, jumped⟩
  refine .finish (branch_judged yesJudges place depth jumped (fun wide => far (.inr wide)) start) ?_
  rintro _ _ ⟨branched, near, early⟩
  refine .here ?_
  rw [branched.size_eq]
  refine Judged.mono (Lower.settle_forward branched (yes.branchBytes blocks.isSome) rfl
    (fun wide => far (.inl wide))) ?_
  rintro _ later ⟨standing, short⟩
  refine .plain standing (fun _ => rfl) ?_ (not_or.mpr ⟨short, near⟩) early
  simp only [Stmt.bytes, Stmt.branchBytes, show Opcode.jz.size = 3 from rfl]
  omega

theorem ifElse_judges {yes no : Stmt} (place : Location) (condition : Expr)
    (yesJudges : Judges overlong late yes) (noJudges : Judges overlong late no) :
    Judges overlong late (.ifElse place condition yes no) := by
  intro size blocks s h far start depth
  simp only [statement, Stmt.faults]
  refine .bind (expression_judged condition h depth) fun _ _ tested => ?_
  refine .proceed (Lower.jump_judged tested .jz) ?_
  rintro _ _ ⟨rfl, jumped⟩
  refine .bind (branch_judged yesJudges place depth jumped
    (fun wide => far (.inr (.inr (.inl wide)))) (fun none wide => start none (.inl wide))) ?_
  rintro _ _ ⟨branched, near, early⟩
  refine .proceed (Lower.jump_judged branched .jmp) ?_
  rintro _ _ ⟨rfl, left⟩
  refine .here ?_
  rw [left.size_eq]
  refine .proceed (Lower.settle_forward left (yes.branchBytes blocks.isSome + 3) rfl
    (fun wide => far (.inl wide))) ?_
  rintro _ _ ⟨settled, short⟩
  refine .finish (branch_judged noJudges place depth settled
    (fun wide => far (.inr (.inr (.inr wide)))) ?_) ?_
  · rintro rfl wide
    exact start rfl (.inr wide)
  rintro _ _ ⟨ended, near', early'⟩
  refine .here ?_
  rw [ended.size_eq]
  refine Judged.mono (Lower.settle_forward ended (no.branchBytes blocks.isSome) rfl
    (fun wide => far (.inr (.inl wide)))) ?_
  rintro _ later ⟨standing, short'⟩
  refine .plain standing (fun _ => rfl) ?_ ?_ ?_
  · simp only [Stmt.bytes, Stmt.branchBytes, show Opcode.jz.size = 3 from rfl,
      show Opcode.jmp.size = 3 from rfl]
    omega
  · rintro (wide | wide | wide | wide)
    · exact short wide
    · exact short' wide
    · exact near wide
    · exact near' wide
  · rintro rfl (wide | wide)
    · exact early rfl wide
    · exact early' rfl wide

theorem loop_judges {body : Stmt} (place : Location) (condition : Expr)
    (bodyJudges : Judges overlong late body) :
    Judges overlong late (.loop place condition body) := by
  intro size blocks s h far start depth
  simp only [statement, Stmt.faults]
  refine .here ?_
  rw [h.size_eq]
  refine .bind (expression_judged condition h depth) fun _ _ tested => ?_
  refine .proceed (Lower.jump_judged tested .jz) ?_
  rintro _ _ ⟨rfl, jumped⟩
  refine .finish (branch_judged bodyJudges place depth jumped (fun wide => far (.inr wide))
    start) ?_
  rintro _ _ ⟨branched, near, early⟩
  refine .proceed (Lower.jump_judged branched .jmp) ?_
  rintro _ _ ⟨rfl, turned⟩
  refine .proceed (Lower.settle_back turned
    (condition.bytes + body.branchBytes blocks.isSome + 6) ?_ (Nat.le_refl _)
    (fun wide => far (.inl wide))) ?_
  · rw [show Opcode.jz.size = 3 from rfl]
    omega
  rintro _ _ ⟨settled, short⟩
  refine .here ?_
  rw [settled.size_eq]
  -- The jump back is longer than the jump forward, by the test and its jump.
  refine Judged.mono (Lower.settle_forward settled (body.branchBytes blocks.isSome + 3) rfl ?_) ?_
  · intro wide
    exact far (.inl (by omega))
  rintro _ later ⟨standing, -⟩
  refine .plain standing (fun _ => rfl) ?_ (not_or.mpr ⟨short, near⟩) early
  simp only [Stmt.bytes, Stmt.branchBytes, show Opcode.jz.size = 3 from rfl,
    show Opcode.jmp.size = 3 from rfl]
  omega

/-- Functions are refused inside of others. -/
theorem functionHead_nested {around : Blocks} (h : Standing size (some around) s)
    (place : Location) (name : String) (parameters : List Parameter) :
    Judged overlong late (functionHead place name parameters) s
      [⟨some place, .nestedFunction name⟩] fun _ _ => False := by
  have inside : s.scope.isSome := by
    obtain ⟨chunk, scope⟩ := s
    cases h.visible
    rfl
  unfold functionHead
  refine .after s s rfl ?_
  rw [if_pos inside]
  exact .refuseBind rfl rfl

/-- Elsewhere the head of a function is refused for its parameters, or for where it starts. -/
theorem functionHead_judged (h : Standing size none s) (place : Location) (name : String)
    (parameters : List Parameter) (start : maxFunctionStart < size + 7 → late) :
    Judged overlong late (functionHead place name parameters) s
      (excess maxParameters Parameter.location .tooManyParameters parameters ++
        Blocks.parameterFaults [[]] parameters) fun skip later =>
          skip = size + 4 ∧ Standing (size + 7) (some (.ofBody parameters)) later ∧
            ¬ maxFunctionStart < size + 7 := by
  have outside : s.scope = none := by
    obtain ⟨chunk, scope⟩ := s
    cases h.visible
    rfl
  unfold functionHead
  refine .after s s rfl ?_
  simp only [outside, Option.isSome_none, Bool.false_eq_true, if_false]
  cases few : parameters[maxParameters]? with
  | some extra => exact .refuse (by simp [excess, few]) rfl
  | none =>
      have fine : excess maxParameters Parameter.location .tooManyParameters parameters = [] := by
        simp [excess, few]
      rw [fine, List.nil_append]
      refine .proceed (Lower.string_judged h name) fun id _ named => ?_
      refine .here ?_
      rw [named.size_eq]
      show Judged overlong late (if maxFunctionStart < size + 7 then _ else _) _ _ _
      split
      · rename_i wide
        exact .stopBind (.start _ _ (start wide))
      · rename_i near
        refine .proceed (Lower.emit_judged named .func _) fun _ _ defined => ?_
        refine .proceed (Lower.jump_judged defined .jmp) ?_
        rintro skip _ ⟨rfl, jumped⟩
        refine .finish (Lower.enterFunction_judged parameters jumped) fun _ _ entered => ?_
        exact .pure ⟨rfl, entered, near⟩

/-- The end of a function is refused for the jump around its body. -/
theorem functionEnd_judged {filled length : Nat} {around : Blocks} {returned : Bool}
    (h : Standing filled (some around) s) (place bodyPlace : Location)
    (whole : filled + (if returned then 0 else 2) = size + 7 + length)
    (far : maxDistance < length → overlong) :
    Judged overlong late (functionEnd place bodyPlace (size + 4) returned) s [] fun _ later =>
      Standing (size + 7 + length) none later ∧ ¬ maxDistance < length := by
  have rest {mid : Lowering} (done : mid.chunk.size = size + 7 + length) :
      Judged overlong late (do
          Lower.leaveFunction
          Lower.settle place (size + 4) (← Lower.here)) mid [] fun _ later =>
        Standing (size + 7 + length) none later ∧ ¬ maxDistance < length := by
    refine .after () { mid with scope := none } rfl ?_
    have left : Standing (size + 7 + length) none { mid with scope := none } := ⟨done, .outside⟩
    refine .here ?_
    rw [left.size_eq]
    exact Lower.settle_forward left length rfl far
  unfold functionEnd
  cases returned with
  | true => exact rest (h.size_eq.trans whole)
  | false =>
      refine .proceed (Lower.emit_judged h .null []) fun _ _ standing => ?_
      refine .proceed (Lower.emit_judged standing .ret []) fun _ _ standing => ?_
      exact rest (standing.size_eq.trans whole)

/-- The verdict on a function rests on that on its body. -/
theorem function_judges {body : List Stmt} (place : Location) (name : String)
    (parameters : List Parameter) (bodyPlace : Location)
    (bodyJudged : ∀ {size : Nat} {around : Blocks} {s : Lowering},
      Standing size (some around) s → (bodyOverlong body → overlong) → ∀ depth : Depth,
        Judged overlong late (functionBody depth body) s (bodyFaults around body)
          fun returned later => ∃ last filled, Standing filled (some last) later ∧
            filled + (if returned then 0 else 2) = size + bodyBytes body ∧ ¬ bodyOverlong body) :
    Judges overlong late (.function place name parameters bodyPlace body) := by
  intro size blocks s h far start depth
  simp only [statement, Stmt.faults]
  cases blocks with
  | some around =>
      rw [Option.isSome_some, if_pos rfl]
      exact .finish (functionHead_nested h place name parameters) fun _ _ absurd => absurd.elim
  | none =>
      rw [Option.isSome_none, if_neg Bool.false_ne_true, ← List.append_assoc]
      refine .bind (functionHead_judged h place name parameters (start rfl)) ?_
      rintro _ _ ⟨rfl, entered, near⟩
      refine .finish (bodyJudged entered (fun wide => far (.inr wide)) depth) ?_
      rintro returned _ ⟨last, filled, standing, whole, near'⟩
      refine Judged.mono (functionEnd_judged standing place bodyPlace whole
        (fun wide => far (.inl wide))) ?_
      rintro _ later ⟨done, short⟩
      refine .plain done (fun _ => rfl) ?_ (not_or.mpr ⟨short, near'⟩) fun _ => near
      simp only [Stmt.bytes]
      omega

mutual

/-- The verdict on any statement is the right one. -/
theorem statement_judges (st : Stmt) : Judges overlong late st := by
  cases st with
  | expression place value =>
      intro size blocks s h far start depth
      simp only [statement, Stmt.faults]
      refine .finish (expression_judged value h depth) fun _ _ standing => ?_
      refine Judged.mono (Lower.emit_judged standing .pop []) fun _ later done => ?_
      exact .plain done (fun _ => rfl) (Nat.add_assoc _ _ _).symm nofun fun _ => nofun
  | print place value =>
      intro size blocks s h far start depth
      simp only [statement, Stmt.faults]
      refine .finish (expression_judged value h depth) fun _ _ standing => ?_
      refine Judged.mono (Lower.emit_judged standing .print []) fun _ later done => ?_
      exact .plain done (fun _ => rfl) (Nat.add_assoc _ _ _).symm nofun fun _ => nofun
  | declare place name value =>
      intro size blocks s h far start depth
      simp only [statement, Stmt.faults]
      refine .bind (expression_judged value h depth) fun _ _ standing => ?_
      refine Judged.mono (Lower.declare_judged standing name) fun _ later done => ?_
      rw [Nat.add_assoc] at done
      exact ⟨done, nofun, fun _ => nofun⟩
  | assign place name value =>
      intro size blocks s h far start depth
      simp only [statement, Stmt.faults]
      refine .finish (expression_judged value h depth) fun _ mid standing => ?_
      have stored : Judged overlong late
          (match mid.scope.bind fun scope => scope.find? name with
            | some slot => Lower.emit place .deepSet [(slot : Int)]
            | none => do Lower.emit place .setGlobal [(← Lower.string place name : Nat)]) mid []
          fun _ later => Standing (size + value.bytes + 2) blocks later := by
        cases mid.scope.bind fun scope => scope.find? name with
        | none => exact Lower.emit_named_judged standing .setGlobal name
        | some slot => exact Lower.emit_judged standing .deepSet _
      refine .after (mid.scope.bind fun scope => scope.find? name) mid rfl ?_
      refine Judged.mono stored fun _ later done => ?_
      exact .plain done (fun _ => rfl) (Nat.add_assoc _ _ _).symm nofun fun _ => nofun
  | block place body =>
      intro size blocks s h far start depth
      simp only [statement, Stmt.faults]
      refine Judged.mono (block_judged place h far start fun standing far start =>
        statementList_judged body standing far start depth) ?_
      rintro _ later ⟨done, near, early⟩
      refine .plain done (fun _ => rfl) ?_ near early
      simp only [Stmt.bytes]
      omega
  | ifThen place condition yes => exact ifThen_judges place condition (statement_judges yes)
  | ifElse place condition yes no =>
      exact ifElse_judges place condition (statement_judges yes) (statement_judges no)
  | loop place condition body => exact loop_judges place condition (statement_judges body)
  | function place name parameters bodyPlace body =>
      exact function_judges place name parameters bodyPlace (functionBody_judged body)
  | ret place value =>
      intro size blocks s h far start depth
      simp only [statement, Stmt.faults]
      refine .after s s rfl ?_
      obtain ⟨size_eq, visible⟩ := h
      cases found : s.scope with
      | none =>
          rw [found] at visible
          cases visible
          exact .refuseBind rfl rfl
      | some scope =>
          rw [found] at visible
          cases visible with
          | @inside _ around shows capacity =>
              have h : Standing size (some around) s := ⟨size_eq, found ▸ .inside shows capacity⟩
              cases value with
              | none =>
                  refine .proceed (Lower.emit_judged h .null []) fun _ _ standing => ?_
                  refine Judged.mono (Lower.emit_judged standing .ret []) fun _ later done => ?_
                  exact .plain done (fun _ => rfl) rfl nofun fun _ => nofun
              | some value =>
                  refine .finish (expression_judged value h depth) fun _ _ standing => ?_
                  refine Judged.mono (Lower.emit_judged standing .ret []) fun _ later done => ?_
                  exact .plain done (fun _ => rfl) (Nat.add_assoc _ _ _).symm nofun fun _ => nofun

/-- The verdict on statements in a row. -/
theorem statementList_judged (body : List Stmt) {size : Nat} {blocks : Option Blocks}
    {s : Lowering} (h : Standing size blocks s) (far : listOverlong blocks.isSome body → overlong)
    (start : blocks = none → listLate size body → late) (depth : Depth) :
    Judged overlong late (statementList depth body) s (listFaults blocks body) fun _ later =>
      Standing (size + listBytes blocks.isSome body)
          (blocks.map fun around => body.foldl Blocks.after around) later ∧
        ¬ listOverlong blocks.isSome body ∧ (blocks = none → ¬ listLate size body) := by
  cases body with
  | nil =>
      simp only [statementList, listFaults]
      refine .pure ⟨?_, nofun, fun _ => nofun⟩
      cases blocks <;> exact h
  | cons first rest =>
      simp only [statementList, listFaults]
      refine .proceed Judged.deeper ?_
      rintro inner _ rfl
      refine .bind (statement_judges first h (fun wide => far (.inl wide))
        (fun none wide => start none (.inl wide)) inner) ?_
      rintro _ _ ⟨standing, near, early⟩
      have inside : (blocks.map (Blocks.after · first)).isSome = blocks.isSome :=
        Option.isSome_map
      refine Judged.mono (statementList_judged rest standing ?_ ?_ depth) ?_
      · rw [inside]
        exact fun wide => far (.inr wide)
      · intro outside wide
        obtain rfl : blocks = none := by simpa using outside
        exact start rfl (.inr wide)
      rintro _ later ⟨done, near', early'⟩
      rw [inside] at done near'
      rw [Nat.add_assoc, Option.map_map] at done
      refine ⟨done, not_or.mpr ⟨near, near'⟩, ?_⟩
      rintro rfl (wide | wide)
      · exact early rfl wide
      · exact early' rfl wide

/-- The verdict on the body of a function. -/
theorem functionBody_judged (body : List Stmt) {size : Nat} {around : Blocks} {s : Lowering}
    (h : Standing size (some around) s) (far : bodyOverlong body → overlong) (depth : Depth) :
    Judged overlong late (functionBody depth body) s (bodyFaults around body)
      fun returned later => ∃ last filled, Standing filled (some last) later ∧
        filled + (if returned then 0 else 2) = size + bodyBytes body ∧ ¬ bodyOverlong body := by
  cases body with
  | nil =>
      simp only [functionBody, bodyFaults, bodyBytes]
      exact .pure ⟨around, size, h, rfl, nofun⟩
  | cons first rest =>
      simp only [functionBody, bodyFaults, bodyBytes, bodyOverlong]
      refine .proceed Judged.deeper ?_
      rintro inner _ rfl
      refine .bind (statement_judges first h (fun wide => far (.inl wide)) nofun inner) ?_
      rintro _ _ ⟨standing, near, -⟩
      cases returns : first.isReturn with
      | true =>
          refine .pure ⟨_, _, standing, rfl, ?_⟩
          rintro (wide | ⟨other, -⟩)
          · exact near wide
          · cases other
      | false =>
          refine Judged.mono (functionBody_judged rest standing
            (fun wide => far (.inr ⟨returns, wide⟩)) depth) ?_
          rintro returned later ⟨last, filled, done, whole, near'⟩
          refine ⟨last, filled, done, ?_, ?_⟩
          · rw [whole]
            exact Nat.add_assoc _ _ _
          · rintro (wide | ⟨-, wide⟩)
            · exact near wide
            · exact near' wide

end

end Lowering

end StackScript
