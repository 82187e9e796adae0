/-
# The rules of scopes

What a program may do with names, once as a checker that lists everything that is wrong in the
order of the text, and once as rules about a function as a whole. Neither knows of slots or code.
The parameters of a function and the top level of its body are one scope, and every block, every
branch and every body of a loop opens another. The checker finds nothing in a function that obeys
the rules, and something in any other.
-/

import StackScript.Lowering.Statement
import StackScript.Proofs.Chunk.Blocks

namespace StackScript

open Lowering (maxArguments maxParameters)
open Scope (maxVariables)

/-- There are more items than the limit allows, at the first that is too many. -/
def excess {α : Type} (limit : Nat) (place : α → Location) (cause : Diagnostic.Cause)
    (items : List α) : List Diagnostic :=
  (items[limit]?.map fun extra => ⟨some (place extra), cause⟩).toList

namespace Blocks

/-- What is wrong with the declaration of a name: the innermost block has it already, or there is
no room for another variable. -/
def declarationFaults (place : Location) (name : String) : Blocks → List Diagnostic
  | [] => []
  | inner :: outer =>
    if name ∈ inner then [⟨some place, .localVariableExists name⟩]
    else if maxVariables ≤ size (inner :: outer) then [⟨some place, .tooManyLocalVariables⟩]
    else []

/-- What is wrong with the declaration of parameters, one after the other. -/
def parameterFaults (blocks : Blocks) : List Parameter → List Diagnostic
  | [] => []
  | first :: rest =>
    blocks.declarationFaults first.location first.name ++
      (blocks.declare first.name).parameterFaults rest

/-- The blocks after a statement in the innermost one. -/
def after (blocks : Blocks) : Stmt → Blocks
  | .declare _ name _ => blocks.declare name
  | _ => blocks

/-- The blocks at the beginning of the body of a function. -/
def ofBody (parameters : List Parameter) : Blocks := [(parameters.map Parameter.name).reverse]

end Blocks

section Checker

mutual

/-- What is wrong with an expression, in the order of the text. -/
def Expr.faults : Expr → List Diagnostic
  | .literal _ _ => []
  | .reference _ _ => []
  | .unary _ _ operand => operand.faults
  | .binary _ _ left right => left.faults ++ right.faults
  | .call _ _ arguments =>
    excess maxArguments Expr.location .tooManyArguments arguments ++ argumentFaults arguments

/-- What is wrong with arguments. -/
def argumentFaults : List Expr → List Diagnostic
  | [] => []
  | first :: rest => first.faults ++ argumentFaults rest

end

mutual

/-- What is wrong with a statement among the given blocks, in the order of the text. Outside of
functions there are no blocks. -/
def Stmt.faults (blocks : Option Blocks) : Stmt → List Diagnostic
  | .expression _ value => value.faults
  | .print _ value => value.faults
  | .declare place name value =>
    value.faults ++ blocks.elim [] (Blocks.declarationFaults place name)
  | .assign _ _ value => value.faults
  | .block _ body => listFaults (blocks.map ([] :: ·)) body
  | .ifThen _ condition yes => condition.faults ++ yes.faults (blocks.map ([] :: ·))
  | .ifElse _ condition yes no =>
    condition.faults ++ (yes.faults (blocks.map ([] :: ·)) ++ no.faults (blocks.map ([] :: ·)))
  | .loop _ condition body => condition.faults ++ body.faults (blocks.map ([] :: ·))
  | .function place name parameters _ body =>
    if blocks.isSome then [⟨some place, .nestedFunction name⟩]
    else
      excess maxParameters Parameter.location .tooManyParameters parameters ++
        (Blocks.parameterFaults [[]] parameters ++ bodyFaults (.ofBody parameters) body)
  | .ret place value =>
    if blocks.isNone then [⟨some place, .returnOutsideFunction⟩]
    else
      match value with
      | none => []
      | some value => value.faults

/-- What is wrong with statements in a row. -/
def listFaults (blocks : Option Blocks) : List Stmt → List Diagnostic
  | [] => []
  | first :: rest => first.faults blocks ++ listFaults (blocks.map (Blocks.after · first)) rest

/-- What is wrong with the body of a function, up to the first statement that returns. -/
def bodyFaults (blocks : Blocks) : List Stmt → List Diagnostic
  | [] => []
  | first :: rest =>
    first.faults (some blocks) ++
      if first.isReturn then [] else bodyFaults (blocks.after first) rest

end

/-- What is wrong with a function outside of others. -/
def functionFaults (parameters : List Parameter) (body : List Stmt) : List Diagnostic :=
  excess maxParameters Parameter.location .tooManyParameters parameters ++
    (Blocks.parameterFaults [[]] parameters ++ bodyFaults (.ofBody parameters) body)

end Checker

section Rules

/-- The name that a statement declares in the block around it. -/
def Stmt.declared? : Stmt → Option String
  | .declare _ name _ => some name
  | _ => none

/-- The names that statements in a row declare in the block around them. -/
def declaredNames (body : List Stmt) : List String := body.filterMap Stmt.declared?

/-- The statements of a function that can be reached: those up to the first that returns. -/
def reachable : List Stmt → List Stmt
  | [] => []
  | first :: rest => first :: if first.isReturn then [] else reachable rest

mutual

/-- No call in an expression has too many arguments. -/
def Expr.Tidy : Expr → Prop
  | .literal _ _ => True
  | .reference _ _ => True
  | .unary _ _ operand => operand.Tidy
  | .binary _ _ left right => left.Tidy ∧ right.Tidy
  | .call _ _ arguments => arguments.length ≤ maxArguments ∧ argumentsTidy arguments

/-- No call in arguments has too many. -/
def argumentsTidy : List Expr → Prop
  | [] => True
  | first :: rest => first.Tidy ∧ argumentsTidy rest

end

mutual

/-- There is no function in a statement, every block in it declares its names once, and no call has
too many arguments. A branch that is no block has at most one name to declare. -/
def Stmt.Tidy : Stmt → Prop
  | .expression _ value => value.Tidy
  | .print _ value => value.Tidy
  | .declare _ _ value => value.Tidy
  | .assign _ _ value => value.Tidy
  | .block _ body => (declaredNames body).Nodup ∧ listTidy body
  | .ifThen _ condition yes => condition.Tidy ∧ yes.Tidy
  | .ifElse _ condition yes no => condition.Tidy ∧ yes.Tidy ∧ no.Tidy
  | .loop _ condition body => condition.Tidy ∧ body.Tidy
  | .function _ _ _ _ _ => False
  | .ret _ none => True
  | .ret _ (some value) => value.Tidy

/-- So it is in statements in a row. -/
def listTidy : List Stmt → Prop
  | [] => True
  | first :: rest => first.Tidy ∧ listTidy rest

end

mutual

/-- The most variables of a statement that are in scope at once. -/
def Stmt.peak : Stmt → Nat
  | .declare _ _ _ => 1
  | .block _ body => listPeak body
  | .ifThen _ _ yes => yes.peak
  | .ifElse _ _ yes no => max yes.peak no.peak
  | .loop _ _ body => body.peak
  | _ => 0

/-- The most variables of statements in a row that are in scope at once. What a statement declares
remains in scope after it. -/
def listPeak : List Stmt → Nat
  | [] => 0
  | first :: rest => max first.peak (first.declared?.toList.length + listPeak rest)

end

/-- The rules for a function: what it may have, as far as it can be reached. -/
structure WellScoped (parameters : List Parameter) (body : List Stmt) : Prop where
  few : parameters.length ≤ maxParameters
  /-- The parameters and the top level of the body are one scope. -/
  distinct : (parameters.map Parameter.name ++ declaredNames (reachable body)).Nodup
  tidy : listTidy (reachable body)
  room : parameters.length + listPeak (reachable body) ≤ maxVariables

end Rules

theorem excess_eq_nil {α : Type} {limit : Nat} {place : α → Location} {cause : Diagnostic.Cause}
    {items : List α} : excess limit place cause items = [] ↔ items.length ≤ limit := by
  simp [excess]

mutual

theorem Expr.faults_eq_nil (e : Expr) : e.faults = [] ↔ e.Tidy := by
  cases e with
  | literal place value => simp [Expr.faults, Expr.Tidy]
  | reference place name => simp [Expr.faults, Expr.Tidy]
  | unary place op operand => simpa [Expr.faults, Expr.Tidy] using operand.faults_eq_nil
  | binary place op left right =>
      simp [Expr.faults, Expr.Tidy, left.faults_eq_nil, right.faults_eq_nil]
  | call place callee arguments =>
      simp [Expr.faults, Expr.Tidy, excess_eq_nil, argumentFaults_eq_nil arguments]

theorem argumentFaults_eq_nil (es : List Expr) : argumentFaults es = [] ↔ argumentsTidy es := by
  cases es with
  | nil => simp [argumentFaults, argumentsTidy]
  | cons first rest =>
      simp [argumentFaults, argumentsTidy, first.faults_eq_nil, argumentFaults_eq_nil rest]

end

namespace Blocks

variable {inner : List String} {outer : Blocks}

@[simp] theorem size_nil : size [] = 0 := rfl

@[simp] theorem size_cons : size (inner :: outer) = inner.length + size outer := by simp [size]

theorem declarationFaults_eq_nil {place : Location} {name : String} :
    declarationFaults place name (inner :: outer) = [] ↔
      name ∉ inner ∧ size (inner :: outer) + 1 ≤ maxVariables := by
  rw [declarationFaults]
  split
  · simp [*]
  · split
    · simp only [List.cons_ne_self, false_iff]
      omega
    · simp only [true_iff]
      exact ⟨‹_›, by omega⟩

/-- Parameters can be declared if their names are new and distinct, and if there is room. -/
theorem parameterFaults_eq_nil {parameters : List Parameter}
    (room : size (inner :: outer) ≤ maxVariables) :
    parameterFaults (inner :: outer) parameters = [] ↔
      (parameters.map Parameter.name).Nodup ∧ (∀ p ∈ parameters, p.name ∉ inner) ∧
        size (inner :: outer) + parameters.length ≤ maxVariables := by
  induction parameters generalizing inner with
  | nil => simpa [parameterFaults] using room
  | cons first rest ih =>
      rw [parameterFaults, List.append_eq_nil_iff, declarationFaults_eq_nil]
      constructor
      · rintro ⟨⟨new, fits⟩, others⟩
        have others := (ih (by simp at fits ⊢; omega)).mp others
        obtain ⟨distinct, fresh, room⟩ := others
        refine ⟨?_, ?_, ?_⟩
        · simp only [List.map_cons, List.nodup_cons, List.mem_map, not_exists, not_and]
          refine ⟨fun p mem same => fresh p mem ?_, distinct⟩
          rw [same]
          exact List.mem_cons_self
        · intro p mem
          rcases List.mem_cons.mp mem with rfl | mem
          · exact new
          · exact fun old => fresh p mem (List.mem_cons_of_mem _ old)
        · simp at room ⊢
          omega
      · rintro ⟨distinct, fresh, room⟩
        simp only [List.map_cons, List.nodup_cons, List.mem_map, not_exists, not_and] at distinct
        have fits : size (inner :: outer) + 1 ≤ maxVariables := by simp at room ⊢; omega
        refine ⟨⟨fresh first List.mem_cons_self, fits⟩, (ih (by simp at fits ⊢; omega)).mpr ?_⟩
        refine ⟨distinct.2, fun p mem => ?_, by simp at room ⊢; omega⟩
        rw [List.mem_cons, not_or]
        exact ⟨distinct.1 p mem, fresh p (List.mem_cons_of_mem _ mem)⟩

end Blocks

section Agreement

variable {inner : List String} {outer : Blocks}

/-- What a statement leaves in its block. -/
theorem Blocks.after_cons (st : Stmt) :
    after (inner :: outer) st = (st.declared?.toList ++ inner) :: outer := by
  cases st <;> rfl

/-- What statements in a row leave in their block. -/
theorem Blocks.afterAll_cons (body : List Stmt) :
    body.foldl after (inner :: outer) = ((declaredNames body).reverse ++ inner) :: outer := by
  induction body generalizing inner with
  | nil => rfl
  | cons first rest ih =>
      rw [List.foldl_cons, after_cons, ih]
      cases declared : first.declared? <;> simp [declaredNames, declared]

theorem Stmt.one_le_peak {st : Stmt} {name : String} (h : st.declared? = some name) :
    1 ≤ st.peak := by
  cases st <;> simp_all [Stmt.declared?, Stmt.peak]

/-- May a statement stand among the given blocks? -/
def Stmt.Fits (inner : List String) (outer : Blocks) (st : Stmt) : Prop :=
  st.Tidy ∧ (∀ name ∈ st.declared?, name ∉ inner) ∧
    Blocks.size (inner :: outer) + st.peak ≤ maxVariables

/-- May statements in a row stand among the given blocks? -/
def listFits (inner : List String) (outer : Blocks) (body : List Stmt) : Prop :=
  listTidy body ∧ (declaredNames body).Nodup ∧ (∀ name ∈ declaredNames body, name ∉ inner) ∧
    Blocks.size (inner :: outer) + listPeak body ≤ maxVariables

theorem listFits_nil (room : Blocks.size (inner :: outer) ≤ maxVariables) :
    listFits inner outer [] := ⟨trivial, by simp [declaredNames], by simp [declaredNames], room⟩

/-- What follows a statement must fit behind it. -/
theorem listFits_cons {first : Stmt} {rest : List Stmt} :
    listFits inner outer (first :: rest) ↔
      first.Fits inner outer ∧
        listFits (first.declared?.toList ++ inner) outer rest := by
  cases declared : first.declared? with
  | none =>
      simp only [listFits, Stmt.Fits, listTidy, listPeak, declaredNames, declared,
        List.filterMap_cons, Option.toList_none, List.length_nil, List.nil_append]
      constructor
      · rintro ⟨⟨tidy, others⟩, nodup, new, room⟩
        exact ⟨⟨tidy, by simp, by omega⟩, others, nodup, new, by omega⟩
      · rintro ⟨⟨tidy, -, here⟩, others, nodup, new, room⟩
        exact ⟨⟨tidy, others⟩, nodup, new, by omega⟩
  | some name =>
      simp only [listFits, Stmt.Fits, listTidy, listPeak, declaredNames, declared,
        List.filterMap_cons, Option.toList_some, List.singleton_append, List.nodup_cons,
        List.mem_cons, Option.mem_some_iff, forall_eq', Blocks.size_cons, List.length_cons,
        List.length_nil, forall_eq_or_imp]
      constructor
      · rintro ⟨⟨tidy, others⟩, ⟨once, nodup⟩, ⟨new, fresh⟩, room⟩
        refine ⟨⟨tidy, new, by omega⟩, others, nodup, ?_, by omega⟩
        rintro other mem (rfl | old)
        · exact once mem
        · exact fresh other mem old
      · rintro ⟨⟨tidy, new, here⟩, others, nodup, fresh, room⟩
        refine ⟨⟨tidy, others⟩, ⟨fun mem => fresh name mem (.inl rfl), nodup⟩, ⟨new, ?_⟩,
          by omega⟩
        exact fun other mem old => fresh other mem (.inr old)

/-- Whether a block of its own may stand somewhere does not depend on the names around it. -/
theorem listFits_opened {body : List Stmt} :
    listFits [] (inner :: outer) body ↔
      ((declaredNames body).Nodup ∧ listTidy body) ∧
        Blocks.size (inner :: outer) + listPeak body ≤ maxVariables := by
  simp only [listFits, Blocks.size_cons, List.length_nil, Nat.zero_add, List.not_mem_nil,
    not_false_eq_true, implies_true, true_and]
  rw [and_left_comm, and_assoc]

theorem Stmt.fits_plain {st : Stmt} (declared : st.declared? = none) (peak : st.peak = 0)
    (room : Blocks.size (inner :: outer) ≤ maxVariables) : st.Fits inner outer ↔ st.Tidy := by
  simp only [Fits, declared, peak]
  exact ⟨And.left, fun tidy => ⟨tidy, nofun, room⟩⟩

theorem Stmt.fits_opened {st : Stmt} :
    st.Fits [] (inner :: outer) ↔
      st.Tidy ∧ Blocks.size (inner :: outer) + st.peak ≤ maxVariables := by
  simp [Stmt.Fits]

mutual

/-- The checker finds nothing in a statement that may stand among the blocks, and something in any
other. -/
theorem Stmt.faults_eq_nil (st : Stmt) (inner : List String) (outer : Blocks)
    (room : Blocks.size (inner :: outer) ≤ maxVariables) :
    st.faults (some (inner :: outer)) = [] ↔ st.Fits inner outer := by
  have opened : Blocks.size ([] :: inner :: outer) ≤ maxVariables := by simpa using room
  cases st with
  | expression place value =>
      rw [Stmt.fits_plain rfl (by simp [Stmt.peak]) room]
      simp [Stmt.faults, Stmt.Tidy, value.faults_eq_nil]
  | print place value =>
      rw [Stmt.fits_plain rfl (by simp [Stmt.peak]) room]
      simp [Stmt.faults, Stmt.Tidy, value.faults_eq_nil]
  | declare place name value =>
      simp [Stmt.faults, Stmt.Fits, Stmt.Tidy, Stmt.peak, Stmt.declared?, value.faults_eq_nil,
        Blocks.declarationFaults_eq_nil]
  | assign place name value =>
      rw [Stmt.fits_plain rfl (by simp [Stmt.peak]) room]
      simp [Stmt.faults, Stmt.Tidy, value.faults_eq_nil]
  | block place body =>
      simp only [Stmt.faults, Option.map_some]
      rw [listFaults_eq_nil body [] (inner :: outer) opened, listFits_opened]
      simp [Stmt.Fits, Stmt.Tidy, Stmt.peak, Stmt.declared?]
  | ifThen place condition yes =>
      simp only [Stmt.faults, Option.map_some, List.append_eq_nil_iff]
      rw [condition.faults_eq_nil, yes.faults_eq_nil [] (inner :: outer) opened,
        Stmt.fits_opened]
      simp [Stmt.Fits, Stmt.Tidy, Stmt.peak, Stmt.declared?, and_assoc]
  | ifElse place condition yes no =>
      simp only [Stmt.faults, Option.map_some, List.append_eq_nil_iff]
      rw [condition.faults_eq_nil, yes.faults_eq_nil [] (inner :: outer) opened,
        no.faults_eq_nil [] (inner :: outer) opened, Stmt.fits_opened, Stmt.fits_opened]
      simp only [Stmt.Fits, Stmt.Tidy, Stmt.peak, Stmt.declared?, Option.not_mem_none]
      constructor
      · rintro ⟨test, ⟨tidy, room⟩, tidy', room'⟩
        exact ⟨⟨test, tidy, tidy'⟩, nofun, by omega⟩
      · rintro ⟨⟨test, tidy, tidy'⟩, -, room⟩
        exact ⟨test, ⟨tidy, by omega⟩, tidy', by omega⟩
  | loop place condition body =>
      simp only [Stmt.faults, Option.map_some, List.append_eq_nil_iff]
      rw [condition.faults_eq_nil, body.faults_eq_nil [] (inner :: outer) opened,
        Stmt.fits_opened]
      simp [Stmt.Fits, Stmt.Tidy, Stmt.peak, Stmt.declared?, and_assoc]
  | function place name parameters bodyPlace body =>
      simp [Stmt.faults, Stmt.Fits, Stmt.Tidy]
  | ret place value =>
      rw [Stmt.fits_plain rfl (by simp [Stmt.peak]) room]
      cases value with
      | none => simp [Stmt.faults, Stmt.Tidy]
      | some value => simp [Stmt.faults, Stmt.Tidy, value.faults_eq_nil]

theorem listFaults_eq_nil (body : List Stmt) (inner : List String) (outer : Blocks)
    (room : Blocks.size (inner :: outer) ≤ maxVariables) :
    listFaults (some (inner :: outer)) body = [] ↔ listFits inner outer body := by
  cases body with
  | nil => simp [listFaults, listFits_nil room]
  | cons first rest =>
      simp only [listFaults, Option.map_some, List.append_eq_nil_iff]
      rw [first.faults_eq_nil inner outer room, listFits_cons]
      refine and_congr_right fun fits => ?_
      rw [Blocks.after_cons]
      refine listFaults_eq_nil rest _ outer ?_
      cases declared : first.declared? with
      | none => exact room
      | some name =>
          have := first.one_le_peak declared
          have := fits.2.2
          simp only [Blocks.size_cons, Option.toList_some, List.singleton_append,
            List.length_cons] at this ⊢
          omega

end

/-- The checker looks at what can be reached of a function. -/
theorem bodyFaults_eq (blocks : Blocks) (body : List Stmt) :
    bodyFaults blocks body = listFaults (some blocks) (reachable body) := by
  induction body generalizing blocks with
  | nil => simp [bodyFaults, reachable, listFaults]
  | cons first rest ih =>
      simp only [bodyFaults, reachable, listFaults, Option.map_some]
      split
      · simp [listFaults]
      · rw [ih]

/-- Names in reverse order are the same names. -/
theorem listFits_ofBody {parameters : List Parameter} {body : List Stmt} :
    listFits (parameters.map Parameter.name).reverse [] body ↔
      listTidy body ∧ (declaredNames body).Nodup ∧
        (∀ name ∈ declaredNames body, name ∉ parameters.map Parameter.name) ∧
          parameters.length + listPeak body ≤ maxVariables := by
  simp [listFits]

/-- The checker finds nothing in a function that obeys the rules, and something in any other. -/
theorem functionFaults_eq_nil (parameters : List Parameter) (body : List Stmt) :
    functionFaults parameters body = [] ↔ WellScoped parameters body := by
  rw [functionFaults, List.append_eq_nil_iff, List.append_eq_nil_iff, excess_eq_nil,
    Blocks.parameterFaults_eq_nil (by simp [Blocks.size]), bodyFaults_eq, Blocks.ofBody]
  constructor
  · rintro ⟨few, ⟨distinct, -, room⟩, found⟩
    rw [listFaults_eq_nil _ _ _ (by simpa using room), listFits_ofBody] at found
    obtain ⟨tidy, nodup, fresh, room⟩ := found
    refine ⟨few, ?_, tidy, room⟩
    rw [List.nodup_append]
    refine ⟨distinct, nodup, ?_⟩
    rintro name param _ mem rfl
    exact fresh name mem param
  · rintro ⟨few, distinct, tidy, room⟩
    rw [List.nodup_append] at distinct
    obtain ⟨distinct, nodup, apart⟩ := distinct
    refine ⟨few, ⟨distinct, by simp, by simp; omega⟩, ?_⟩
    rw [listFaults_eq_nil _ _ _ (by simp; omega), listFits_ofBody]
    exact ⟨tidy, nodup, fun name mem param => apart name param name mem rfl, room⟩

end Agreement

end StackScript
