/-
# Numerals in programs

The numbers in a program are the values of numerals, which have no sign: a minus
sign in front of a numeral is an operator. Readers keep what holds of all that they
read, so that it is enough to look at the one place where a number is read.
-/

import StackScript.Proofs.Number.Unsigned
import StackScript.Syntax.Program

namespace StackScript

/-- A literal that is a number has no sign. -/
def Literal.Unsigned : Literal → Prop
  | number value => Number.Unsigned value
  | _ => True

mutual

/-- No number in an expression has a sign. -/
def Expr.Unsigned : Expr → Prop
  | .literal _ value => value.Unsigned
  | .reference _ _ => True
  | .unary _ _ operand => operand.Unsigned
  | .binary _ _ left right => left.Unsigned ∧ right.Unsigned
  | .call _ _ arguments => argumentsUnsigned arguments

/-- No number in arguments has a sign. -/
def argumentsUnsigned : List Expr → Prop
  | [] => True
  | first :: rest => first.Unsigned ∧ argumentsUnsigned rest

end

mutual

/-- No number in a statement has a sign. -/
def Stmt.Unsigned : Stmt → Prop
  | .expression _ value | .print _ value | .declare _ _ value | .assign _ _ value =>
    value.Unsigned
  | .block _ body | .function _ _ _ _ body => listUnsigned body
  | .ifThen _ condition yes => condition.Unsigned ∧ yes.Unsigned
  | .ifElse _ condition yes no => condition.Unsigned ∧ yes.Unsigned ∧ no.Unsigned
  | .loop _ condition body => condition.Unsigned ∧ body.Unsigned
  | .ret _ none => True
  | .ret _ (some value) => value.Unsigned

/-- No number in statements has a sign. -/
def listUnsigned : List Stmt → Prop
  | [] => True
  | first :: rest => first.Unsigned ∧ listUnsigned rest

end

namespace Reader

/-- Whatever a reader gives has a property. -/
def Gives {α : Type} (reader : Reader α) (post : α → Prop) : Prop :=
  ∀ tokens value rest, reader tokens = .ok (value, rest) → post value

variable {α β : Type} {reader : Reader α} {f : α → Reader β} {mid : α → Prop} {post : β → Prop}

theorem Gives.bind (first : reader.Gives mid) (rest : ∀ value, mid value → (f value).Gives post) :
    (reader >>= f).Gives post := by
  intro tokens value left h
  change (reader tokens >>= fun p => f p.1 p.2) = .ok (value, left) at h
  cases read : reader tokens with
  | error failure =>
      rw [read] at h
      cases h
  | ok p =>
      rw [read] at h
      exact rest p.1 (first tokens p.1 p.2 read) p.2 value left h

/-- What is read first does not always matter. -/
theorem Gives.skip (rest : ∀ value, (f value).Gives post) : (reader >>= f).Gives post := by
  have any : reader.Gives fun _ => True := fun _ _ _ _ => trivial
  exact any.bind fun value _ => rest value

theorem Gives.pure {value : α} (h : mid value) : (pure value : Reader α).Gives mid := by
  rintro tokens _ rest ⟨⟩
  exact h

theorem Gives.throw {failure : Failure} : (throw failure : Reader α).Gives mid := by
  rintro tokens _ rest ⟨⟩

theorem Gives.itemsToParen (item : reader.Gives mid) (bound : Nat) :
    (itemsToParen reader bound).Gives fun items => ∀ value ∈ items, mid value := by
  induction bound with
  | zero => exact .throw
  | succ bound ih =>
      refine item.bind fun first property => .skip fun separator => ?_
      split
      · exact .pure (by simpa using property)
      · refine ih.bind fun rest all => .pure ?_
        simpa using ⟨property, all⟩

theorem Gives.parenthesized (item : reader.Gives mid) (bound : Nat) :
    (parenthesized bound reader).Gives fun items => ∀ value ∈ items, mid value := by
  refine .skip fun _ => .skip fun empty => ?_
  split
  · exact .pure (by simp)
  · exact item.itemsToParen bound

theorem Gives.itemsToBrace (item : reader.Gives mid) (bound : Nat) :
    (itemsToBrace reader bound).Gives fun items => ∀ value ∈ items, mid value := by
  induction bound with
  | zero => exact .throw
  | succ bound ih =>
      refine .skip fun closed => ?_
      split
      · exact .pure (by simp)
      · refine item.bind fun first property => ih.bind fun rest all => .pure ?_
        simpa using ⟨property, all⟩

end Reader

theorem argumentsUnsigned_of_forall {arguments : List Expr}
    (h : ∀ value ∈ arguments, value.Unsigned) : argumentsUnsigned arguments := by
  induction arguments with
  | nil => trivial
  | cons first rest ih =>
      rw [List.forall_mem_cons] at h
      exact ⟨h.1, ih h.2⟩

theorem listUnsigned_of_forall {body : List Stmt} (h : ∀ st ∈ body, st.Unsigned) :
    listUnsigned body := by
  induction body with
  | nil => trivial
  | cons first rest ih =>
      rw [List.forall_mem_cons] at h
      exact ⟨h.1, ih h.2⟩

namespace Syntax

open Reader (Gives)

section Expressions

variable {operand : Reader Expr}

theorem chainFrom_unsigned (tightness bound : Nat) (inner : operand.Gives Expr.Unsigned)
    {left : Expr} (h : left.Unsigned) :
    (chainFrom tightness operand bound left).Gives Expr.Unsigned := by
  induction bound generalizing left with
  | zero => exact .pure h
  | succ bound ih =>
      refine .skip fun operator => ?_
      cases operator with
      | none => exact .pure h
      | some op => exact inner.bind fun right property => ih ⟨h, property⟩

theorem chain_unsigned (bound tightness : Nat) (inner : operand.Gives Expr.Unsigned) :
    (chain bound tightness operand).Gives Expr.Unsigned :=
  inner.bind fun _ property => chainFrom_unsigned tightness bound inner property

theorem layered_unsigned (bound : Nat) (inner : operand.Gives Expr.Unsigned) :
    (layered bound operand).Gives Expr.Unsigned :=
  chain_unsigned bound 1 (chain_unsigned bound 2 (chain_unsigned bound 3
    (chain_unsigned bound 4 inner)))

/-- The only numbers are the values of numerals. -/
theorem operandStep_unsigned (bound : Nat) (inner : operand.Gives Expr.Unsigned) :
    (operandStep bound operand).Gives Expr.Unsigned := by
  refine .skip fun token => ?_
  have layers := layered_unsigned bound inner
  split
  · exact inner.bind fun value property => .pure property
  · exact inner.bind fun value property => .pure property
  · exact layers.bind fun value property => .skip fun _ => .pure property
  · refine .skip fun kind => ?_
    split
    · refine (layers.parenthesized bound).bind fun arguments all => .pure ?_
      exact argumentsUnsigned_of_forall all
    · exact .pure trivial
  · exact .pure (Number.Numeral.unsigned_value _)
  all_goals first | exact .pure trivial | exact .throw

theorem operand_unsigned (bound depth : Nat) : (Syntax.operand bound depth).Gives Expr.Unsigned := by
  induction depth with
  | zero => exact .throw
  | succ depth ih => exact operandStep_unsigned bound ih

theorem expression_unsigned (bound depth : Nat) :
    (expression bound depth).Gives Expr.Unsigned :=
  layered_unsigned bound (operand_unsigned bound depth)

end Expressions

section Statements

variable {inner : Reader Expr} {deeper : Reader Stmt}

theorem finished_unsigned (h : inner.Gives Expr.Unsigned) : (finished inner).Gives Expr.Unsigned :=
  h.bind fun _ property => .skip fun _ => .pure property

theorem condition_unsigned (h : inner.Gives Expr.Unsigned) :
    (condition inner).Gives Expr.Unsigned :=
  .skip fun _ => h.bind fun _ property => .skip fun _ => .pure property

theorem binding_unsigned (h : inner.Gives Expr.Unsigned) :
    (binding inner).Gives fun p => p.2.Unsigned :=
  .skip fun _ => .skip fun _ => (finished_unsigned h).bind fun _ property => .pure property

theorem statementStep_unsigned (bound : Nat) (h : inner.Gives Expr.Unsigned)
    (below : deeper.Gives Stmt.Unsigned) :
    (statementStep bound inner deeper).Gives Stmt.Unsigned := by
  refine .skip fun kind => ?_
  have body := below.itemsToBrace bound
  have value := finished_unsigned h
  have test := condition_unsigned h
  split
  · exact .skip fun _ => body.bind fun _ all => .pure (listUnsigned_of_forall all)
  · exact .skip fun _ => value.bind fun _ property => .pure property
  · exact .skip fun _ => (binding_unsigned h).bind fun _ property => .pure property
  · refine .skip fun _ => .skip fun _ => .skip fun _ => .skip fun _ => ?_
    exact body.bind fun _ all => .pure (listUnsigned_of_forall all)
  · refine .skip fun _ => .skip fun bare => ?_
    split
    · exact .pure trivial
    · exact value.bind fun _ property => .pure property
  · refine .skip fun _ => test.bind fun _ property => below.bind fun _ yes => .skip fun more => ?_
    split
    · exact below.bind fun _ no => .pure ⟨property, yes, no⟩
    · exact .pure ⟨property, yes⟩
  · exact .skip fun _ => test.bind fun _ property => below.bind fun _ body => .pure ⟨property, body⟩
  · refine .skip fun more => ?_
    split
    · exact (binding_unsigned h).bind fun _ property => .pure property
    · exact value.bind fun _ property => .pure property
  · exact value.bind fun _ property => .pure property

theorem statement_unsigned (bound depth : Nat) : (statement bound depth).Gives Stmt.Unsigned := by
  induction depth with
  | zero => exact .throw
  | succ depth ih => exact statementStep_unsigned bound (expression_unsigned bound (depth + 1)) ih

theorem statements_unsigned {limit bound count : Nat} {ending : Diagnostic} {tokens : List Token}
    {body : List Stmt} (read : statements limit bound ending count tokens = .ok body) :
    listUnsigned body := by
  induction count generalizing tokens body with
  | zero =>
      cases tokens with
      | nil =>
          cases read
          trivial
      | cons token rest => cases read
  | succ count ih =>
      cases tokens with
      | nil =>
          cases read
          trivial
      | cons token rest =>
          rw [statements] at read
          split at read
          · cases read
          · rename_i first left found
            cases more : statements limit bound ending count left with
            | error diagnostic =>
                rw [more] at read
                cases read
            | ok others =>
                rw [more] at read
                cases read
                exact ⟨statement_unsigned bound limit _ first left found, ih more⟩

/-- No number in a program has a sign. -/
theorem program_unsigned {file text : String} {body : List Stmt}
    (read : program file text = .ok body) : listUnsigned body := by
  unfold program programOf at read
  generalize TokenStream.ofText file text = stream at read
  simp only [] at read
  cases found : statements nestingLimit (stream.significant.length + 1) (ending stream)
      (stream.significant.length + 1) stream.significant with
  | error diagnostic =>
      rw [found] at read
      cases read
  | ok others =>
      rw [found] at read
      cases problem : stream.problem with
      | some other =>
          rw [problem] at read
          cases read
      | none =>
          rw [problem] at read
          cases read
          exact statements_unsigned found

end Statements

end Syntax

end StackScript
