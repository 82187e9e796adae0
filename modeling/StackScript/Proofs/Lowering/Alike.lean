/-
# Functions that are alike

When two functions differ in the names of their parameters and local variables at most: they have
the same shape, and every use of a name means the same variable in both. That is told from the
variables in scope, each with its two names. A use of a name means the variable that was declared
with it last, and where there is none, the global variable of that name.
-/

import StackScript.Proofs.Lowering.Scoping

namespace StackScript

/-- The local variables in scope, the one declared last first, each with its names in two
programs. -/
abbrev Pairs : Type := List (String × String)

namespace Pairs

variable {pairs : Pairs}

/-- Does a name of the first program mean the same variable as a name of the second? The variables
declared last with these names are the same, or there are none, and the names are equal. -/
structure Same (pairs : Pairs) (name other : String) : Prop where
  declared : pairs.findIdx? (·.1 == name) = pairs.findIdx? (·.2 == other)
  elsewhere : pairs.findIdx? (·.1 == name) = none → name = other

/-- The variable that two statements declare, if they declare one. -/
def ofStmts (st other : Stmt) : Pairs := st.declared?.toList.zip other.declared?.toList

/-- The parameters of two functions. -/
def ofParameters (parameters others : List Parameter) : Pairs :=
  ((parameters.map Parameter.name).zip (others.map Parameter.name)).reverse

end Pairs

section Relation

mutual

/-- Expressions that differ in the names of local variables at most. -/
inductive Expr.Alike (pairs : Pairs) : Expr → Expr → Prop
  | literal (place : Location) (value : Literal) :
      Expr.Alike pairs (.literal place value) (.literal place value)
  | reference (place : Location) {name other : String} : pairs.Same name other →
      Expr.Alike pairs (.reference place name) (.reference place other)
  | unary (place : Location) (op : UnaryOp) {operand other : Expr} :
      Expr.Alike pairs operand other →
        Expr.Alike pairs (.unary place op operand) (.unary place op other)
  | binary (place : Location) (op : BinaryOp) {left right left' right' : Expr} :
      Expr.Alike pairs left left' → Expr.Alike pairs right right' →
        Expr.Alike pairs (.binary place op left right) (.binary place op left' right')
  | call (place : Location) (callee : String) {arguments others : List Expr} :
      ArgumentsAlike pairs arguments others →
        Expr.Alike pairs (.call place callee arguments) (.call place callee others)

/-- Arguments that differ in the names of local variables at most. -/
inductive ArgumentsAlike (pairs : Pairs) : List Expr → List Expr → Prop
  | nil : ArgumentsAlike pairs [] []
  | cons {first other : Expr} {rest others : List Expr} : Expr.Alike pairs first other →
      ArgumentsAlike pairs rest others → ArgumentsAlike pairs (first :: rest) (other :: others)

end

mutual

/-- Statements of a function that differ in the names of local variables at most. A variable is in
scope in what follows its declaration in the same block. -/
inductive Stmt.Alike : Pairs → Stmt → Stmt → Prop
  | expression {pairs : Pairs} (place : Location) {value other : Expr} : value.Alike pairs other →
      Stmt.Alike pairs (.expression place value) (.expression place other)
  | print {pairs : Pairs} (place : Location) {value other : Expr} : value.Alike pairs other →
      Stmt.Alike pairs (.print place value) (.print place other)
  | declare {pairs : Pairs} (place : Location) (name name' : String) {value other : Expr} :
      value.Alike pairs other →
        Stmt.Alike pairs (.declare place name value) (.declare place name' other)
  | assign {pairs : Pairs} (place : Location) {name name' : String} {value other : Expr} :
      value.Alike pairs other → pairs.Same name name' →
        Stmt.Alike pairs (.assign place name value) (.assign place name' other)
  | block {pairs : Pairs} (place : Location) {body other : List Stmt} :
      ListAlike pairs body other → Stmt.Alike pairs (.block place body) (.block place other)
  | ifThen {pairs : Pairs} (place : Location) {condition condition' : Expr} {yes yes' : Stmt} :
      condition.Alike pairs condition' → Stmt.Alike pairs yes yes' →
        Stmt.Alike pairs (.ifThen place condition yes) (.ifThen place condition' yes')
  | ifElse {pairs : Pairs} (place : Location) {condition condition' : Expr}
      {yes yes' no no' : Stmt} : condition.Alike pairs condition' → Stmt.Alike pairs yes yes' →
        Stmt.Alike pairs no no' →
          Stmt.Alike pairs (.ifElse place condition yes no) (.ifElse place condition' yes' no')
  | loop {pairs : Pairs} (place : Location) {condition condition' : Expr} {body body' : Stmt} :
      condition.Alike pairs condition' → Stmt.Alike pairs body body' →
        Stmt.Alike pairs (.loop place condition body) (.loop place condition' body')
  /-- Functions inside of functions are refused, whatever they are. -/
  | function {pairs : Pairs} (place bodyPlace : Location) (name : String)
      (parameters others : List Parameter) (body other : List Stmt) :
        Stmt.Alike pairs (.function place name parameters bodyPlace body)
          (.function place name others bodyPlace other)
  | retNone {pairs : Pairs} (place : Location) :
      Stmt.Alike pairs (.ret place none) (.ret place none)
  | ret {pairs : Pairs} (place : Location) {value other : Expr} : value.Alike pairs other →
      Stmt.Alike pairs (.ret place (some value)) (.ret place (some other))

/-- Statements in a row that differ in the names of local variables at most. -/
inductive ListAlike : Pairs → List Stmt → List Stmt → Prop
  | nil {pairs : Pairs} : ListAlike pairs [] []
  | cons {pairs : Pairs} {first other : Stmt} {rest others : List Stmt} :
      Stmt.Alike pairs first other → ListAlike (Pairs.ofStmts first other ++ pairs) rest others →
        ListAlike pairs (first :: rest) (other :: others)

end

end Relation

section Mentions

mutual

/-- The strings that an expression mentions otherwise than as local variables. -/
def Expr.mentions (locals : List String) : Expr → List String
  | .literal _ (.string value) => [value]
  | .literal _ _ => []
  | .reference _ name => if name ∈ locals then [] else [name]
  | .unary _ _ operand => operand.mentions locals
  | .binary _ _ left right => left.mentions locals ++ right.mentions locals
  | .call _ callee arguments => argumentMentions locals arguments ++ [callee]

/-- The strings that arguments mention. -/
def argumentMentions (locals : List String) : List Expr → List String
  | [] => []
  | first :: rest => first.mentions locals ++ argumentMentions locals rest

end

mutual

/-- The strings that a statement of a function mentions otherwise than as local variables. -/
def Stmt.mentions (locals : List String) : Stmt → List String
  | .expression _ value => value.mentions locals
  | .print _ value => value.mentions locals
  | .declare _ _ value => value.mentions locals
  | .assign _ name value =>
    value.mentions locals ++ if name ∈ locals then [] else [name]
  | .block _ body => listMentions locals body
  | .ifThen _ condition yes => condition.mentions locals ++ yes.mentions locals
  | .ifElse _ condition yes no =>
    condition.mentions locals ++ (yes.mentions locals ++ no.mentions locals)
  | .loop _ condition body => condition.mentions locals ++ body.mentions locals
  | .function _ _ _ _ _ => []
  | .ret _ none => []
  | .ret _ (some value) => value.mentions locals

/-- The strings that statements in a row mention. -/
def listMentions (locals : List String) : List Stmt → List String
  | [] => []
  | first :: rest =>
    first.mentions locals ++ listMentions (first.declared?.toList ++ locals) rest

end

/-- The strings that a function mentions otherwise than as parameters or local variables, as far as
it can be reached. -/
def functionMentions (name : String) (parameters : List Parameter) (body : List Stmt) :
    List String :=
  name :: listMentions (parameters.map Parameter.name).reverse (reachable body)

end Mentions

end StackScript
