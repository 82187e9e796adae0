/-
# Where phrases begin

Every node of a tree is at the place of the first token that it was read from. Parentheses leave no
node and do not count: what stands in them begins behind the opening one. A chain of operators is
where its leftmost operand is, and an operator in front of an operand is at its own place.
-/

import StackScript.Proofs.Syntax.Concatenation

namespace StackScript

/-- The nodes that trees are made of. -/
inductive Part where
  | expression (value : Expr)
  | statement (st : Stmt)
  | parameter (named : Parameter)

/-- The place that a node carries. -/
def Part.place : Part → Location
  | expression value => value.location
  | statement st => st.location
  | parameter named => named.location

mutual

/-- An expression and the nodes in it. -/
def Expr.parts : Expr → List Part
  | .literal place value => [.expression (.literal place value)]
  | .reference place name => [.expression (.reference place name)]
  | .unary place op operand => .expression (.unary place op operand) :: operand.parts
  | .binary place op left right =>
    .expression (.binary place op left right) :: (left.parts ++ right.parts)
  | .call place callee arguments =>
    .expression (.call place callee arguments) :: argumentParts arguments

/-- The nodes in arguments. -/
def argumentParts : List Expr → List Part
  | [] => []
  | first :: rest => first.parts ++ argumentParts rest

end

mutual

/-- A statement and the nodes in it. The body of a function is a block. -/
def Stmt.parts : Stmt → List Part
  | .expression place value => .statement (.expression place value) :: value.parts
  | .print place value => .statement (.print place value) :: value.parts
  | .declare place name value => .statement (.declare place name value) :: value.parts
  | .assign place name value => .statement (.assign place name value) :: value.parts
  | .block place body => .statement (.block place body) :: bodyParts body
  | .ifThen place condition yes =>
    .statement (.ifThen place condition yes) :: (condition.parts ++ yes.parts)
  | .ifElse place condition yes no =>
    .statement (.ifElse place condition yes no) :: (condition.parts ++ (yes.parts ++ no.parts))
  | .loop place condition body =>
    .statement (.loop place condition body) :: (condition.parts ++ body.parts)
  | .function place name parameters bodyPlace body =>
    .statement (.function place name parameters bodyPlace body) ::
      (parameters.map .parameter ++ .statement (.block bodyPlace body) :: bodyParts body)
  | .ret place value => .statement (.ret place value) :: value.elim [] Expr.parts

/-- The nodes in statements. -/
def bodyParts : List Stmt → List Part
  | [] => []
  | first :: rest => first.parts ++ bodyParts rest

end

namespace Syntax

/-- The place of the first token that is no opening parenthesis. -/
def firstPlace (tokens : List Token) : Option Location :=
  (tokens.find? fun token => token.kind ≠ .punctuator .leftParen).map Token.location

/-- Can a node be read from these tokens? -/
def DerivedFrom : Part → List Token → Prop
  | .expression value, ts => ∃ tightness, Derives (.layer tightness value) ts
  | .statement st, ts => Derives (.statement st) ts
  | .parameter named, ts => Derives (.names [named]) ts

/-- A node that has been read from some of the tokens, and points at the first one of those. -/
structure Points (tokens : List Token) (part : Part) : Prop where
  read : ∃ span, span <:+: tokens ∧ DerivedFrom part span
  first : ∀ span, DerivedFrom part span → firstPlace span = some part.place

variable {ts us tokens : List Token} {token : Token} {place : Location} {p : Phrase} {part : Part}

theorem firstPlace_cons (h : token.kind ≠ .punctuator .leftParen) (ts : List Token) :
    firstPlace (token :: ts) = some token.location := by
  simp [firstPlace, h]

theorem firstPlace_paren (h : token.kind = .punctuator .leftParen) (ts : List Token) :
    firstPlace (token :: ts) = firstPlace ts := by
  simp [firstPlace, h]

theorem firstPlace_append (h : firstPlace ts = some place) (us : List Token) :
    firstPlace (ts ++ us) = some place := by
  have ⟨token, found, same⟩ := Option.map_eq_some_iff.mp h
  rw [firstPlace, List.find?_append, found]
  exact congrArg some same

/-- Where a phrase begins, for the phrases that are nodes. -/
def Phrase.Begins : Phrase → List Token → Prop
  | .layer _ value, ts => firstPlace ts = some value.location
  | .statement st, ts => firstPlace ts = some st.location
  | .names (first :: _), ts => firstPlace ts = some first.location
  | _, _ => True

theorem kind_of_literal? {value : Literal} (h : token.literal? = some value) :
    token.kind ≠ .punctuator .leftParen := by
  intro paren
  rw [Token.literal?, paren] at h
  cases h

/-- Every phrase begins with its first token that is no opening parenthesis. -/
theorem Derives.begins (h : Derives p ts) : p.Begins ts := by
  induction h with
  | literal is => exact firstPlace_cons (kind_of_literal? is) _
  | reference isName => exact firstPlace_cons (by simp [isName]) _
  | call isName _ _ => exact firstPlace_cons (by simp [isName]) _
  | parentheses opens _ _ ih => exact (firstPlace_paren opens _).trans (firstPlace_append ih _)
  | unary listed sign _ _ =>
      apply firstPlace_cons
      intro paren
      rw [sign] at paren
      cases paren
      simp [unaryMarks] at listed
  | tighter _ _ ih => exact ih
  | binary _ _ _ _ ih _ => exact firstPlace_append ih _
  | name isName => exact firstPlace_cons (by simp [isName]) _
  | moreNames isName _ _ _ => exact firstPlace_cons (by simp [isName]) _
  | block opens _ _ _ => exact firstPlace_cons (by simp [opens]) _
  | print isPrint _ _ _ => exact firstPlace_cons (by simp [isPrint]) _
  | declare isLet _ _ _ _ _ => exact firstPlace_cons (by simp [isLet]) _
  | assign isName _ _ _ _ => exact firstPlace_cons (by simp [isName]) _
  | function isFn _ _ _ _ _ _ _ => exact firstPlace_cons (by simp [isFn]) _
  | returnNothing isReturn _ => exact firstPlace_cons (by simp [isReturn]) _
  | returnValue isReturn _ _ _ => exact firstPlace_cons (by simp [isReturn]) _
  | ifThen isIf _ _ _ _ _ _ => exact firstPlace_cons (by simp [isIf]) _
  | ifElse isIf _ _ _ _ _ _ _ _ _ _ => exact firstPlace_cons (by simp [isIf]) _
  | loop isWhile _ _ _ _ _ _ => exact firstPlace_cons (by simp [isWhile]) _
  | expression _ _ ih => exact firstPlace_append ih _
  | item | moreItems | noArguments | arguments | noParameters | parameters | nothing
  | statements => trivial

/-- The nodes of a phrase. -/
def Phrase.parts : Phrase → List Part
  | .layer _ value => value.parts
  | .items values => argumentParts values
  | .arguments values => argumentParts values
  | .names listed => listed.map .parameter
  | .parameters listed => listed.map .parameter
  | .statement st => st.parts
  | .statements body => bodyParts body

/-- All of the given nodes are read from tokens that stand together among others. -/
def AllWithin (tokens : List Token) (parts : List Part) : Prop :=
  ∀ part ∈ parts, ∃ span, span <:+: tokens ∧ DerivedFrom part span

section Within

variable {parts others : List Part}

theorem AllWithin.mono (h : AllWithin ts parts) (inside : ts <:+: us) : AllWithin us parts := by
  intro part mem
  have ⟨span, within, derived⟩ := h part mem
  exact ⟨span, within.trans inside, derived⟩

/-- A node that all of the tokens are read as, and the nodes in it. -/
theorem AllWithin.cons (derived : DerivedFrom part ts) (h : AllWithin ts parts) :
    AllWithin ts (part :: parts) :=
  List.forall_mem_cons.mpr ⟨⟨ts, List.infix_rfl, derived⟩, h⟩

theorem AllWithin.append (h : AllWithin ts parts) (h' : AllWithin ts others) :
    AllWithin ts (parts ++ others) := List.forall_mem_append.mpr ⟨h, h'⟩

theorem AllWithin.nil (ts : List Token) : AllWithin ts [] := nofun

/-- Two pieces of the tokens with the nodes of each. -/
theorem AllWithin.both (h : AllWithin ts parts) (inside : ts <:+: tokens)
    (h' : AllWithin us others) (inside' : us <:+: tokens) : AllWithin tokens (parts ++ others) :=
  (h.mono inside).append (h'.mono inside')

end Within

/-- The nodes of a phrase are read from parts of its tokens. -/
theorem Derives.within (h : Derives p ts) : AllWithin ts p.parts := by
  -- what stands between single tokens, or behind them, or at the end
  have enclosed (left right : Token) (ts : List Token) : ts <:+: left :: ts ++ [right] :=
    ⟨[left], [right], rfl⟩
  have behind (front ts : List Token) : ts <:+: front ++ ts := (List.suffix_append front ts).isInfix
  have ahead (ts back : List Token) : ts <:+: ts ++ back := (List.prefix_append ts back).isInfix
  have after (left : Token) (ts : List Token) : ts <:+: left :: ts := behind [left] ts
  induction h with
  | literal is => exact .cons ⟨5, .literal is⟩ (.nil _)
  | reference isName => exact .cons ⟨5, .reference isName⟩ (.nil _)
  | call isName derived ih => exact .cons ⟨5, .call isName derived⟩ (ih.mono (after _ _))
  | parentheses _ _ _ ih => exact ih.mono (enclosed _ _ _)
  | unary listed sign derived ih =>
      exact .cons ⟨5, .unary listed sign derived⟩ (ih.mono (after _ _))
  | tighter _ _ ih => exact ih
  | binary listed derived sign derived' ih ih' =>
      exact .cons ⟨_, .binary listed derived sign derived'⟩
        (ih.both (ahead _ _) ih' ((after _ _).trans (behind _ _)))
  | item _ ih => exact ih.append (.nil _)
  | moreItems _ _ _ ih ih' => exact ih.both (ahead _ _) ih' ((after _ _).trans (behind _ _))
  | noArguments _ _ => exact .nil _
  | arguments _ _ _ ih => exact ih.mono (enclosed _ _ _)
  | name isName => exact .cons (.name isName) (.nil _)
  | moreNames isName _ _ ih =>
      exact List.forall_mem_cons.mpr ⟨⟨[_], ahead [_] _, .name isName⟩,
        ih.mono ((after _ _).trans (after _ _))⟩
  | noParameters _ _ => exact .nil _
  | parameters _ _ _ ih => exact ih.mono (enclosed _ _ _)
  | block opens derived closes ih =>
      exact .cons (.block opens derived closes) (ih.mono (enclosed _ _ _))
  | print isPrint derived ends ih =>
      exact .cons (.print isPrint derived ends) (ih.mono (enclosed _ _ _))
  | declare isLet isName isEqual derived ends ih =>
      exact .cons (.declare isLet isName isEqual derived ends)
        (ih.mono ⟨[_, _, _], [_], rfl⟩)
  | assign isName isEqual derived ends ih =>
      exact .cons (.assign isName isEqual derived ends) (ih.mono ⟨[_, _], [_], rfl⟩)
  | @function word name left right parameters body ts us isFn isName derived opens derived' closes
      ih ih' =>
      have named : ts <:+: word :: name :: ts ++ left :: us ++ [right] :=
        ⟨[word, name], left :: us ++ [right], by simp⟩
      have block : left :: us ++ [right] <:+: word :: name :: ts ++ left :: us ++ [right] :=
        ⟨word :: name :: ts, [], by simp⟩
      have inner : AllWithin (left :: us ++ [right])
          (.statement (.block left.location body) :: bodyParts body) :=
        .cons (.block opens derived' closes) (ih'.mono (enclosed _ _ _))
      exact .cons (.function isFn isName derived opens derived' closes)
        (ih.both named inner block)
  | returnNothing isReturn ends => exact .cons (.returnNothing isReturn ends) (.nil _)
  | returnValue isReturn derived ends ih =>
      exact .cons (.returnValue isReturn derived ends) (ih.mono (enclosed _ _ _))
  | @ifThen word left right condition yes ts us isIf opens derived closes derived' ih ih' =>
      have test : ts <:+: word :: left :: ts ++ right :: us :=
        ⟨[word, left], right :: us, rfl⟩
      have branch : us <:+: word :: left :: ts ++ right :: us :=
        ⟨word :: left :: ts ++ [right], [], by simp⟩
      exact .cons (.ifThen isIf opens derived closes derived') (ih.both test ih' branch)
  | @ifElse word left right other condition yes no ts us vs isIf opens derived closes derived'
      closed isElse derived'' ih ih' ih'' =>
      have test : ts <:+: word :: left :: ts ++ right :: us ++ other :: vs :=
        ⟨[word, left], right :: us ++ other :: vs, by simp⟩
      have branch : us <:+: word :: left :: ts ++ right :: us ++ other :: vs :=
        ⟨word :: left :: ts ++ [right], other :: vs, by simp⟩
      have second : vs <:+: word :: left :: ts ++ right :: us ++ other :: vs :=
        ⟨word :: left :: ts ++ right :: us ++ [other], [], by simp⟩
      exact .cons (.ifElse isIf opens derived closes derived' closed isElse derived'')
        ((ih.mono test).append (ih'.both branch ih'' second))
  | @loop word left right condition body ts us isWhile opens derived closes derived' ih ih' =>
      have test : ts <:+: word :: left :: ts ++ right :: us :=
        ⟨[word, left], right :: us, rfl⟩
      have inner : us <:+: word :: left :: ts ++ right :: us :=
        ⟨word :: left :: ts ++ [right], [], by simp⟩
      exact .cons (.loop isWhile opens derived closes derived') (ih.both test ih' inner)
  | expression derived ends ih => exact .cons (.expression derived ends) (ih.mono (ahead _ _))
  | nothing => exact .nil _
  | statements _ _ ih ih' => exact ih.both (ahead _ _) ih' (behind _ _)

/-- A node that can be read from tokens is where they begin. -/
theorem firstPlace_of_derivedFrom (h : DerivedFrom part ts) : firstPlace ts = some part.place := by
  cases part with
  | expression value =>
      have ⟨_, derived⟩ := h
      exact derived.begins
  | statement st => exact Derives.begins h
  | parameter named => exact Derives.begins h

/-- Every node of a program points at its first token. -/
theorem points_of_programOf {limit : Nat} {stream : TokenStream} {program : List Stmt}
    (h : programOf limit stream = .ok program) :
    ∀ part ∈ bodyParts program, Points stream.significant part := by
  have derived := statements_sound (statements_of_programOf h)
  intro part mem
  exact ⟨derived.within part mem, fun _ => firstPlace_of_derivedFrom⟩

end Syntax

end StackScript
