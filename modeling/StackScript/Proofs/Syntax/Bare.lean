/-
# Trees without places

Two texts with the same words mean the same, up to the places that the nodes of their trees carry.
A bare tree has one and the same place everywhere, so that trees agree up to places if their bare
trees are equal. A derivation does not depend on where its tokens stand: other tokens with the
same words derive a tree with the same bare tree.
-/

import StackScript.Proofs.Syntax.Grammar
import StackScript.Proofs.Token.Splitting

namespace StackScript

mutual

/-- An expression without its places. -/
def Expr.bare : Expr → Expr
  | .literal _ value => .literal default value
  | .reference _ name => .reference default name
  | .unary _ op operand => .unary default op operand.bare
  | .binary _ op left right => .binary default op left.bare right.bare
  | .call _ callee arguments => .call default callee (bareArguments arguments)

/-- Arguments without their places. -/
def bareArguments : List Expr → List Expr
  | [] => []
  | first :: rest => first.bare :: bareArguments rest

end

/-- A parameter without its place. -/
def Parameter.bare (parameter : Parameter) : Parameter := ⟨default, parameter.name⟩

mutual

/-- A statement without its places. -/
def Stmt.bare : Stmt → Stmt
  | .expression _ value => .expression default value.bare
  | .print _ value => .print default value.bare
  | .declare _ name value => .declare default name value.bare
  | .assign _ name value => .assign default name value.bare
  | .block _ body => .block default (bareBody body)
  | .ifThen _ condition yes => .ifThen default condition.bare yes.bare
  | .ifElse _ condition yes no => .ifElse default condition.bare yes.bare no.bare
  | .loop _ condition body => .loop default condition.bare body.bare
  | .function _ name parameters _ body =>
    .function default name (parameters.map Parameter.bare) default (bareBody body)
  | .ret _ value => .ret default (value.map Expr.bare)

/-- Statements without their places. -/
def bareBody : List Stmt → List Stmt
  | [] => []
  | first :: rest => first.bare :: bareBody rest

end

theorem bareBody_eq (body : List Stmt) : bareBody body = body.map Stmt.bare := by
  induction body with
  | nil => rfl
  | cons first rest ih => rw [bareBody, ih, List.map_cons]

@[simp] theorem Expr.location_bare (value : Expr) : value.bare.location = default := by
  cases value <;> rfl

mutual

@[simp] theorem Expr.bare_bare : ∀ value : Expr, value.bare.bare = value.bare
  | .literal _ _ => rfl
  | .reference _ _ => rfl
  | .unary _ _ operand => by simp [Expr.bare, operand.bare_bare]
  | .binary _ _ left right => by simp [Expr.bare, left.bare_bare, right.bare_bare]
  | .call _ _ arguments => by simp [Expr.bare, bareArguments_bare arguments]

@[simp] theorem bareArguments_bare :
    ∀ arguments : List Expr, bareArguments (bareArguments arguments) = bareArguments arguments
  | [] => rfl
  | first :: rest => by simp [bareArguments, first.bare_bare, bareArguments_bare rest]

end

mutual

@[simp] theorem Stmt.bare_bare : ∀ st : Stmt, st.bare.bare = st.bare
  | .expression _ _ | .print _ _ | .declare _ _ _ | .assign _ _ _ => by simp [Stmt.bare]
  | .block _ body => by simp [Stmt.bare, bareBody_bare body]
  | .ifThen _ _ yes => by simp [Stmt.bare, yes.bare_bare]
  | .ifElse _ _ yes no => by simp [Stmt.bare, yes.bare_bare, no.bare_bare]
  | .loop _ _ body => by simp [Stmt.bare, body.bare_bare]
  | .function _ _ _ _ body => by
      simp [Stmt.bare, bareBody_bare body, Function.comp_def, Parameter.bare]
  | .ret _ _ => by simp [Stmt.bare, Function.comp_def]

@[simp] theorem bareBody_bare : ∀ body : List Stmt, bareBody (bareBody body) = bareBody body
  | [] => rfl
  | first :: rest => by simp [bareBody, first.bare_bare, bareBody_bare rest]

end

mutual

@[simp] theorem Stmt.endsOpen_bare : ∀ st : Stmt, st.bare.endsOpen = st.endsOpen
  | .ifElse _ _ _ no => no.endsOpen_bare
  | .loop _ _ body => body.endsOpen_bare
  | .ifThen _ _ _ | .expression _ _ | .print _ _ | .declare _ _ _ | .assign _ _ _ | .block _ _
  | .function _ _ _ _ _ | .ret _ _ => rfl

end

/-- Tokens have the same words as others, wherever they stand. -/
def Alike (us ts : List Token) : Prop := wordsOf us = wordsOf ts

section Alike

variable {us ts ts' : List Token} {token : Token}

theorem Alike.uncons (h : Alike us (token :: ts)) : ∃ other us', us = other :: us' ∧
    other.kind = token.kind ∧ other.text = token.text ∧ Alike us' ts := by
  cases us with
  | nil => cases h
  | cons other us' =>
      have same : other.word = token.word ∧ wordsOf us' = wordsOf ts := List.cons.inj h
      obtain ⟨kind, text⟩ := Prod.mk.inj same.1
      exact ⟨other, us', rfl, kind, text, same.2⟩

theorem Alike.split (h : Alike us (ts ++ ts')) : ∃ vs vs', us = vs ++ vs' ∧ Alike vs ts ∧
    Alike vs' ts' := by
  have same : us.map Token.word = ts.map Token.word ++ ts'.map Token.word := by
    simpa [Alike, wordsOf] using h
  exact List.map_eq_append_iff.mp same

theorem Alike.only (h : Alike us [token]) : ∃ other : Token, us = [other] ∧
    other.kind = token.kind ∧ other.text = token.text := by
  obtain ⟨other, us', rfl, kind, text, none⟩ := h.uncons
  obtain rfl : us' = [] := List.map_eq_nil_iff.mp none
  exact ⟨other, rfl, kind, text⟩

/-- The last token apart from the others. -/
theorem Alike.unsnoc (h : Alike us (ts ++ [token])) : ∃ vs other, us = vs ++ [other] ∧
    Alike vs ts ∧ other.kind = token.kind := by
  obtain ⟨vs, vs', rfl, same, last⟩ := h.split
  obtain ⟨other, rfl, kind, -⟩ := last.only
  exact ⟨vs, other, rfl, same, kind⟩

/-- Two single tokens. -/
theorem Alike.pair {token' : Token} (h : Alike us [token, token']) : ∃ left right, us = [left, right] ∧
    left.kind = token.kind ∧ right.kind = token'.kind := by
  obtain ⟨left, us', rfl, first, -, rest⟩ := h.uncons
  obtain ⟨right, rfl, second, -⟩ := rest.only
  exact ⟨left, right, rfl, first, second⟩

/-- Tokens between two single ones. -/
theorem Alike.enclosed {token' : Token} (h : Alike us (token :: ts ++ [token'])) :
    ∃ left vs right, us = left :: vs ++ [right] ∧ left.kind = token.kind ∧ Alike vs ts ∧
      right.kind = token'.kind := by
  obtain ⟨us', right, rfl, front, second⟩ := h.unsnoc
  obtain ⟨left, vs, rfl, first, -, same⟩ := front.uncons
  exact ⟨left, vs, right, rfl, first, same, second⟩

/-- Tokens on either side of a single one. -/
theorem Alike.joined (h : Alike us (ts ++ token :: ts')) : ∃ vs middle vs', us = vs ++ middle :: vs' ∧
    Alike vs ts ∧ middle.kind = token.kind ∧ Alike vs' ts' := by
  obtain ⟨vs, rest, rfl, same, behind⟩ := h.split
  obtain ⟨middle, vs', rfl, kind, -, same'⟩ := behind.uncons
  exact ⟨vs, middle, vs', rfl, same, kind, same'⟩

/-- Tokens behind two single ones, and others behind a third. -/
theorem Alike.headed {token' token'' : Token}
    (h : Alike us (token :: token' :: ts ++ token'' :: ts')) : ∃ word left vs right vs',
      us = word :: left :: vs ++ right :: vs' ∧ word.kind = token.kind ∧ left.kind = token'.kind ∧
        Alike vs ts ∧ right.kind = token''.kind ∧ Alike vs' ts' := by
  obtain ⟨ws, right, vs', rfl, front, third, behind⟩ := h.joined
  obtain ⟨word, ws, rfl, first, -, front⟩ := front.uncons
  obtain ⟨left, vs, rfl, second, -, same⟩ := front.uncons
  exact ⟨word, left, vs, right, vs', rfl, first, second, same, third, behind⟩

theorem literal?_eq {other : Token} (kind : other.kind = token.kind) (text : other.text = token.text) :
    other.literal? = token.literal? := by
  rw [Token.literal?, Token.literal?, kind, text]

end Alike

namespace Syntax

/-- Tokens derive what a phrase is, up to places. -/
def Phrase.FoundIn (us : List Token) : Phrase → Prop
  | .layer tightness value =>
    ∃ other, Derives (.layer tightness other) us ∧ other.bare = value.bare
  | .items values =>
    ∃ others, Derives (.items others) us ∧ bareArguments others = bareArguments values
  | .arguments values =>
    ∃ others, Derives (.arguments others) us ∧ bareArguments others = bareArguments values
  | .names listed =>
    ∃ others, Derives (.names others) us ∧ others.map Parameter.bare = listed.map Parameter.bare
  | .parameters listed =>
    ∃ others, Derives (.parameters others) us ∧
      others.map Parameter.bare = listed.map Parameter.bare
  | .statement st => ∃ other, Derives (.statement other) us ∧ other.bare = st.bare
  | .statements body => ∃ others, Derives (.statements others) us ∧ bareBody others = bareBody body

/-- Tokens with the same words derive the same, up to places. -/
theorem Derives.respelled {p : Phrase} {ts us : List Token} (h : Derives p ts) (same : Alike us ts) :
    p.FoundIn us := by
  induction h generalizing us with
  | literal is =>
      obtain ⟨token, rfl, kind, text⟩ := same.only
      exact ⟨_, .literal ((literal?_eq kind text).trans is), rfl⟩
  | reference isName =>
      obtain ⟨name, rfl, kind, text⟩ := same.only
      exact ⟨_, .reference (kind.trans isName), by simp [Expr.bare, text]⟩
  | call isName _ ih =>
      obtain ⟨name, us', rfl, kind, text, same⟩ := same.uncons
      obtain ⟨others, derived, bare⟩ := ih same
      exact ⟨_, .call (kind.trans isName) derived, by simp [Expr.bare, text, bare]⟩
  | parentheses opens _ closes ih =>
      obtain ⟨_, _, _, rfl, first, same, last⟩ := same.enclosed
      obtain ⟨other, derived, bare⟩ := ih same
      exact ⟨other, .parentheses (first.trans opens) derived (last.trans closes), bare⟩
  | unary listed sign _ ih =>
      obtain ⟨_, us', rfl, kind, -, same⟩ := same.uncons
      obtain ⟨other, derived, bare⟩ := ih same
      exact ⟨_, .unary listed (kind.trans sign) derived, by simp [Expr.bare, bare]⟩
  | tighter loose _ ih =>
      obtain ⟨other, derived, bare⟩ := ih same
      exact ⟨other, .tighter loose derived, bare⟩
  | binary listed _ sign _ ih ih' =>
      obtain ⟨_, _, _, rfl, same, kind, same'⟩ := same.joined
      obtain ⟨left, derived, bare⟩ := ih same
      obtain ⟨right, derived', bare'⟩ := ih' same'
      exact ⟨_, .binary listed derived (kind.trans sign) derived', by simp [Expr.bare, bare, bare']⟩
  | item _ ih =>
      obtain ⟨other, derived, bare⟩ := ih same
      exact ⟨_, .item derived, by simp [bareArguments, bare]⟩
  | moreItems _ isComma _ ih ih' =>
      obtain ⟨_, _, _, rfl, same, kind, same'⟩ := same.joined
      obtain ⟨first, derived, bare⟩ := ih same
      obtain ⟨others, derived', bare'⟩ := ih' same'
      exact ⟨_, .moreItems derived (kind.trans isComma) derived',
        by simp [bareArguments, bare, bare']⟩
  | noArguments opens closes =>
      obtain ⟨_, _, rfl, first, last⟩ := same.pair
      exact ⟨_, .noArguments (first.trans opens) (last.trans closes), rfl⟩
  | arguments opens _ closes ih =>
      obtain ⟨_, _, _, rfl, first, same, last⟩ := same.enclosed
      obtain ⟨others, derived, bare⟩ := ih same
      exact ⟨others, .arguments (first.trans opens) derived (last.trans closes), bare⟩
  | name isName =>
      obtain ⟨name, rfl, kind, text⟩ := same.only
      exact ⟨_, .name (kind.trans isName), by simp [Parameter.bare, text]⟩
  | moreNames isName isComma _ ih =>
      obtain ⟨name, us', rfl, kind, text, same⟩ := same.uncons
      obtain ⟨comma, us', rfl, kind', -, same⟩ := same.uncons
      obtain ⟨others, derived, bare⟩ := ih same
      exact ⟨_, .moreNames (kind.trans isName) (kind'.trans isComma) derived,
        by simp [Parameter.bare, text, bare]⟩
  | noParameters opens closes =>
      obtain ⟨_, _, rfl, first, last⟩ := same.pair
      exact ⟨_, .noParameters (first.trans opens) (last.trans closes), rfl⟩
  | parameters opens _ closes ih =>
      obtain ⟨_, _, _, rfl, first, same, last⟩ := same.enclosed
      obtain ⟨others, derived, bare⟩ := ih same
      exact ⟨others, .parameters (first.trans opens) derived (last.trans closes), bare⟩
  | block opens _ closes ih =>
      obtain ⟨_, _, _, rfl, first, same, last⟩ := same.enclosed
      obtain ⟨body, derived, bare⟩ := ih same
      exact ⟨_, .block (first.trans opens) derived (last.trans closes), by simp [Stmt.bare, bare]⟩
  | print isPrint _ ends ih =>
      obtain ⟨_, _, _, rfl, first, same, last⟩ := same.enclosed
      obtain ⟨other, derived, bare⟩ := ih same
      exact ⟨_, .print (first.trans isPrint) derived (last.trans ends), by simp [Stmt.bare, bare]⟩
  | declare isLet isName isEqual _ ends ih =>
      obtain ⟨_, _, _, rfl, first, same, last⟩ := same.enclosed
      obtain ⟨name, us', rfl, second, text, same⟩ := same.uncons
      obtain ⟨equal, us', rfl, third, -, same⟩ := same.uncons
      obtain ⟨other, derived, bare⟩ := ih same
      exact ⟨_, .declare (first.trans isLet) (second.trans isName) (third.trans isEqual) derived
        (last.trans ends), by simp [Stmt.bare, bare, text]⟩
  | assign isName isEqual _ ends ih =>
      obtain ⟨us', stop, rfl, same, last⟩ := same.unsnoc
      obtain ⟨name, us', rfl, first, text, same⟩ := same.uncons
      obtain ⟨equal, us', rfl, second, -, same⟩ := same.uncons
      obtain ⟨other, derived, bare⟩ := ih same
      exact ⟨_, .assign (first.trans isName) (second.trans isEqual) derived (last.trans ends),
        by simp [Stmt.bare, bare, text]⟩
  | function isFn isName _ opens _ closes ih ih' =>
      obtain ⟨_, _, rfl, front, last⟩ := same.unsnoc
      obtain ⟨_, _, _, rfl, same, middle, same'⟩ := front.joined
      obtain ⟨_, _, rfl, first, -, same⟩ := same.uncons
      obtain ⟨_, _, rfl, second, text, same⟩ := same.uncons
      obtain ⟨listed, derived, bare⟩ := ih same
      obtain ⟨body, derived', bare'⟩ := ih' same'
      exact ⟨_, .function (first.trans isFn) (second.trans isName) derived (middle.trans opens)
        derived' (last.trans closes), by simp [Stmt.bare, bare, bare', text]⟩
  | returnNothing isReturn ends =>
      obtain ⟨_, _, rfl, first, last⟩ := same.pair
      exact ⟨_, .returnNothing (first.trans isReturn) (last.trans ends), rfl⟩
  | returnValue isReturn _ ends ih =>
      obtain ⟨_, _, _, rfl, first, same, last⟩ := same.enclosed
      obtain ⟨other, derived, bare⟩ := ih same
      exact ⟨_, .returnValue (first.trans isReturn) derived (last.trans ends),
        by simp [Stmt.bare, bare]⟩
  | ifThen isIf opens _ closes _ ih ih' =>
      obtain ⟨_, _, _, _, _, rfl, first, second, same, third, same'⟩ := same.headed
      obtain ⟨test, derived, bare⟩ := ih same
      obtain ⟨yes, derived', bare'⟩ := ih' same'
      exact ⟨_, .ifThen (first.trans isIf) (second.trans opens) derived (third.trans closes)
        derived', by simp [Stmt.bare, bare, bare']⟩
  | ifElse isIf opens _ closes _ closed isElse _ ih ih' ih'' =>
      obtain ⟨_, _, _, rfl, front, fourth, same''⟩ := same.joined
      obtain ⟨_, _, _, _, _, rfl, first, second, same, third, same'⟩ := front.headed
      obtain ⟨test, derived, bare⟩ := ih same
      obtain ⟨yes, derived', bare'⟩ := ih' same'
      obtain ⟨no, derived'', bare''⟩ := ih'' same''
      have closed' : yes.endsOpen = false := by
        rw [← Stmt.endsOpen_bare, bare', Stmt.endsOpen_bare, closed]
      exact ⟨_, .ifElse (first.trans isIf) (second.trans opens) derived (third.trans closes)
        derived' closed' (fourth.trans isElse) derived'', by simp [Stmt.bare, bare, bare', bare'']⟩
  | loop isWhile opens _ closes _ ih ih' =>
      obtain ⟨_, _, _, _, _, rfl, first, second, same, third, same'⟩ := same.headed
      obtain ⟨test, derived, bare⟩ := ih same
      obtain ⟨body, derived', bare'⟩ := ih' same'
      exact ⟨_, .loop (first.trans isWhile) (second.trans opens) derived (third.trans closes)
        derived', by simp [Stmt.bare, bare, bare']⟩
  | expression _ ends ih =>
      obtain ⟨us', stop, rfl, same, last⟩ := same.unsnoc
      obtain ⟨other, derived, bare⟩ := ih same
      exact ⟨_, .expression derived (last.trans ends), by simp [Stmt.bare, bare]⟩
  | nothing =>
      obtain rfl : us = [] := List.map_eq_nil_iff.mp same
      exact ⟨[], .nothing, rfl⟩
  | statements _ _ ih ih' =>
      obtain ⟨_, _, rfl, same, same'⟩ := same.split
      obtain ⟨first, derived, bare⟩ := ih same
      obtain ⟨others, derived', bare'⟩ := ih' same'
      exact ⟨_, .statements derived derived', by simp [bareBody, bare, bare']⟩

end Syntax

end StackScript
