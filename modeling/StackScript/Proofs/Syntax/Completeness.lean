/-
# Readers find every derivation

Tokens that are derived from a phrase are read as that phrase, with the tree that they are
derived for, whatever comes behind them that does not carry the phrase on. The numbers that bound
the recursion of the readers are large enough when they exceed the number of tokens.

A layer is recursive to the left, but its reader goes from left to right. After the tokens of a
chain the reader is therefore in the midst of the chain, with its value as the left operand; if
no operator of the layer follows, the chain is complete.
-/

import StackScript.Proofs.Syntax.Soundness

namespace StackScript

namespace Reader

/-- A reader gives a value and leaves the rest of the tokens. -/
def Reads {α : Type} (reader : Reader α) (tokens : List Token) (value : α) (rest : List Token) :
    Prop :=
  reader tokens = .ok (value, rest)

variable {α β : Type} {reader : Reader α} {f : α → Reader β} {tokens mid rest : List Token}
  {token : Token}

theorem Reads.bind {first : α} {value : β} (h : reader.Reads tokens first mid)
    (next : (f first).Reads mid value rest) : (reader >>= f).Reads tokens value rest := by
  change (reader tokens >>= fun p => f p.1 p.2) = .ok (value, rest)
  rw [h]
  exact next

theorem Reads.pure (value : α) : (pure value : Reader α).Reads tokens value tokens := rfl

theorem reads_next : next.Reads (token :: rest) token rest := rfl

theorem reads_kindAfter (count : Nat) :
    (kindAfter count).Reads tokens (tokens[count]?.map Token.kind) tokens := rfl

theorem reads_expect {kinds : List TokenKind} (met : token.kind ∈ kinds) :
    (expect kinds).Reads (token :: rest) token rest :=
  if_pos (List.contains_iff_mem.mpr met)

theorem reads_mark {mark : Punctuator} (met : token.kind = .punctuator mark) :
    (Reader.mark mark).Reads (token :: rest) () rest :=
  (reads_expect (List.mem_singleton.mpr met)).bind (.pure ())

theorem reads_accept {kind : TokenKind} (met : token.kind = kind) :
    (accept kind).Reads (token :: rest) true rest :=
  congrArg Except.ok (if_pos met)

theorem reads_accept_other {kind : TokenKind} (unmet : tokens[0]?.map Token.kind ≠ some kind) :
    (accept kind).Reads tokens false tokens := by
  cases tokens with
  | nil => rfl
  | cons first more =>
      have other : first.kind ≠ kind := fun same => unmet (congrArg some same)
      exact congrArg Except.ok (if_neg other)

section Lists

variable {item : Reader α} {first : α} {others : List α} {left right : Token} {count : Nat}

theorem reads_last (h : item.Reads tokens first (right :: rest))
    (closes : right.kind = .punctuator .rightParen) :
    (itemsToParen item (count + 1)).Reads tokens [first] rest := by
  refine h.bind ((reads_expect (by simp [closes])).bind ?_)
  rw [if_pos closes]
  exact .pure _

theorem reads_more (h : item.Reads tokens first (token :: mid))
    (isComma : token.kind = .punctuator .comma) (h' : (itemsToParen item count).Reads mid others rest) :
    (itemsToParen item (count + 1)).Reads tokens (first :: others) rest := by
  refine h.bind ((reads_expect (by simp [isComma])).bind ?_)
  rw [if_neg (by simp [isComma])]
  exact h'.bind (.pure _)

theorem reads_empty (opens : left.kind = .punctuator .leftParen)
    (closes : right.kind = .punctuator .rightParen) :
    (parenthesized count item).Reads (left :: right :: rest) [] rest :=
  (reads_mark opens).bind ((reads_accept closes).bind (.pure _))

theorem reads_filled (opens : left.kind = .punctuator .leftParen)
    (filled : tokens[0]?.map Token.kind ≠ some (.punctuator .rightParen))
    (h : (itemsToParen item count).Reads tokens others rest) :
    (parenthesized count item).Reads (left :: tokens) others rest :=
  (reads_mark opens).bind ((reads_accept_other filled).bind h)

theorem reads_closed (closes : right.kind = .punctuator .rightBrace) :
    (itemsToBrace item (count + 1)).Reads (right :: rest) [] rest :=
  (reads_accept closes).bind (.pure _)

theorem reads_inside (filled : tokens[0]?.map Token.kind ≠ some (.punctuator .rightBrace))
    (h : item.Reads tokens first mid) (h' : (itemsToBrace item count).Reads mid others rest) :
    (itemsToBrace item (count + 1)).Reads tokens (first :: others) rest :=
  (reads_accept_other filled).bind (h.bind (h'.bind (.pure _)))

end Lists

end Reader

/-- May an expression begin with a token of this kind? -/
def TokenKind.beginsExpr : TokenKind → Bool
  | number | string | name => true
  | keyword .kwNull | keyword .kwTrue | keyword .kwFalse => true
  | punctuator .minus | punctuator .bang | punctuator .leftParen => true
  | _ => false

/-- May a statement begin with a token of this kind? -/
def TokenKind.beginsStmt : TokenKind → Bool
  | punctuator .leftBrace => true
  | keyword .kwPrint | keyword .kwLet | keyword .kwFn => true
  | keyword .kwReturn | keyword .kwIf | keyword .kwWhile => true
  | kind => kind.beginsExpr

namespace Syntax

/-- Tokens begin with one of a certain kind. -/
def Begins (kinds : TokenKind → Bool) (tokens : List Token) : Prop :=
  ∃ token more, tokens = token :: more ∧ kinds token.kind

theorem Begins.append {kinds : TokenKind → Bool} {tokens : List Token} (h : Begins kinds tokens)
    (more : List Token) : Begins kinds (tokens ++ more) := by
  obtain ⟨token, rest, rfl, kind⟩ := h
  exact ⟨token, rest ++ more, rfl, kind⟩

/-- No other kind of token is in front. -/
theorem Begins.ne {kinds : TokenKind → Bool} {tokens : List Token} (h : Begins kinds tokens)
    {kind : TokenKind} (other : kinds kind = false) : tokens[0]?.map Token.kind ≠ some kind := by
  obtain ⟨token, rest, rfl, met⟩ := h
  intro same
  rw [Option.some.inj same, other] at met
  cases met

theorem begins_of_kind {kinds : TokenKind → Bool} {token : Token} {kind : TokenKind}
    (h : token.kind = kind) (met : kinds kind) (more : List Token) :
    Begins kinds (token :: more) :=
  ⟨token, more, rfl, h ▸ met⟩

/-- What the tokens of a phrase begin with. An expression has no equals sign in it. -/
def Phrase.Shaped (tokens : List Token) : Phrase → Prop
  | .layer _ _ | .items _ =>
    Begins TokenKind.beginsExpr tokens ∧ ∀ token ∈ tokens, token.kind ≠ .punctuator .equal
  | .arguments _ =>
    Begins (· = .punctuator .leftParen) tokens ∧ ∀ token ∈ tokens, token.kind ≠ .punctuator .equal
  | .names _ => Begins (· = .name) tokens
  | .parameters _ => True
  | .statement _ => Begins TokenKind.beginsStmt tokens
  | .statements _ => tokens = [] ∨ Begins TokenKind.beginsStmt tokens

theorem beginsExpr_of_literal {token : Token} {value : Literal}
    (h : token.literal? = some value) : token.kind.beginsExpr := by
  unfold Token.literal? at h
  split at h <;> simp_all [TokenKind.beginsExpr]

theorem beginsStmt_of_expr {kind : TokenKind} (h : kind.beginsExpr) : kind.beginsStmt := by
  unfold TokenKind.beginsStmt
  split <;> first | rfl | exact h

theorem unaryMark_begins (op : UnaryOp) :
    (TokenKind.punctuator op.mark).beginsExpr ∧ op.mark ≠ .equal := by
  cases op <;> decide

theorem binaryMark_ne (op : BinaryOp) : op.mark ≠ .equal := by
  cases op <;> decide

theorem Derives.shaped {p : Phrase} {tokens : List Token} (h : Derives p tokens) :
    p.Shaped tokens := by
  induction h with
  | literal is =>
      have begins := beginsExpr_of_literal is
      refine ⟨⟨_, [], rfl, begins⟩, ?_⟩
      rw [List.forall_mem_singleton]
      intro equal
      rw [equal] at begins
      cases begins
  | reference isName => exact ⟨begins_of_kind isName rfl [], by simp [isName]⟩
  | call isName _ ih =>
      exact ⟨begins_of_kind isName rfl _, List.forall_mem_cons.mpr ⟨by simp [isName], ih.2⟩⟩
  | parentheses opens _ closes ih =>
      refine ⟨begins_of_kind opens rfl _, ?_⟩
      simp only [List.cons_append, List.forall_mem_cons, List.forall_mem_append]
      exact ⟨by simp [opens], ih.2, by simp [closes]⟩
  | @unary _ _ op _ _ listed kind _ ih =>
      obtain rfl := mem_unaryMarks.mp listed
      obtain ⟨begins, other⟩ := unaryMark_begins op
      exact ⟨begins_of_kind kind begins _,
        List.forall_mem_cons.mpr ⟨by simpa [kind] using other, ih.2⟩⟩
  | tighter _ _ ih => exact ih
  | @binary _ _ _ op _ _ _ _ listed _ kind _ left right =>
      obtain ⟨rfl, rfl⟩ := mem_binaryMarks.mp listed
      refine ⟨left.1.append _, ?_⟩
      simp only [List.forall_mem_append, List.forall_mem_cons]
      exact ⟨left.2, by simpa [kind] using binaryMark_ne op, right.2⟩
  | item _ ih => exact ih
  | moreItems _ isComma _ first rest =>
      refine ⟨first.1.append _, ?_⟩
      simp only [List.forall_mem_append, List.forall_mem_cons]
      exact ⟨first.2, by simp [isComma], rest.2⟩
  | noArguments opens closes =>
      exact ⟨⟨_, _, rfl, by simp [opens]⟩, by simp [opens, closes]⟩
  | arguments opens _ closes ih =>
      refine ⟨⟨_, _, rfl, by simp [opens]⟩, ?_⟩
      simp only [List.cons_append, List.forall_mem_cons, List.forall_mem_append]
      exact ⟨by simp [opens], ih.2, by simp [closes]⟩
  | name isName | moreNames isName => exact ⟨_, _, rfl, by simp [isName]⟩
  | noParameters | parameters => trivial
  | block kind | print kind | declare kind | function kind | returnNothing kind
  | returnValue kind | ifThen kind | ifElse kind | loop kind | assign kind =>
      exact begins_of_kind kind rfl _
  | expression _ _ ih =>
      obtain ⟨token, more, rfl, kind⟩ := ih.1
      exact ⟨token, _, rfl, beginsStmt_of_expr kind⟩
  | nothing => exact .inl rfl
  | statements _ _ first => exact .inr (first.append _)

open Reader (Reads reads_next reads_kindAfter reads_expect reads_mark reads_accept
  reads_accept_other)

section Layers

/-- The reader of the layer that is so many steps looser than the operands. -/
def looser (bound : Nat) (operand : Reader Expr) : Nat → Reader Expr
  | 0 => operand
  | steps + 1 => chain bound (4 - steps) (looser bound operand steps)

/-- The reader of the layer of some tightness. -/
def layerAt (bound depth tightness : Nat) : Reader Expr :=
  looser bound (operand bound depth) (5 - tightness)

theorem layerAt_eq (bound depth : Nat) {tightness : Nat} (loose : tightness < 5) :
    layerAt bound depth tightness =
      chain bound tightness (layerAt bound depth (tightness + 1)) := by
  have steps : 5 - tightness = (5 - (tightness + 1)) + 1 := by omega
  have same : 4 - (5 - (tightness + 1)) = tightness := by omega
  rw [layerAt, steps, looser, same]
  rfl

/-- What is in front does not carry on an expression of some layer. -/
def Stops (tightness : Nat) (tokens : List Token) : Prop :=
  tokens[0]?.map Token.kind ≠ some (.punctuator .leftParen) ∧
    ∀ op : BinaryOp, tokens[0]?.map Token.kind = some (.punctuator op.mark) →
      op.tightness < tightness

variable {tightness bound depth : Nat} {tokens rest : List Token} {value : Expr}
  {inner : Reader Expr}

theorem Stops.mono {looser : Nat} (h : Stops tightness tokens) (le : tightness ≤ looser) :
    Stops looser tokens :=
  ⟨h.1, fun op found => Nat.lt_of_lt_of_le (h.2 op found) le⟩

/-- A punctuator that is no operator stops every layer. -/
theorem stops_of_kind {token : Token} {mark : Punctuator} (h : token.kind = .punctuator mark)
    (other : mark ≠ .leftParen) (none : BinaryOp.ofMark? mark = none) (rest : List Token) :
    Stops tightness (token :: rest) := by
  constructor
  · simpa [h] using other
  · intro op found
    have same : token.kind = .punctuator op.mark := Option.some.inj found
    rw [h] at same
    rw [TokenKind.punctuator.inj same, BinaryOp.ofMark?_mark] at none
    cases none

/-- An operator stops the layers that are tighter. -/
theorem stops_of_operator {sign : Token} {op : BinaryOp} (h : sign.kind = .punctuator op.mark)
    (rest : List Token) : Stops (op.tightness + 1) (sign :: rest) := by
  constructor
  · simp only [List.getElem?_cons_zero, Option.map_some, h]
    cases op <;> decide
  · intro other found
    have same := TokenKind.punctuator.inj (h.symm.trans (Option.some.inj found))
    have known := BinaryOp.ofMark?_mark op
    rw [same, BinaryOp.ofMark?_mark] at known
    rw [Option.some.inj known]
    exact Nat.lt_succ_self _

theorem reads_operator {sign : Token} {op : BinaryOp} (h : sign.kind = .punctuator op.mark) :
    (acceptOperator op.tightness).Reads (sign :: rest) (some op) rest := by
  apply (reads_kindAfter 0).bind
  have kind : (sign :: rest)[0]?.map Token.kind = some (.punctuator op.mark) := congrArg some h
  rw [kind]
  simp only [BinaryOp.ofMark?_mark, if_true]
  exact reads_next.bind (.pure _)

theorem reads_no_operator (h : Stops tightness tokens) :
    (acceptOperator tightness).Reads tokens none tokens := by
  apply (reads_kindAfter 0).bind
  split
  · rename_i mark found
    split
    · rename_i op known
      rw [ofMark?_eq_some known] at found
      rw [if_neg (Nat.ne_of_lt (h.2 op found))]
      exact .pure _
    · exact .pure _
  · exact .pure _

theorem chainFrom_stops (h : Stops tightness tokens) (count : Nat) (left : Expr) :
    (chainFrom tightness inner count left).Reads tokens left tokens := by
  cases count with
  | zero => exact .pure _
  | succ count => exact (reads_no_operator h).bind (.pure _)

/-- An expression of a layer is read, or a chain of the layer is under way. -/
structure LayerRead (bound depth tightness : Nat) (tokens : List Token) (value : Expr) : Prop where
  whole : ∀ rest, Stops tightness rest →
    (layerAt bound depth tightness).Reads (tokens ++ rest) value rest
  chain : tightness < 5 → ∀ rest, Stops (tightness + 1) rest → ∃ count,
    bound ≤ count + tokens.length ∧ layerAt bound depth tightness (tokens ++ rest) =
      chainFrom tightness (layerAt bound depth (tightness + 1)) count value rest

/-- A chain that is under way ends where it stops. -/
theorem LayerRead.of_chain
    (h : ∀ rest, Stops (tightness + 1) rest → ∃ count, bound ≤ count + tokens.length ∧
      layerAt bound depth tightness (tokens ++ rest) =
        chainFrom tightness (layerAt bound depth (tightness + 1)) count value rest) :
    LayerRead bound depth tightness tokens value where
  whole := by
    intro rest stops
    obtain ⟨count, -, same⟩ := h rest (stops.mono (Nat.le_succ tightness))
    exact same.trans (chainFrom_stops stops count value)
  chain := fun _ => h

/-- An operand is read as a whole. -/
theorem LayerRead.of_operand
    (h : ∀ rest, Stops 5 rest → (operand bound depth).Reads (tokens ++ rest) value rest) :
    LayerRead bound depth 5 tokens value where
  whole := h
  chain := fun absurd => (Nat.lt_irrefl 5 absurd).elim

theorem LayerRead.tighter (loose : tightness < 5)
    (h : LayerRead bound depth (tightness + 1) tokens value) :
    LayerRead bound depth tightness tokens value := by
  refine .of_chain fun rest stops => ⟨bound, Nat.le_add_right _ _, ?_⟩
  rw [layerAt_eq bound depth loose]
  change (layerAt bound depth (tightness + 1) (tokens ++ rest) >>= fun p =>
    chainFrom tightness _ bound p.1 p.2) = _
  rw [h.whole rest stops]
  rfl

/-- A chain is carried on by an operator of its layer. -/
theorem LayerRead.binary {sign : Token} {op : BinaryOp} {left right : Expr} {ts us : List Token}
    (kind : sign.kind = .punctuator op.mark) (small : (ts ++ sign :: us).length < bound)
    (h : LayerRead bound depth op.tightness ts left)
    (h' : LayerRead bound depth (op.tightness + 1) us right) :
    LayerRead bound depth op.tightness (ts ++ sign :: us)
      (.binary left.location op left right) := by
  have loose : op.tightness < 5 := by cases op <;> decide
  refine .of_chain fun rest stops => ?_
  obtain ⟨count, enough, same⟩ := h.chain loose (sign :: (us ++ rest)) (stops_of_operator kind _)
  rw [List.length_append, List.length_cons] at small
  obtain ⟨count, rfl⟩ : ∃ more, count = more + 1 := ⟨count - 1, by omega⟩
  refine ⟨count, by simp only [List.length_append, List.length_cons]; omega, ?_⟩
  rw [List.append_assoc, List.cons_append, same, chainFrom]
  change (acceptOperator op.tightness (sign :: (us ++ rest)) >>= fun p => _) = _
  rw [reads_operator kind]
  change (layerAt bound depth (op.tightness + 1) (us ++ rest) >>= fun p => _) = _
  rw [h'.whole rest stops]
  rfl

end Layers

/-- An expression is read up to what stops it. -/
def ExprRead (reader : Reader Expr) (tokens : List Token) (value : Expr) : Prop :=
  ∀ rest, Stops 1 rest → reader.Reads (tokens ++ rest) value rest

section Operands

variable {deeper : Reader Expr} {bound : Nat} {rest ts : List Token} {token : Token} {value : Expr}

theorem reads_literal {found : Literal} (is : token.literal? = some found) :
    (operandStep bound deeper).Reads (token :: rest) (.literal token.location found) rest := by
  apply reads_next.bind
  unfold Token.literal? at is
  split at is
  case h_1 kind | h_2 kind | h_3 kind | h_4 kind | h_5 kind =>
    cases is
    simp only [kind]
    exact .pure _
  case h_6 => cases is

theorem reads_reference (isName : token.kind = .name)
    (other : rest[0]?.map Token.kind ≠ some (.punctuator .leftParen)) :
    (operandStep bound deeper).Reads (token :: rest) (.reference token.location token.text)
      rest := by
  apply reads_next.bind
  simp only [isName]
  apply (reads_kindAfter 0).bind
  rw [if_neg other]
  exact .pure _

theorem reads_call {values : List Expr} (isName : token.kind = .name)
    (opens : Begins (· = .punctuator .leftParen) ts)
    (h : (Reader.parenthesized bound (layered bound deeper)).Reads (ts ++ rest) values rest) :
    (operandStep bound deeper).Reads (token :: ts ++ rest)
      (.call token.location token.text values) rest := by
  obtain ⟨left, more, rfl, kind⟩ := opens
  apply reads_next.bind
  simp only [isName]
  apply (reads_kindAfter 0).bind
  have found : (left :: more ++ rest)[0]?.map Token.kind = some (.punctuator .leftParen) :=
    congrArg some (of_decide_eq_true kind)
  rw [if_pos (by exact found)]
  exact h.bind (.pure _)

theorem reads_parentheses {right : Token} (opens : token.kind = .punctuator .leftParen)
    (h : ExprRead (layered bound deeper) ts value) (closes : right.kind = .punctuator .rightParen) :
    (operandStep bound deeper).Reads (token :: ts ++ [right] ++ rest) value rest := by
  rw [List.append_assoc]
  apply reads_next.bind
  simp only [opens]
  apply (h _ (stops_of_kind closes (by decide) rfl rest)).bind
  exact (reads_mark closes).bind (.pure _)

theorem reads_unary {op : UnaryOp} (kind : token.kind = .punctuator op.mark)
    (h : deeper.Reads (ts ++ rest) value rest) :
    (operandStep bound deeper).Reads (token :: ts ++ rest) (.unary token.location op value)
      rest := by
  apply reads_next.bind
  cases op with
  | negate =>
      simp only [show token.kind = .punctuator .minus from kind]
      exact h.bind (.pure _)
  | not =>
      simp only [show token.kind = .punctuator .bang from kind]
      exact h.bind (.pure _)

end Operands

section Statements

variable {inner : Reader Expr} {deeper : Reader Stmt} {bound : Nat} {rest ts us : List Token}
  {word : Token} {value : Expr}

theorem reads_finished {stop : Token} (h : ExprRead inner ts value)
    (ends : stop.kind = .punctuator .semicolon) :
    (finished inner).Reads (ts ++ stop :: rest) value rest :=
  (h _ (stops_of_kind ends (by decide) rfl rest)).bind ((reads_mark ends).bind (.pure _))

theorem reads_condition {left right : Token} (opens : left.kind = .punctuator .leftParen)
    (h : ExprRead inner ts value) (closes : right.kind = .punctuator .rightParen) :
    (condition inner).Reads (left :: ts ++ right :: rest) value rest :=
  (reads_mark opens).bind
    ((h _ (stops_of_kind closes (by decide) rfl rest)).bind ((reads_mark closes).bind (.pure _)))

theorem reads_binding {name equal stop : Token} (isName : name.kind = .name)
    (isEqual : equal.kind = .punctuator .equal) (h : ExprRead inner ts value)
    (ends : stop.kind = .punctuator .semicolon) :
    (binding inner).Reads (name :: equal :: ts ++ stop :: rest) (name, value) rest :=
  (reads_expect (List.mem_singleton.mpr isName)).bind
    ((reads_mark isEqual).bind ((reads_finished h ends).bind (.pure _)))

theorem reads_block {right : Token} {body : List Stmt} (opens : word.kind = .punctuator .leftBrace)
    (h : (Reader.itemsToBrace deeper bound).Reads (ts ++ right :: rest) body rest) :
    (statementStep bound inner deeper).Reads (word :: ts ++ [right] ++ rest)
      (.block word.location body) rest := by
  apply (reads_kindAfter 0).bind
  simp only [List.cons_append, List.getElem?_cons_zero, Option.map_some, opens,
    List.append_assoc, List.nil_append]
  exact reads_next.bind (h.bind (.pure _))

theorem reads_print {stop : Token} (isPrint : word.kind = .keyword .kwPrint)
    (h : ExprRead inner ts value) (ends : stop.kind = .punctuator .semicolon) :
    (statementStep bound inner deeper).Reads (word :: ts ++ [stop] ++ rest)
      (.print word.location value) rest := by
  apply (reads_kindAfter 0).bind
  simp only [List.cons_append, List.getElem?_cons_zero, Option.map_some, isPrint,
    List.append_assoc, List.nil_append]
  exact reads_next.bind ((reads_finished h ends).bind (.pure _))

theorem reads_declare {name equal stop : Token} (isLet : word.kind = .keyword .kwLet)
    (isName : name.kind = .name) (isEqual : equal.kind = .punctuator .equal)
    (h : ExprRead inner ts value) (ends : stop.kind = .punctuator .semicolon) :
    (statementStep bound inner deeper).Reads (word :: name :: equal :: ts ++ [stop] ++ rest)
      (.declare word.location name.text value) rest := by
  apply (reads_kindAfter 0).bind
  simp only [List.cons_append, List.getElem?_cons_zero, Option.map_some, isLet,
    List.append_assoc, List.nil_append]
  exact reads_next.bind ((reads_binding isName isEqual h ends).bind (.pure _))

theorem reads_assign {name equal stop : Token} (isName : name.kind = .name)
    (isEqual : equal.kind = .punctuator .equal) (h : ExprRead inner ts value)
    (ends : stop.kind = .punctuator .semicolon) :
    (statementStep bound inner deeper).Reads (name :: equal :: ts ++ [stop] ++ rest)
      (.assign name.location name.text value) rest := by
  apply (reads_kindAfter 0).bind
  simp only [List.cons_append, List.getElem?_cons_zero, Option.map_some, isName,
    List.append_assoc, List.nil_append]
  apply (reads_kindAfter 1).bind
  simp only [List.getElem?_cons_succ, List.getElem?_cons_zero, Option.map_some, isEqual, if_true]
  exact (reads_binding isName isEqual h ends).bind (.pure _)

theorem reads_function {name left right : Token} {parameters : List Parameter} {body : List Stmt}
    (isFn : word.kind = .keyword .kwFn) (isName : name.kind = .name)
    (h : ∀ rest, (Reader.parenthesized bound parameter).Reads (ts ++ rest) parameters rest)
    (opens : left.kind = .punctuator .leftBrace)
    (h' : (Reader.itemsToBrace deeper bound).Reads (us ++ right :: rest) body rest) :
    (statementStep bound inner deeper).Reads (word :: name :: ts ++ left :: us ++ [right] ++ rest)
      (.function word.location name.text parameters left.location body) rest := by
  apply (reads_kindAfter 0).bind
  simp only [List.cons_append, List.getElem?_cons_zero, Option.map_some, isFn,
    List.append_assoc, List.nil_append]
  exact reads_next.bind ((reads_expect (List.mem_singleton.mpr isName)).bind ((h _).bind
    ((reads_expect (List.mem_singleton.mpr opens)).bind (h'.bind (.pure _)))))

theorem reads_return {stop : Token} (isReturn : word.kind = .keyword .kwReturn)
    (ends : stop.kind = .punctuator .semicolon) :
    (statementStep bound inner deeper).Reads ([word, stop] ++ rest) (.ret word.location none)
      rest := by
  apply (reads_kindAfter 0).bind
  simp only [List.cons_append, List.getElem?_cons_zero, Option.map_some, isReturn,
    List.nil_append]
  exact reads_next.bind ((reads_accept ends).bind (.pure _))

theorem reads_returnValue {stop : Token} (isReturn : word.kind = .keyword .kwReturn)
    (begins : Begins TokenKind.beginsExpr ts) (h : ExprRead inner ts value)
    (ends : stop.kind = .punctuator .semicolon) :
    (statementStep bound inner deeper).Reads (word :: ts ++ [stop] ++ rest)
      (.ret word.location (some value)) rest := by
  apply (reads_kindAfter 0).bind
  simp only [List.cons_append, List.getElem?_cons_zero, Option.map_some, isReturn,
    List.append_assoc, List.nil_append]
  refine reads_next.bind ((reads_accept_other ((begins.append _).ne rfl)).bind ?_)
  exact (reads_finished h ends).bind (.pure _)

theorem reads_ifThen {left right : Token} {yes : Stmt} (isIf : word.kind = .keyword .kwIf)
    (opens : left.kind = .punctuator .leftParen) (h : ExprRead inner ts value)
    (closes : right.kind = .punctuator .rightParen) (h' : deeper.Reads (us ++ rest) yes rest)
    (noElse : NoElse rest) :
    (statementStep bound inner deeper).Reads (word :: left :: ts ++ right :: us ++ rest)
      (.ifThen word.location value yes) rest := by
  apply (reads_kindAfter 0).bind
  simp only [List.cons_append, List.getElem?_cons_zero, Option.map_some, isIf, List.append_assoc]
  exact reads_next.bind ((reads_condition opens h closes).bind
    (h'.bind ((reads_accept_other noElse).bind (.pure _))))

theorem reads_ifElse {left right other : Token} {yes no : Stmt} {vs : List Token}
    (isIf : word.kind = .keyword .kwIf) (opens : left.kind = .punctuator .leftParen)
    (h : ExprRead inner ts value) (closes : right.kind = .punctuator .rightParen)
    (h' : deeper.Reads (us ++ other :: (vs ++ rest)) yes (other :: (vs ++ rest)))
    (isElse : other.kind = .keyword .kwElse) (h'' : deeper.Reads (vs ++ rest) no rest) :
    (statementStep bound inner deeper).Reads
      (word :: left :: ts ++ right :: us ++ other :: vs ++ rest)
      (.ifElse word.location value yes no) rest := by
  apply (reads_kindAfter 0).bind
  simp only [List.cons_append, List.getElem?_cons_zero, Option.map_some, isIf, List.append_assoc]
  exact reads_next.bind ((reads_condition opens h closes).bind
    (h'.bind ((reads_accept isElse).bind (h''.bind (.pure _)))))

theorem reads_loop {left right : Token} {body : Stmt} (isWhile : word.kind = .keyword .kwWhile)
    (opens : left.kind = .punctuator .leftParen) (h : ExprRead inner ts value)
    (closes : right.kind = .punctuator .rightParen) (h' : deeper.Reads (us ++ rest) body rest) :
    (statementStep bound inner deeper).Reads (word :: left :: ts ++ right :: us ++ rest)
      (.loop word.location value body) rest := by
  apply (reads_kindAfter 0).bind
  simp only [List.cons_append, List.getElem?_cons_zero, Option.map_some, isWhile,
    List.append_assoc]
  exact reads_next.bind ((reads_condition opens h closes).bind (h'.bind (.pure _)))

/-- Behind the name that an expression begins with there is no equals sign. -/
theorem reads_expression {stop : Token} (begins : Begins TokenKind.beginsExpr ts)
    (noEqual : ∀ token ∈ ts, token.kind ≠ .punctuator .equal) (h : ExprRead inner ts value)
    (ends : stop.kind = .punctuator .semicolon) :
    (statementStep bound inner deeper).Reads (ts ++ [stop] ++ rest)
      (.expression value.location value) rest := by
  rw [List.append_assoc]
  have bare : (do
      let value ← finished inner
      return .expression value.location value : Reader Stmt).Reads (ts ++ stop :: rest)
        (.expression value.location value) rest :=
    (reads_finished h ends).bind (.pure _)
  have noEqual_second : (ts ++ stop :: rest)[1]?.map Token.kind ≠ some (.punctuator .equal) := by
    obtain ⟨token, more, rfl, -⟩ := begins
    cases more with
    | nil => simp [ends]
    | cons second more => simpa using noEqual second (by simp)
  have ne {kind : TokenKind} (other : kind.beginsExpr = false) :
      (ts ++ stop :: rest)[0]?.map Token.kind ≠ some kind := (begins.append _).ne other
  apply (reads_kindAfter 0).bind
  split
  case h_1 kind | h_2 kind | h_3 kind | h_4 kind | h_5 kind | h_6 kind | h_7 kind =>
    exact absurd kind (ne rfl)
  case h_8 =>
    apply (reads_kindAfter 1).bind
    rw [if_neg (by exact noEqual_second)]
    exact bare
  case h_9 => exact bare

end Statements

/-- Behind a statement that ends in an open conditional come statements or a brace. -/
theorem noElse_of_statements {tokens rest : List Token}
    (h : tokens = [] ∨ Begins TokenKind.beginsStmt tokens) (behind : NoElse rest) :
    NoElse (tokens ++ rest) := by
  obtain rfl | begins := h
  · exact behind
  · exact (begins.append rest).ne rfl

/-- The tokens of a phrase are read where it stands, whatever comes behind that does not carry it
on. A statement that ends in an open conditional is carried on by an `else`. -/
def Phrase.Read (bound depth : Nat) (ts : List Token) : Phrase → Prop
  | .layer tightness value => LayerRead bound depth tightness ts value
  | .items values => ∀ count, ts.length < count → ∀ right rest,
    right.kind = .punctuator .rightParen →
      (Reader.itemsToParen (Syntax.expression bound depth) count).Reads (ts ++ right :: rest) values rest
  | .arguments values => ∀ rest,
    (Reader.parenthesized bound (Syntax.expression bound depth)).Reads (ts ++ rest) values rest
  | .names listed => ∀ count, ts.length < count → ∀ right rest,
    right.kind = .punctuator .rightParen →
      (Reader.itemsToParen parameter count).Reads (ts ++ right :: rest) listed rest
  | .parameters listed => ∀ rest,
    (Reader.parenthesized bound parameter).Reads (ts ++ rest) listed rest
  | .statement st => ∀ rest, (st.endsOpen → NoElse rest) →
    (Syntax.statement bound depth).Reads (ts ++ rest) st rest
  | .statements body => ∀ count, ts.length < count → ∀ right rest,
    right.kind = .punctuator .rightBrace →
      (Reader.itemsToBrace (Syntax.statement bound depth) count).Reads (ts ++ right :: rest) body rest

section Phrases

variable {bound depth : Nat} {ts us : List Token} {value : Expr} {token right : Token}

theorem LayerRead.exprRead (h : LayerRead bound depth 1 ts value) :
    ExprRead (expression bound depth) ts value := h.whole

theorem read_item (h : LayerRead bound depth 1 ts value) :
    (Phrase.items [value]).Read bound depth ts := by
  intro count room right rest closes
  cases count with
  | zero => cases room
  | succ count =>
      exact Reader.reads_last (h.whole _ (stops_of_kind closes (by decide) rfl rest)) closes

theorem read_moreItems {values : List Expr} (h : LayerRead bound depth 1 ts value)
    (isComma : token.kind = .punctuator .comma) (h' : (Phrase.items values).Read bound depth us) :
    (Phrase.items (value :: values)).Read bound depth (ts ++ token :: us) := by
  intro count room right rest closes
  rw [List.length_append, List.length_cons] at room
  cases count with
  | zero => cases room
  | succ count =>
      rw [List.append_assoc]
      exact Reader.reads_more (h.whole _ (stops_of_kind isComma (by decide) rfl _)) isComma
        (h' count (by omega) right rest closes)

theorem read_arguments {values : List Expr} (small : ts.length < bound)
    (opens : token.kind = .punctuator .leftParen) (begins : Begins TokenKind.beginsExpr ts)
    (h : (Phrase.items values).Read bound depth ts) (closes : right.kind = .punctuator .rightParen) :
    (Phrase.arguments values).Read bound depth (token :: ts ++ [right]) := by
  intro rest
  rw [List.append_assoc]
  exact Reader.reads_filled opens ((begins.append _).ne rfl) (h bound small right rest closes)

theorem read_name (isName : token.kind = .name) :
    (Phrase.names [⟨token.location, token.text⟩]).Read bound depth [token] := by
  intro count room right rest closes
  cases count with
  | zero => cases room
  | succ count =>
      exact Reader.reads_last ((reads_expect (List.mem_singleton.mpr isName)).bind (.pure _)) closes

theorem read_moreNames {comma : Token} {parameters : List Parameter} (isName : token.kind = .name)
    (isComma : comma.kind = .punctuator .comma)
    (h : (Phrase.names parameters).Read bound depth ts) :
    (Phrase.names (⟨token.location, token.text⟩ :: parameters)).Read bound depth
      (token :: comma :: ts) := by
  intro count room right rest closes
  rw [List.length_cons, List.length_cons] at room
  cases count with
  | zero => cases room
  | succ count =>
      exact Reader.reads_more ((reads_expect (List.mem_singleton.mpr isName)).bind (.pure _))
        isComma (h count (by omega) right rest closes)

theorem read_parameters {parameters : List Parameter} (small : ts.length < bound)
    (opens : token.kind = .punctuator .leftParen) (begins : Begins (· = .name) ts)
    (h : (Phrase.names parameters).Read bound depth ts)
    (closes : right.kind = .punctuator .rightParen) :
    (Phrase.parameters parameters).Read bound depth (token :: ts ++ [right]) := by
  intro rest
  rw [List.append_assoc]
  exact Reader.reads_filled opens ((begins.append _).ne rfl) (h bound small right rest closes)

theorem read_statements {first : Stmt} {others : List Stmt}
    (begins : Begins TokenKind.beginsStmt ts) (behind : us = [] ∨ Begins TokenKind.beginsStmt us)
    (h : (Phrase.statement first).Read bound depth ts)
    (h' : (Phrase.statements others).Read bound depth us) :
    (Phrase.statements (first :: others)).Read bound depth (ts ++ us) := by
  intro count room right rest closes
  obtain ⟨token, more, rfl, -⟩ := id begins
  rw [List.length_append, List.length_cons] at room
  have noElse : NoElse (right :: rest) := by simp [NoElse, closes]
  cases count with
  | zero => cases room
  | succ count =>
      rw [List.append_assoc]
      exact Reader.reads_inside ((begins.append _).ne rfl)
        (h _ fun _ => noElse_of_statements behind noElse)
        (h' count (by omega) right rest closes)

end Phrases

/-- Tokens fit if their number is below the bounds. -/
structure Fits (bound depth : Nat) (tokens : List Token) : Prop where
  small : tokens.length < bound
  deep : tokens.length < depth

theorem Fits.part {bound depth : Nat} {ts us : List Token} (h : Fits bound depth us)
    (le : ts.length ≤ us.length) : Fits bound depth ts :=
  ⟨Nat.lt_of_le_of_lt le h.small, Nat.lt_of_le_of_lt le h.deep⟩

theorem Fits.below {bound depth : Nat} {ts us : List Token} (h : Fits bound (depth + 1) us)
    (lt : ts.length < us.length) : Fits bound depth ts :=
  ⟨Nat.lt_trans lt h.small, Nat.lt_of_lt_of_le lt (Nat.le_of_lt_succ h.deep)⟩

theorem Fits.exists_below {bound depth : Nat} {ts : List Token} (h : Fits bound depth ts) :
    ∃ below, depth = below + 1 :=
  Nat.exists_eq_add_one.mpr (Nat.zero_lt_of_lt h.deep)

/-- What is derived is read, if the tokens fit. Operands and statements are one level above the
operands and statements in them. -/
theorem Derives.read {p : Phrase} {ts : List Token} (h : Derives p ts) {bound depth : Nat}
    (fits : Fits bound depth ts) : p.Read bound depth ts := by
  induction h generalizing depth with
  | literal is =>
      obtain ⟨depth, rfl⟩ := fits.exists_below
      exact LayerRead.of_operand fun _ _ => reads_literal is
  | reference isName =>
      obtain ⟨depth, rfl⟩ := fits.exists_below
      exact LayerRead.of_operand fun _ stops => reads_reference isName stops.1
  | call isName listed ih =>
      obtain ⟨depth, rfl⟩ := fits.exists_below
      exact LayerRead.of_operand fun _ _ =>
        reads_call isName listed.shaped.1 (ih (fits.below (by simp)) _)
  | parentheses opens _ closes ih =>
      obtain ⟨depth, rfl⟩ := fits.exists_below
      exact LayerRead.of_operand fun _ _ =>
        reads_parentheses opens (ih (fits.below (by grind))).whole closes
  | unary listed kind _ ih =>
      obtain rfl := mem_unaryMarks.mp listed
      obtain ⟨depth, rfl⟩ := fits.exists_below
      exact LayerRead.of_operand fun rest stops =>
        reads_unary kind ((ih (fits.below (by simp))).whole rest stops)
  | tighter loose _ ih => exact (ih fits).tighter loose
  | binary listed _ kind _ ih ih' =>
      obtain ⟨rfl, rfl⟩ := mem_binaryMarks.mp listed
      exact LayerRead.binary kind fits.small (ih (fits.part (by simp)))
        (ih' (fits.part (by grind)))
  | item _ ih => exact read_item (ih fits)
  | moreItems _ isComma _ ih ih' =>
      exact read_moreItems (ih (fits.part (by simp))) isComma (ih' (fits.part (by grind)))
  | noArguments opens closes | noParameters opens closes =>
      exact fun _ => Reader.reads_empty opens closes
  | @arguments _ _ _ ts opens listed closes ih =>
      have inside : Fits bound depth ts := fits.part (by grind)
      exact read_arguments inside.small opens listed.shaped.1 (ih inside) closes
  | name isName => exact read_name isName
  | moreNames isName isComma _ ih =>
      exact read_moreNames isName isComma (ih (fits.part (by grind)))
  | @parameters _ _ _ ts opens listed closes ih =>
      have inside : Fits bound depth ts := fits.part (by grind)
      exact read_parameters inside.small opens listed.shaped (ih inside) closes
  | @block _ right _ ts opens _ closes ih =>
      obtain ⟨depth, rfl⟩ := fits.exists_below
      have inside : Fits bound depth ts := fits.below (by grind)
      exact fun rest _ => reads_block opens (ih inside bound inside.small right rest closes)
  | print isPrint _ ends ih =>
      obtain ⟨depth, rfl⟩ := fits.exists_below
      exact fun _ _ => reads_print isPrint (ih (fits.part (by grind))).exprRead ends
  | declare isLet isName isEqual _ ends ih =>
      obtain ⟨depth, rfl⟩ := fits.exists_below
      exact fun _ _ =>
        reads_declare isLet isName isEqual (ih (fits.part (by grind))).exprRead ends
  | assign isName isEqual _ ends ih =>
      obtain ⟨depth, rfl⟩ := fits.exists_below
      exact fun _ _ => reads_assign isName isEqual (ih (fits.part (by grind))).exprRead ends
  | @function _ _ _ right _ _ _ us isFn isName _ opens _ closes ih ih' =>
      obtain ⟨depth, rfl⟩ := fits.exists_below
      have inside : Fits bound depth us := fits.below (by grind)
      exact fun rest _ => reads_function isFn isName (ih (fits.part (by grind))) opens
        (ih' inside bound inside.small right rest closes)
  | returnNothing isReturn ends =>
      obtain ⟨depth, rfl⟩ := fits.exists_below
      exact fun _ _ => reads_return isReturn ends
  | returnValue isReturn derived ends ih =>
      obtain ⟨depth, rfl⟩ := fits.exists_below
      exact fun _ _ => reads_returnValue isReturn derived.shaped.1
        (ih (fits.part (by grind))).exprRead ends
  | ifThen isIf opens _ closes _ ih ih' =>
      obtain ⟨depth, rfl⟩ := fits.exists_below
      exact fun rest noElse => reads_ifThen isIf opens (ih (fits.part (by grind))).exprRead
        closes (ih' (fits.below (by grind)) rest fun _ => noElse rfl) (noElse rfl)
  | ifElse isIf opens _ closes _ closed isElse _ ih ih' ih'' =>
      obtain ⟨depth, rfl⟩ := fits.exists_below
      exact fun rest noElse => reads_ifElse isIf opens (ih (fits.part (by grind))).exprRead
        closes (ih' (fits.below (by grind)) _ fun opened => by simp [closed] at opened) isElse
        (ih'' (fits.below (by grind)) rest noElse)
  | loop isWhile opens _ closes _ ih ih' =>
      obtain ⟨depth, rfl⟩ := fits.exists_below
      exact fun rest noElse => reads_loop isWhile opens (ih (fits.part (by grind))).exprRead
        closes (ih' (fits.below (by grind)) rest noElse)
  | expression derived ends ih =>
      obtain ⟨depth, rfl⟩ := fits.exists_below
      exact fun _ _ => reads_expression derived.shaped.1 derived.shaped.2
        (ih (fits.part (by simp))).exprRead ends
  | nothing =>
      intro count room right rest closes
      obtain ⟨count, rfl⟩ := Nat.exists_eq_add_one.mpr room
      exact Reader.reads_closed closes
  | statements first others ih ih' =>
      exact read_statements first.shaped others.shaped (ih (fits.part (by simp)))
        (ih' (fits.part (by simp)))

section Programs

variable {tokens : List Token} {body : List Stmt} {bound limit : Nat}

/-- The statements of a program are read to the end of the tokens. -/
theorem Derives.statements_read {p : Phrase} (h : Derives p tokens) (of : p = .statements body)
    (fits : Fits bound limit tokens) (ending : Diagnostic) {count : Nat}
    (room : tokens.length ≤ count) :
    Syntax.statements limit bound ending count tokens = .ok body := by
  induction h generalizing body count with
  | nothing =>
      cases of
      cases count <;> rfl
  | @statements first others ts us derived listed _ ih =>
      cases of
      obtain ⟨token, more, rfl, -⟩ := derived.shaped
      rw [List.length_append, List.length_cons] at room
      obtain ⟨count, rfl⟩ : ∃ below, count = below + 1 := ⟨count - 1, by omega⟩
      have behind : NoElse (us ++ []) := noElse_of_statements listed.shaped nofun
      rw [List.append_nil] at behind
      have read : statement bound limit (token :: (more ++ us)) = .ok (first, us) :=
        derived.read (fits.part (by simp)) us fun _ => behind
      have rest : Syntax.statements limit bound ending count us = .ok others :=
        ih rfl (fits.part (by grind)) (by omega)
      rw [List.cons_append, Syntax.statements, read]
      change (return first :: (← Syntax.statements limit bound ending count us)) = _
      rw [rest]
      rfl
  | _ => cases of

variable {stop : Location}

theorem derives_of_programOf (h : programOf limit ⟨tokens, stop, none⟩ = .ok body) :
    Derives (.statements body) (TokenStream.mk tokens stop none).significant := by
  rw [programOf] at h
  cases read : statements limit ((TokenStream.mk tokens stop none).significant.length + 1)
      (ending ⟨tokens, stop, none⟩) ((TokenStream.mk tokens stop none).significant.length + 1)
      (TokenStream.mk tokens stop none).significant with
  | error problem =>
      rw [read] at h
      cases h
  | ok found =>
      rw [read] at h
      cases h
      exact statements_sound read

theorem programOf_of_derives
    (h : Derives (.statements body) (TokenStream.mk tokens stop none).significant)
    (deep : (TokenStream.mk tokens stop none).significant.length < limit) :
    programOf limit ⟨tokens, stop, none⟩ = .ok body := by
  rw [programOf, h.statements_read rfl ⟨Nat.lt_succ_self _, deep⟩ _ (Nat.le_succ _)]
  rfl

end Programs

end Syntax

end StackScript
