/-
# Nesting

How deeply the tokens of a statement nest. Operators in front of an operand, parentheses, the
arguments of calls, and the statements in blocks, functions, conditionals and loops lead one level
down. What has been passed on the way there is complete and has no influence.

A reader finds the nesting too deep only where it is: the statement that it reads goes further down
than the reader may.
-/

import StackScript.Proofs.Syntax.Concatenation

namespace StackScript

namespace Syntax

/-- What a place in a text is the beginning of. Items are the arguments of a call, and the body of
a block are the statements in it. -/
inductive Construct where
  | operand
  | expression
  | items
  | statement
  | body

/-- The tokens between the beginning of a statement and that of an expression in it. -/
def expressionLeads : List (List TokenKind) :=
  [[], [.keyword .kwPrint], [.keyword .kwLet, .name, .punctuator .equal],
    [.name, .punctuator .equal], [.keyword .kwReturn],
    [.keyword .kwIf, .punctuator .leftParen], [.keyword .kwWhile, .punctuator .leftParen]]

/-- Tokens that begin a construct have an operand or a statement of it the given number of levels
below where they begin. Nothing is said of what comes behind that place. -/
inductive Nests : Construct → Nat → List Token → Prop
  | operand {ts : List Token} : Nests .operand 0 ts
  | statement {ts : List Token} : Nests .statement 0 ts
  | unary {sign : Token} {mark : Punctuator} {op : UnaryOp} {levels : Nat} {ts : List Token} :
      (mark, op) ∈ unaryMarks → sign.kind = .punctuator mark → Nests .operand levels ts →
        Nests .operand (levels + 1) (sign :: ts)
  | parentheses {left : Token} {levels : Nat} {ts : List Token} :
      left.kind = .punctuator .leftParen → Nests .expression levels ts →
        Nests .operand (levels + 1) (left :: ts)
  | call {name left : Token} {levels : Nat} {ts : List Token} : name.kind = .name →
      left.kind = .punctuator .leftParen →
        ts[0]?.map Token.kind ≠ some (.punctuator .rightParen) → Nests .items levels ts →
          Nests .operand (levels + 1) (name :: left :: ts)
  | firstOperand {levels : Nat} {ts : List Token} : Nests .operand levels ts →
      Nests .expression levels ts
  | laterOperand {sign : Token} {mark : Punctuator} {op : BinaryOp} {tightness levels : Nat}
      {value : Expr} {ts us : List Token} : Derives (.operand value) ts →
      (mark, op) ∈ binaryMarks tightness → sign.kind = .punctuator mark →
        Nests .expression levels us → Nests .expression levels (ts ++ sign :: us)
  | firstItem {levels : Nat} {ts : List Token} : Nests .expression levels ts →
      Nests .items levels ts
  | laterItem {comma : Token} {levels : Nat} {value : Expr} {ts us : List Token} :
      Derives (.expression value) ts → comma.kind = .punctuator .comma →
        Nests .items levels us → Nests .items levels (ts ++ comma :: us)
  | value {levels : Nat} {lead ts : List Token} : lead.map Token.kind ∈ expressionLeads →
      Nests .expression levels ts → Nests .statement levels (lead ++ ts)
  | block {left : Token} {levels : Nat} {ts : List Token} : left.kind = .punctuator .leftBrace →
      Nests .body levels ts → Nests .statement (levels + 1) (left :: ts)
  | function {word name left : Token} {levels : Nat} {listed : List Parameter}
      {ts us : List Token} : word.kind = .keyword .kwFn → name.kind = .name →
      Derives (.parameters listed) ts → left.kind = .punctuator .leftBrace →
        Nests .body levels us → Nests .statement (levels + 1) (word :: name :: ts ++ left :: us)
  | branch {word left right : Token} {levels : Nat} {condition : Expr} {ts us : List Token} :
      word.kind ∈ [.keyword .kwIf, .keyword .kwWhile] → left.kind = .punctuator .leftParen →
        Derives (.expression condition) ts → right.kind = .punctuator .rightParen →
          Nests .statement levels us →
            Nests .statement (levels + 1) (word :: left :: ts ++ right :: us)
  | alternative {word left right other : Token} {levels : Nat} {condition : Expr} {yes : Stmt}
      {ts us vs : List Token} : word.kind = .keyword .kwIf → left.kind = .punctuator .leftParen →
      Derives (.expression condition) ts → right.kind = .punctuator .rightParen →
        Derives (.statement yes) us → yes.endsOpen = false → other.kind = .keyword .kwElse →
          Nests .statement levels vs →
            Nests .statement (levels + 1) (word :: left :: ts ++ right :: us ++ other :: vs)
  | firstStatement {levels : Nat} {ts : List Token} :
      ts[0]?.map Token.kind ≠ some (.punctuator .rightBrace) → Nests .statement levels ts →
        Nests .body levels ts
  | laterStatement {levels : Nat} {first : Stmt} {ts us : List Token} :
      Derives (.statement first) ts → (first.endsOpen → NoElse us) → Nests .body levels us →
        Nests .body levels (ts ++ us)

/-- Each level takes a token at least. -/
theorem Nests.levels_le {construct : Construct} {levels : Nat} {tokens : List Token}
    (h : Nests construct levels tokens) : levels ≤ tokens.length := by
  induction h with
  | operand | statement => exact Nat.zero_le _
  | firstOperand _ ih | firstItem _ ih | firstStatement _ _ ih => exact ih
  | _ =>
      simp only [List.length_cons, List.length_append]
      omega

/-- An expression goes on behind a left operand of any layer. -/
theorem Derives.nests_behind {p : Phrase} {ts : List Token} (derived : Derives p ts)
    {tightness levels : Nat} {value : Expr} (of : p = .layer tightness value) {op : BinaryOp}
    {sign : Token} {us : List Token} (kind : sign.kind = .punctuator op.mark)
    (h : Nests .expression levels us) : Nests .expression levels (ts ++ sign :: us) := by
  have behind {operand : Expr} {ts : List Token} (derived : Derives (.operand operand) ts) :
      Nests .expression levels (ts ++ sign :: us) :=
    .laterOperand derived (mem_binaryMarks.mpr ⟨rfl, rfl⟩) kind h
  induction derived generalizing tightness value op sign us with
  | literal is => exact behind (.literal is)
  | reference isName => exact behind (.reference isName)
  | call isName listed => exact behind (.call isName listed)
  | parentheses opens derived closes => exact behind (.parentheses opens derived closes)
  | unary listed signed derived => exact behind (.unary listed signed derived)
  | tighter _ _ ih =>
      cases of
      exact ih rfl kind h behind
  | binary listed _ kind' _ ih ih' =>
      cases of
      obtain ⟨rfl, rfl⟩ := mem_binaryMarks.mp listed
      have rest := ih' rfl kind h behind
      rw [List.append_assoc]
      exact ih rfl kind' rest fun derived =>
        .laterOperand derived (mem_binaryMarks.mpr ⟨rfl, rfl⟩) kind' rest
  | _ => cases of

end Syntax

namespace Reader

/-- A reader finds the nesting too deep only under a condition. -/
def Dives {α : Type} (reader : Reader α) (tokens : List Token) (deep : Prop) : Prop :=
  reader tokens = .error .tooDeep → deep

section Rules

variable {α β : Type} {reader : Reader α} {f : α → Reader β} {tokens : List Token}
  {mid : α → List Token → Prop} {deep deeper : Prop}

theorem Dives.bind (first : reader.Dives tokens deep) (takes : reader.Takes tokens mid)
    (next : ∀ value rest, mid value rest → (f value).Dives rest deep) :
    (reader >>= f).Dives tokens deep := by
  intro h
  change (reader tokens >>= fun p => f p.1 p.2) = .error .tooDeep at h
  cases read : reader tokens with
  | error failure =>
      rw [read] at h
      obtain rfl : failure = .tooDeep := by cases h; rfl
      exact first read
  | ok p =>
      rw [read] at h
      exact next p.1 p.2 (takes _ _ read) h

theorem Dives.imp (h : reader.Dives tokens deep) (imp : deep → deeper) :
    reader.Dives tokens deeper := fun dives => imp (h dives)

theorem Dives.pure (value : α) : (pure value : Reader α).Dives tokens deep := nofun

/-- Steps that follow each other, where it does not matter what the first one takes. -/
theorem Dives.andThen (first : reader.Dives tokens deep)
    (next : ∀ value rest, (f value).Dives rest deep) : (reader >>= f).Dives tokens deep :=
  first.bind (fun _ _ _ => trivial) fun value rest _ => next value rest

theorem Dives.map (h : reader.Dives tokens deep) (g : α → β) :
    (reader >>= fun value => Pure.pure (g value)).Dives tokens deep :=
  h.andThen fun value _ => .pure (g value)

theorem Dives.throw {failure : Failure} (other : failure ≠ .tooDeep) :
    (throw failure : Reader α).Dives tokens deep := fun h => absurd (Except.error.inj h) other

theorem dives_kindAfter (count : Nat) : (kindAfter count).Dives tokens deep := nofun

theorem dives_next : next.Dives tokens deep := by
  intro h
  cases tokens <;> cases h

theorem dives_expect (kinds : List TokenKind) : (expect kinds).Dives tokens deep := by
  intro h
  cases tokens with
  | nil => cases h
  | cons token rest =>
      rw [expect] at h
      split at h <;> cases h

theorem dives_mark (mark : Punctuator) : (Reader.mark mark).Dives tokens deep :=
  (dives_expect _).bind (takes_expect _) fun _ _ _ => .pure ()

theorem dives_accept (kind : TokenKind) : (accept kind).Dives tokens deep := by
  intro h
  cases tokens <;> cases h

end Rules

end Reader

namespace Syntax

open Reader (Dives Sound Takes dives_next dives_expect dives_mark dives_accept dives_kindAfter
  takes_next takes_expect takes_mark takes_accept takes_kindAfter)

section Expressions

variable {inner : Reader Expr} {bound levels : Nat} {tokens : List Token}

theorem dives_operator (tightness : Nat) {deep : Prop} :
    (acceptOperator tightness).Dives tokens deep := by
  refine (dives_kindAfter 0).bind (takes_kindAfter 0) fun kind rest _ => ?_
  split
  · split
    · split
      · exact dives_next.map _
      · exact .pure _
    · exact .pure _
  · exact .pure _

/-- What has been read of a chain stands in front of the operand that nests too deeply. -/
theorem chainFrom_dives {tightness : Nat}
    (sound : inner.Sound fun value ts => Derives (.layer (tightness + 1) value) ts)
    (h : ∀ tokens, inner.Dives tokens (Nests .expression levels tokens)) (count : Nat)
    {left : Expr} {ts : List Token} (derived : Derives (.layer tightness left) ts) :
    (chainFrom tightness inner count left).Dives tokens
      (Nests .expression levels (ts ++ tokens)) := by
  induction count generalizing left ts tokens with
  | zero => exact .pure left
  | succ count ih =>
      refine (dives_operator tightness).bind (takes_operator tightness) ?_
      rintro _ rest (⟨rfl, rfl⟩ | ⟨sign, op, rfl, rfl, kind, rfl⟩)
      · exact .pure left
      · refine ((h rest).imp (derived.nests_behind rfl kind)).bind (sound rest) ?_
        rintro right later ⟨us, rfl, derived'⟩
        have whole := Derives.binary (mem_binaryMarks.mpr ⟨rfl, rfl⟩) derived kind derived'
        refine (ih whole).imp fun deep => ?_
        simpa using deep

theorem chain_dives {tightness : Nat} (tight : tightness < 5)
    (sound : inner.Sound fun value ts => Derives (.layer (tightness + 1) value) ts)
    (h : ∀ tokens, inner.Dives tokens (Nests .expression levels tokens)) (tokens : List Token) :
    (chain bound tightness inner).Dives tokens (Nests .expression levels tokens) := by
  refine (h tokens).bind (sound tokens) ?_
  rintro left rest ⟨ts, rfl, derived⟩
  exact chainFrom_dives sound h bound (.tighter tight derived)

theorem layered_dives (sound : inner.Sound fun value ts => Derives (.operand value) ts)
    (h : ∀ tokens, inner.Dives tokens (Nests .operand levels tokens)) (tokens : List Token) :
    (layered bound inner).Dives tokens (Nests .expression levels tokens) :=
  have products := chain_sound (by decide) sound
  have sums := chain_sound (by decide) products
  have comparisons := chain_sound (by decide) sums
  chain_dives (by decide) comparisons (chain_dives (by decide) sums (chain_dives (by decide)
    products (chain_dives (by decide) sound fun tokens => (h tokens).imp .firstOperand))) tokens

theorem itemsToParen_dives (sound : inner.Sound fun value ts => Derives (.expression value) ts)
    (h : ∀ tokens, inner.Dives tokens (Nests .expression levels tokens)) (count : Nat) :
    (Reader.itemsToParen inner count).Dives tokens (Nests .items levels tokens) := by
  induction count generalizing tokens with
  | zero => exact .throw nofun
  | succ count ih =>
      refine ((h tokens).imp .firstItem).bind (sound tokens) ?_
      rintro first _ ⟨ts, rfl, derived⟩
      refine (dives_expect _).bind (takes_expect _) ?_
      rintro separator later ⟨rfl, kinds⟩
      split
      · exact .pure _
      · rename_i goesOn
        have comma : separator.kind = .punctuator .comma := by simpa [goesOn] using kinds
        exact (ih.imp (.laterItem derived comma)).map _

theorem parenthesized_dives (sound : inner.Sound fun value ts => Derives (.expression value) ts)
    (h : ∀ tokens, inner.Dives tokens (Nests .expression levels tokens)) {name : Token}
    (isName : name.kind = .name) :
    (Reader.parenthesized bound inner).Dives tokens
      (Nests .operand (levels + 1) (name :: tokens)) := by
  refine (dives_mark _).bind (takes_mark _) ?_
  rintro _ rest ⟨left, rfl, opens⟩
  refine (dives_accept _).bind (takes_accept _) fun closed later found => ?_
  cases closed with
  | true => exact .pure []
  | false =>
      obtain ⟨rfl, filled⟩ := found
      exact (itemsToParen_dives sound h bound).imp (.call isName opens filled)

/-- An operand is one level above the operands in it. -/
theorem operandStep_dives (sound : inner.Sound fun value ts => Derives (.operand value) ts)
    (h : ∀ tokens, inner.Dives tokens (Nests .operand levels tokens)) (tokens : List Token) :
    (operandStep bound inner).Dives tokens (Nests .operand (levels + 1) tokens) := by
  have layers (tokens : List Token) :
      (layered bound inner).Dives tokens (Nests .expression levels tokens) :=
    layered_dives sound h tokens
  refine dives_next.bind takes_next ?_
  rintro token rest rfl
  have unary {op : UnaryOp} (kind : token.kind = .punctuator op.mark) :
      (return .unary token.location op (← inner) : Reader Expr).Dives rest
        (Nests .operand (levels + 1) (token :: rest)) :=
    ((h rest).imp (.unary (mem_unaryMarks.mpr rfl) kind)).map _
  split
  · exact unary ‹_›
  · exact unary ‹_›
  · rename_i opens
    refine ((layers rest).imp (.parentheses opens)).andThen fun _ _ => ?_
    exact (dives_mark _).map _
  · rename_i isName
    refine (dives_kindAfter 0).bind (takes_kindAfter 0) ?_
    rintro _ _ ⟨-, rfl⟩
    split
    · exact (parenthesized_dives (layered_sound sound) layers isName).map _
    · exact .pure _
  · exact .pure _
  · exact .pure _
  · exact .pure _
  · exact .pure _
  · exact .pure _
  · exact .throw nofun

theorem operand_dives (bound levels : Nat) (tokens : List Token) :
    (operand bound levels).Dives tokens (Nests .operand levels tokens) := by
  induction levels generalizing tokens with
  | zero => exact fun _ => .operand
  | succ levels ih => exact operandStep_dives (operand_sound bound levels) ih tokens

theorem expression_dives (bound levels : Nat) (tokens : List Token) :
    (expression bound levels).Dives tokens (Nests .expression levels tokens) :=
  layered_dives (operand_sound bound levels) (operand_dives bound levels) tokens

end Expressions

section Statements

variable {inner : Reader Expr} {deeper : Reader Stmt} {bound levels : Nat} {tokens : List Token}

theorem finished_dives (h : ∀ tokens, inner.Dives tokens (Nests .expression levels tokens)) :
    (finished inner).Dives tokens (Nests .expression levels tokens) :=
  (h tokens).andThen fun _ _ => (dives_mark _).map _

/-- The value of a statement begins behind the tokens that lead to it. -/
theorem finished_dives_behind (lead tokens : List Token)
    (leads : lead.map Token.kind ∈ expressionLeads)
    (h : ∀ tokens, inner.Dives tokens (Nests .expression levels tokens)) :
    (finished inner).Dives tokens (Nests .statement levels (lead ++ tokens)) :=
  (finished_dives h).imp (.value leads)

theorem condition_dives {word : Token} (kind : word.kind ∈ [.keyword .kwIf, .keyword .kwWhile])
    (h : ∀ tokens, inner.Dives tokens (Nests .expression levels tokens)) :
    (condition inner).Dives tokens (Nests .statement levels (word :: tokens)) := by
  refine (dives_mark _).bind (takes_mark _) ?_
  rintro _ rest ⟨left, rfl, opens⟩
  have leads : [word, left].map Token.kind ∈ expressionLeads := by
    rcases List.mem_cons.mp kind with kind | kind
    · simp [expressionLeads, kind, opens]
    · simp [expressionLeads, List.mem_singleton.mp kind, opens]
  refine ((h rest).imp (Nests.value leads)).andThen fun _ _ => ?_
  exact (dives_mark _).map _

theorem binding_dives (lead : List Token)
    (leads : ∀ name equal : Token, name.kind = .name → equal.kind = .punctuator .equal →
      (lead ++ [name, equal]).map Token.kind ∈ expressionLeads)
    (h : ∀ tokens, inner.Dives tokens (Nests .expression levels tokens)) :
    (binding inner).Dives tokens (Nests .statement levels (lead ++ tokens)) := by
  refine (dives_expect _).bind (takes_expect _) ?_
  rintro name _ ⟨rfl, isName⟩
  refine (dives_mark _).bind (takes_mark _) ?_
  rintro _ rest ⟨equal, rfl, isEqual⟩
  have dives := finished_dives_behind (lead ++ [name, equal]) rest
    (leads name equal (List.mem_singleton.mp isName) isEqual) h
  rw [List.append_assoc] at dives
  exact dives.map _

theorem itemsToBrace_dives (h : ∀ tokens, deeper.Dives tokens (Nests .statement levels tokens))
    (below : ∀ tokens, deeper.Takes tokens (TakesStatement tokens)) (count : Nat) :
    (Reader.itemsToBrace deeper count).Dives tokens (Nests .body levels tokens) := by
  induction count generalizing tokens with
  | zero => exact .throw nofun
  | succ count ih =>
      refine (dives_accept _).bind (takes_accept _) fun closed later found => ?_
      cases closed with
      | true => exact .pure []
      | false =>
          obtain ⟨rfl, filled⟩ := found
          refine ((h later).imp (.firstStatement filled)).bind (below later) ?_
          rintro first _ ⟨ts, rfl, derived, noElse⟩
          exact (ih.imp (.laterStatement derived noElse)).map _

/-- Parameters have nothing in them. -/
theorem parameters_dives {deep : Prop} :
    (Reader.parenthesized bound parameter).Dives tokens deep := by
  have one (tokens : List Token) : parameter.Dives tokens deep :=
    (dives_expect _).map _
  have more (count : Nat) (tokens : List Token) :
      (Reader.itemsToParen parameter count).Dives tokens deep := by
    induction count generalizing tokens with
    | zero => exact .throw nofun
    | succ count ih =>
        refine (one tokens).andThen fun _ _ => ?_
        refine (dives_expect _).bind (takes_expect _) fun _ rest _ => ?_
        split
        · exact .pure _
        · exact (ih rest).map _
  refine (dives_mark _).bind (takes_mark _) fun _ rest _ => ?_
  refine (dives_accept _).bind (takes_accept _) fun closed later _ => ?_
  cases closed with
  | true => exact .pure []
  | false => exact more bound later

/-- A value that is not there cannot nest too deeply. -/
theorem return_dives (h : ∀ tokens, inner.Dives tokens (Nests .expression levels tokens))
    (kind : tokens[0]?.map Token.kind = some (.keyword .kwReturn)) :
    (do
      let word ← Reader.next
      if ← Reader.accept (.punctuator .semicolon) then
        return .ret word.location none
      else
        return .ret word.location (some (← finished inner)) : Reader Stmt).Dives tokens
      (Nests .statement levels tokens) := by
  refine dives_next.bind takes_next ?_
  rintro word _ rfl
  refine (dives_accept _).bind (takes_accept _) fun bare later found => ?_
  cases bare with
  | true => exact .pure _
  | false =>
      obtain ⟨rfl, -⟩ := found
      have leads : [word].map Token.kind ∈ expressionLeads := by
        simp [expressionLeads, Option.some.inj kind]
      exact (finished_dives_behind [word] _ leads h).map _

section Inside

variable (h : ∀ tokens, inner.Dives tokens (Nests .expression (levels + 1) tokens))
  (h' : ∀ tokens, deeper.Dives tokens (Nests .statement levels tokens))
  (sound : inner.Sound fun value ts => Derives (.expression value) ts)
  (below : ∀ tokens, deeper.Takes tokens (TakesStatement tokens))

include h h' sound

/-- The first branch of a conditional is complete where the second one nests too deeply. -/
theorem conditional_dives (below : ∀ tokens, deeper.Takes tokens (TakesStatement tokens))
    (kind : tokens[0]?.map Token.kind = some (.keyword .kwIf)) :
    (do
      let word ← Reader.next
      let test ← condition inner
      let yes ← deeper
      if ← Reader.accept (.keyword .kwElse) then
        return .ifElse word.location test yes (← deeper)
      else
        return .ifThen word.location test yes : Reader Stmt).Dives tokens
      (Nests .statement (levels + 1) tokens) := by
  refine dives_next.bind takes_next ?_
  rintro word rest rfl
  have isIf := Option.some.inj kind
  refine (condition_dives (by simp [isIf]) h).bind (condition_takes sound) ?_
  rintro test later ⟨left, ts, right, rfl, opens, derived, closes⟩
  refine ((h' later).imp (.branch (by simp [isIf]) opens derived closes)).bind (below later) ?_
  rintro yes _ ⟨us, rfl, run, noElse⟩
  refine (dives_accept _).bind (takes_accept _) fun more last found => ?_
  cases more with
  | true =>
      obtain ⟨other, rfl, isElse⟩ := found
      have closed : yes.endsOpen = false := by
        cases opened : yes.endsOpen with
        | false => rfl
        | true => exact absurd (congrArg some isElse) (noElse opened)
      have deep (nests : Nests .statement levels last) : Nests .statement (levels + 1)
          (word :: (left :: ts ++ right :: (us ++ other :: last))) := by
        simpa using Nests.alternative isIf opens derived closes run closed isElse nests
      exact ((h' last).imp deep).map _
  | false => exact .pure _

theorem loop_dives (kind : tokens[0]?.map Token.kind = some (.keyword .kwWhile)) :
    (do
      let word ← Reader.next
      let test ← condition inner
      return .loop word.location test (← deeper) : Reader Stmt).Dives tokens
      (Nests .statement (levels + 1) tokens) := by
  refine dives_next.bind takes_next ?_
  rintro word rest rfl
  have isWhile := Option.some.inj kind
  refine (condition_dives (by simp [isWhile]) h).bind (condition_takes sound) ?_
  rintro test later ⟨left, ts, right, rfl, opens, derived, closes⟩
  exact ((h' later).imp (.branch (by simp [isWhile]) opens derived closes)).map _

omit h sound in
theorem function_dives (below : ∀ tokens, deeper.Takes tokens (TakesStatement tokens))
    (kind : tokens[0]?.map Token.kind = some (.keyword .kwFn)) :
    (do
      let word ← Reader.next
      let name ← Reader.expect [.name]
      let parameters ← Reader.parenthesized bound parameter
      let brace ← Reader.expect [.punctuator .leftBrace]
      let body ← Reader.itemsToBrace deeper bound
      return .function word.location name.text parameters brace.location body :
        Reader Stmt).Dives tokens (Nests .statement (levels + 1) tokens) := by
  refine dives_next.bind takes_next ?_
  rintro word _ rfl
  refine (dives_expect _).bind (takes_expect _) ?_
  rintro name rest ⟨rfl, isName⟩
  refine parameters_dives.bind (parameters_sound rest) ?_
  rintro parameters _ ⟨ts, rfl, listed⟩
  refine (dives_expect _).bind (takes_expect _) ?_
  rintro left _ ⟨rfl, opens⟩
  refine ((itemsToBrace_dives h' below bound).imp fun nests => ?_).map _
  exact .function (Option.some.inj kind) (List.mem_singleton.mp isName) listed
    (List.mem_singleton.mp opens) nests

/-- A statement is one level above the statements in it, and on a level with its expressions. -/
theorem statementStep_dives (below : ∀ tokens, deeper.Takes tokens (TakesStatement tokens)) :
    (statementStep bound inner deeper).Dives tokens (Nests .statement (levels + 1) tokens) := by
  have bare {tokens : List Token} : (do
      let value ← finished inner
      return .expression value.location value : Reader Stmt).Dives tokens
        (Nests .statement (levels + 1) tokens) :=
    (finished_dives_behind [] tokens (by decide) h).map _
  refine (dives_kindAfter 0).bind (takes_kindAfter 0) ?_
  rintro kind _ ⟨same, rfl⟩
  split
  · refine dives_next.bind takes_next ?_
    rintro left rest rfl
    exact ((itemsToBrace_dives h' below bound).imp (.block (Option.some.inj same).symm)).map _
  · refine dives_next.bind takes_next ?_
    rintro word rest rfl
    have leads : [word].map Token.kind ∈ expressionLeads := by
      simp [expressionLeads, ← Option.some.inj same]
    exact (finished_dives_behind [word] _ leads h).map _
  · refine dives_next.bind takes_next ?_
    rintro word rest rfl
    refine (binding_dives [word] ?_ h).map _
    rintro name equal isName isEqual
    simp [expressionLeads, isName, isEqual, ← Option.some.inj same]
  · exact function_dives h' below same.symm
  · exact return_dives h same.symm
  · exact conditional_dives h h' sound below same.symm
  · exact loop_dives h h' sound same.symm
  · refine (dives_kindAfter 1).bind (takes_kindAfter 1) ?_
    rintro second _ ⟨-, rfl⟩
    split
    · refine (binding_dives [] ?_ h).map _
      rintro name equal isName isEqual
      simp [expressionLeads, isName, isEqual]
    · exact bare
  · exact bare

end Inside

theorem statement_dives (bound levels : Nat) (tokens : List Token) :
    (statement bound levels).Dives tokens (Nests .statement levels tokens) := by
  induction levels generalizing tokens with
  | zero => exact fun _ => .statement
  | succ levels ih =>
      exact statementStep_dives (expression_dives bound (levels + 1)) ih
        (expression_sound bound (levels + 1)) fun _ => statement_takes bound levels

end Statements

section Programs

variable {bound count levels more : Nat} {stop : Diagnostic} {tokens : List Token}
  {stream : TokenStream}

/-- With more levels a statement is read in the same way, unless they were too few. -/
theorem statement_limited (small : tokens.length < bound) (le : levels ≤ more) :
    statement bound levels tokens = statement bound more tokens ∨
      statement bound levels tokens = .error .tooDeep := by
  cases statement_tracks (le_refl bound) le tokens small with
  | done split read _ again =>
      obtain rfl := split
      exact .inl (read.trans (again _ rfl).symm)
  | wrong read place _ again => exact .inl (read.trans (again tokens place).symm)
  | tooDeep read _ => exact .inr read

/-- A statement of a program nests deeper than a number of levels. It begins at the place, and the
statements in front of it are complete. -/
def NestsAt (levels : Nat) (tokens : List Token) (place : Location) : Prop :=
  ∃ before token rest body, tokens = before ++ token :: rest ∧
    Derives (.statements body) before ∧ token.location = place ∧
      Nests .statement (levels + 1) (token :: rest)

theorem NestsAt.levels_lt {place : Location} (h : NestsAt levels tokens place) :
    levels < tokens.length := by
  obtain ⟨before, token, rest, body, rfl, -, -, nests⟩ := h
  have := nests.levels_le
  rw [List.length_append]
  omega

theorem NestsAt.behind {first : Stmt} {ts : List Token} {place : Location}
    (derived : Derives (.statement first) ts) (h : NestsAt levels tokens place) :
    NestsAt levels (ts ++ tokens) place := by
  obtain ⟨before, token, rest, body, rfl, derived', same, nests⟩ := h
  exact ⟨ts ++ before, token, rest, first :: body, by simp, .statements derived derived', same,
    nests⟩

/-- The statements in front of one that nests too deeply are read as they are with more levels. -/
theorem statements_limited (small : tokens.length < bound) (le : levels ≤ more) :
    statements (levels + 1) bound stop count tokens =
        statements (more + 1) bound stop count tokens ∨
      ∃ place, statements (levels + 1) bound stop count tokens =
        .error ⟨some place, .nestingTooDeep⟩ := by
  induction count generalizing tokens with
  | zero => cases tokens <;> exact .inl rfl
  | succ count ih =>
      cases tokens with
      | nil => exact .inl rfl
      | cons token rest =>
          obtain same | deep := @statement_limited _ _ _ _ small (Nat.succ_le_succ le)
          · cases read : statement bound (more + 1) (token :: rest) with
            | error failure =>
                rw [statements_of_error read, statements_of_error (same.trans read)]
                exact .inl rfl
            | ok found =>
                obtain ⟨first, later⟩ := found
                rw [statements_of_ok read, statements_of_ok (same.trans read)]
                have shorter : later.length < bound :=
                  (statement_shorter read).trans_lt (Nat.lt_of_succ_lt small)
                obtain same | ⟨place, deep⟩ := ih shorter
                · exact .inl (congrArg _ same)
                · rw [deep]
                  exact .inr ⟨place, rfl⟩
          · exact .inr ⟨token.location, statements_of_error deep⟩

theorem statements_dives {place : Option Location} (fine : stop.cause ≠ .nestingTooDeep)
    (h : statements (levels + 1) bound stop count tokens = .error ⟨place, .nestingTooDeep⟩) :
    ∃ start, place = some start ∧ NestsAt levels tokens start := by
  induction count generalizing tokens with
  | zero =>
      cases tokens with
      | nil => cases h
      | cons token rest =>
          cases h
          exact absurd rfl fine
  | succ count ih =>
      cases tokens with
      | nil => cases h
      | cons token rest =>
          cases read : statement bound (levels + 1) (token :: rest) with
          | error failure =>
              rw [statements_of_error read] at h
              cases failure with
              | unexpected found expected => cases h
              | exhausted =>
                  cases h
                  exact absurd rfl fine
              | tooDeep =>
                  cases h
                  exact ⟨token.location, rfl, [], token, rest, [], rfl, .nothing, rfl,
                    statement_dives bound (levels + 1) _ read⟩
          | ok found =>
              obtain ⟨first, later⟩ := found
              rw [statements_of_ok read] at h
              obtain ⟨ts, split, derived, -⟩ := statement_takes _ _ _ _ read
              cases others : statements (levels + 1) bound stop count later with
              | ok body =>
                  rw [others] at h
                  cases h
              | error diagnostic =>
                  rw [others] at h
                  cases h
                  obtain ⟨start, same, deep⟩ := ih others
                  rw [split]
                  exact ⟨start, same, deep.behind derived⟩

theorem programOf_limited (stream : TokenStream) (le : levels ≤ more) :
    programOf (levels + 1) stream = programOf (more + 1) stream ∨
      ∃ place, programOf (levels + 1) stream = .error ⟨place, .nestingTooDeep⟩ := by
  obtain same | ⟨place, deep⟩ :=
    @statements_limited (stream.significant.length + 1) (stream.significant.length + 1) levels more
      (ending stream) stream.significant (Nat.lt_succ_self _) le
  · left
    simp only [programOf, same]
  · exact .inr ⟨some place, programOf_of_error deep⟩

theorem breakCause_ne (text : List Char) : TokenStream.breakCause text ≠ .nestingTooDeep := by
  cases text <;> simp [TokenStream.breakCause]

/-- A text that cannot be split has a wrong character or no end, and is not too deep for that. -/
theorem problem_cause {file text : String} {problem : Diagnostic} :
    (TokenStream.ofText file text).problem = some problem → problem.cause ≠ .nestingTooDeep := by
  apply TokenStream.splitFrom_induct (P := fun _ _ _ stream =>
    stream.problem = some problem → problem.cause ≠ .nestingTooDeep)
  · intro _ _ absurd
    cases absurd
  · intro _ text _ _ _ found
    obtain rfl := Option.some.inj found
    exact breakCause_ne (Lexeme.read text).rest
  · intro _ _ _ _ _ _ ih
    exact ih

theorem ending_cause (file text : String) :
    (ending (TokenStream.ofText file text)).cause ≠ .nestingTooDeep := by
  cases found : (TokenStream.ofText file text).problem with
  | none => simp [ending, found]
  | some problem =>
      rw [ending, found]
      exact problem_cause found

/-- Nothing but a statement that goes deeper is reported as nesting too deeply. -/
theorem programOf_dives {file text : String} {place : Option Location}
    (h : programOf (levels + 1) (TokenStream.ofText file text) =
      .error ⟨place, .nestingTooDeep⟩) :
    ∃ start, place = some start ∧
      NestsAt levels (TokenStream.ofText file text).significant start := by
  cases read : statements (levels + 1) ((TokenStream.ofText file text).significant.length + 1)
      (ending (TokenStream.ofText file text)) ((TokenStream.ofText file text).significant.length + 1)
      (TokenStream.ofText file text).significant with
  | error diagnostic =>
      obtain rfl := Except.error.inj ((programOf_of_error read).symm.trans h)
      exact statements_dives (ending_cause file text) read
  | ok body =>
      rw [programOf_of_ok read] at h
      cases found : (TokenStream.ofText file text).problem with
      | none =>
          rw [found] at h
          cases h
      | some problem =>
          rw [found] at h
          cases h
          exact absurd rfl (problem_cause found)

end Programs

end Syntax

end StackScript
