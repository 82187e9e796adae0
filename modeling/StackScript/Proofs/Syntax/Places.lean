/-
# Reading at other places

Readers do not look at where tokens stand. Of tokens that have been moved they make the same trees,
at the places that the tokens have been moved to. Nor do they look further than they have to: what
they have read, they read again with more behind it. Behind an expression they must have found
something else that ends it, and a statement must not be followed by an `else`.
-/

import StackScript.Proofs.Syntax.Completeness
import StackScript.Proofs.Token.Joining

namespace StackScript

variable (move : Location → Location)

mutual

/-- An expression at other places. -/
def Expr.relocate : Expr → Expr
  | .literal place value => .literal (move place) value
  | .reference place name => .reference (move place) name
  | .unary place op operand => .unary (move place) op operand.relocate
  | .binary place op left right => .binary (move place) op left.relocate right.relocate
  | .call place callee arguments => .call (move place) callee (relocateArguments arguments)

/-- Arguments at other places. -/
def relocateArguments : List Expr → List Expr
  | [] => []
  | first :: rest => first.relocate :: relocateArguments rest

end

/-- A parameter at another place. -/
def Parameter.relocate (parameter : Parameter) : Parameter :=
  { parameter with location := move parameter.location }

mutual

/-- A statement at other places. -/
def Stmt.relocate : Stmt → Stmt
  | .expression place value => .expression (move place) (value.relocate move)
  | .print place value => .print (move place) (value.relocate move)
  | .declare place name value => .declare (move place) name (value.relocate move)
  | .assign place name value => .assign (move place) name (value.relocate move)
  | .block place body => .block (move place) (relocateBody body)
  | .ifThen place condition yes => .ifThen (move place) (condition.relocate move) yes.relocate
  | .ifElse place condition yes no =>
    .ifElse (move place) (condition.relocate move) yes.relocate no.relocate
  | .loop place condition body => .loop (move place) (condition.relocate move) body.relocate
  | .function place name parameters bodyPlace body =>
    .function (move place) name (parameters.map (Parameter.relocate move)) (move bodyPlace)
      (relocateBody body)
  | .ret place value => .ret (move place) (value.map (Expr.relocate move))

/-- Statements at other places. -/
def relocateBody : List Stmt → List Stmt
  | [] => []
  | first :: rest => first.relocate :: relocateBody rest

end

theorem relocateArguments_eq (arguments : List Expr) :
    relocateArguments move arguments = arguments.map (Expr.relocate move) := by
  induction arguments with
  | nil => rfl
  | cons first rest ih => rw [relocateArguments, ih, List.map_cons]

theorem relocateBody_eq (body : List Stmt) :
    relocateBody move body = body.map (Stmt.relocate move) := by
  induction body with
  | nil => rfl
  | cons first rest ih => rw [relocateBody, ih, List.map_cons]

@[simp] theorem Expr.location_relocate (value : Expr) :
    (value.relocate move).location = move value.location := by
  cases value <;> rfl

mutual

@[simp] theorem Expr.relocate_id : ∀ value : Expr, value.relocate id = value
  | .literal _ _ | .reference _ _ => rfl
  | .unary _ _ operand => by simp [Expr.relocate, operand.relocate_id]
  | .binary _ _ left right => by simp [Expr.relocate, left.relocate_id, right.relocate_id]
  | .call _ _ arguments => by simp [Expr.relocate, relocateArguments_id arguments]

@[simp] theorem relocateArguments_id :
    ∀ arguments : List Expr, relocateArguments id arguments = arguments
  | [] => rfl
  | first :: rest => by simp [relocateArguments, first.relocate_id, relocateArguments_id rest]

end

@[simp] theorem Parameter.relocate_id (parameter : Parameter) : parameter.relocate id = parameter :=
  rfl

mutual

@[simp] theorem Stmt.relocate_id : ∀ st : Stmt, st.relocate id = st
  | .expression _ _ | .print _ _ | .declare _ _ _ | .assign _ _ _ => by simp [Stmt.relocate]
  | .block _ body => by simp [Stmt.relocate, relocateBody_id body]
  | .ifThen _ _ yes => by simp [Stmt.relocate, yes.relocate_id]
  | .ifElse _ _ yes no => by simp [Stmt.relocate, yes.relocate_id, no.relocate_id]
  | .loop _ _ body => by simp [Stmt.relocate, body.relocate_id]
  | .function _ _ _ _ body => by
      simp [Stmt.relocate, relocateBody_id body, funext Parameter.relocate_id]
  | .ret _ value => by simp [Stmt.relocate, funext Expr.relocate_id]

@[simp] theorem relocateBody_id : ∀ body : List Stmt, relocateBody id body = body
  | [] => rfl
  | first :: rest => by simp [relocateBody, first.relocate_id, relocateBody_id rest]

end

namespace Reader

variable {move} {α β : Type} {free free' : List Token → Prop} {form : α → α} {form' : β → β}
  {reader reader' : Reader α} {next next' : α → Reader β} {tokens rest : List Token}

/-- What one reader makes of tokens, another one makes of them at other places, in another form and
with more behind them, unless the first one has come to the end and what comes behind cannot follow
there. -/
structure Carries (move : Location → Location) (free : List Token → Prop) (form : α → α)
    (reader reader' : Reader α) : Prop where
  shrinks : ∀ {tokens value rest}, reader.Reads tokens value rest → rest.length ≤ tokens.length
  again : ∀ {tokens value rest more}, reader.Reads tokens value rest → (rest = [] → free more) →
    reader'.Reads (tokens.map (Token.relocate move) ++ more) (form value)
      (rest.map (Token.relocate move) ++ more)

/-- A reader that anything can follow: it knows by itself where it ends. -/
abbrev Closes (move : Location → Location) (form : α → α) (reader reader' : Reader α) : Prop :=
  Carries move (fun _ => True) form reader reader'

/-- A reader that ends only where it finds something else. -/
abbrev Extends (move : Location → Location) (form : α → α) (reader reader' : Reader α) : Prop :=
  Carries move (fun _ => False) form reader reader'

/-- A reader that gives nothing without a token. -/
def Needs (reader : Reader α) : Prop := ∀ value rest, ¬ reader.Reads [] value rest

theorem eq_nil_of_length_le (h : rest.length ≤ ([] : List Token).length) : rest = [] :=
  List.length_eq_zero_iff.mp (Nat.le_zero.mp h)

theorem Reads.of_bind {value : β} (h : (reader >>= next).Reads tokens value rest) :
    ∃ first mid, reader.Reads tokens first mid ∧ (next first).Reads mid value rest := by
  change (reader tokens >>= fun p => next p.1 p.2) = .ok (value, rest) at h
  cases read : reader tokens with
  | error failure =>
      rw [read] at h
      cases h
  | ok p =>
      rw [read] at h
      exact ⟨p.1, p.2, read, h⟩

theorem Carries.weaken (h : Carries move free form reader reader')
    (imp : ∀ more, free' more → free more) : Carries move free' form reader reader' :=
  ⟨h.shrinks, fun read follows => h.again read fun last => imp _ (follows last)⟩

theorem Closes.weaken (h : Closes move form reader reader') :
    Carries move free form reader reader' :=
  Carries.weaken h fun _ _ => trivial

theorem Carries.pure {value value' : α} (same : form value = value') :
    Carries move free form (pure value) (pure value') := by
  constructor
  · intro tokens other rest read
    cases read
    exact Nat.le_refl _
  · intro tokens other rest more read _
    cases read
    rw [same]
    exact .pure value'

theorem Carries.throw {failure failure' : Failure} :
    Carries move free form (throw failure) (throw failure') :=
  ⟨nofun, nofun⟩

/-- What the first of two readers wants behind it is of interest only if the second one can do
without a token. -/
theorem Carries.bind (h : Carries move free form reader reader')
    (onward : ∀ value, Carries move free' form' (next value) (next' (form value)))
    (follows : ∀ value last more, (next value).Reads [] last [] → free' more → free more) :
    Carries move free' form' (reader >>= next) (reader' >>= next') := by
  constructor
  · intro tokens value rest read
    obtain ⟨first, mid, read, read'⟩ := read.of_bind
    exact Nat.le_trans ((onward first).shrinks read') (h.shrinks read)
  · intro tokens value rest more read ending
    obtain ⟨first, mid, read, read'⟩ := read.of_bind
    apply (h.again read _).bind ((onward first).again read' ending)
    intro last
    rw [last] at read'
    have none := eq_nil_of_length_le ((onward first).shrinks read')
    rw [none] at read'
    exact follows first value more read' (ending none)

/-- Behind a reader that knows where it ends, anything can be read. -/
theorem Closes.bind (h : Closes move form reader reader')
    (onward : ∀ value, Carries move free' form' (next value) (next' (form value))) :
    Carries move free' form' (reader >>= next) (reader' >>= next') :=
  Carries.bind h onward fun _ _ _ _ _ => trivial

/-- A reader that needs a token ends the one in front of it. -/
theorem Carries.bind_needs (h : Carries move free form reader reader')
    (onward : ∀ value, Carries move free' form' (next value) (next' (form value)))
    (needs : ∀ value, (next value).Needs) :
    Carries move free' form' (reader >>= next) (reader' >>= next') :=
  h.bind onward fun value last _ read => absurd read (needs value last [])

theorem Needs.bind (h : reader.Needs) : (reader >>= next).Needs := by
  intro value rest read
  obtain ⟨first, mid, read, -⟩ := read.of_bind
  exact h first mid read

/-- If the first of two readers can do without a token, the second one cannot. -/
theorem Carries.needs_bind (h : Carries move free form reader reader')
    (needs : ∀ value, (next value).Needs) : (reader >>= next).Needs := by
  intro value rest read
  obtain ⟨first, mid, read, read'⟩ := read.of_bind
  rw [eq_nil_of_length_le (h.shrinks read)] at read'
  exact needs first value rest read'

theorem needs_expect (kinds : List TokenKind) : (expect kinds).Needs := nofun

theorem needs_mark (mark : Punctuator) : (Reader.mark mark).Needs := (needs_expect _).bind

theorem closes_next : Closes move (Token.relocate move) Reader.next Reader.next := by
  constructor
  · intro tokens token rest read
    rw [takes_next token rest read]
    exact Nat.le_succ _
  · intro tokens token rest more read _
    rw [takes_next token rest read]
    exact reads_next

theorem closes_expect (kinds : List TokenKind) :
    Closes move (Token.relocate move) (expect kinds) (expect kinds) := by
  constructor
  · intro tokens token rest read
    rw [(takes_expect kinds token rest read).1]
    exact Nat.le_succ _
  · intro tokens token rest more read _
    obtain ⟨rfl, met⟩ := takes_expect kinds token rest read
    exact reads_expect met

theorem closes_mark (mark : Punctuator) : Closes move id (Reader.mark mark) (Reader.mark mark) :=
  (closes_expect _).bind fun _ => .pure rfl

section Lookahead

variable {next next' : Option TokenKind → Reader α} {branch branch' : Bool → Reader α}

/-- A reader that looks at a token ahead and finds the same kind there. -/
theorem Carries.look {count : Nat} (onward : ∀ kind, Carries move free form (next kind) (next' kind))
    (ahead : ∀ tokens value rest more, tokens.length ≤ count →
      (next none).Reads tokens value rest → (rest = [] → free more) → more = []) :
    Carries move free form (kindAfter count >>= next) (kindAfter count >>= next') := by
  constructor
  · intro tokens value rest read
    exact (onward _).shrinks read
  · intro tokens value rest more read ending
    have found : (next (tokens[count]?.map Token.kind)).Reads tokens value rest := read
    have same : (tokens.map (Token.relocate move) ++ more)[count]?.map Token.kind =
        tokens[count]?.map Token.kind := by
      by_cases short : tokens.length ≤ count
      · rw [List.getElem?_eq_none short] at found
        rw [ahead tokens value rest more short found ending]
        simp [short]
      · rw [List.getElem?_append_left (by simpa using short), List.getElem?_map, Option.map_map]
        rfl
    apply (reads_kindAfter count).bind
    rw [same]
    exact (onward _).again found ending

/-- A reader that looks at the next token. If it does without one, nothing can follow. -/
theorem Carries.peek (onward : ∀ kind, Carries move free form (next kind) (next' kind))
    (ahead : ∀ value, (next none).Reads [] value [] → ∀ more, free more → more = []) :
    Carries move free form (kindAfter 0 >>= next) (kindAfter 0 >>= next') := by
  apply Carries.look onward
  intro tokens value rest more short read ending
  obtain rfl := eq_nil_of_length_le short
  obtain rfl := eq_nil_of_length_le ((onward none).shrinks read)
  exact ahead value read more (ending rfl)

/-- A token that may be taken or not. -/
theorem Carries.accept {kind : TokenKind}
    (onward : ∀ met, Carries move free form (branch met) (branch' met))
    (ahead : ∀ value more, (branch false).Reads [] value [] → free more →
      more[0]?.map Token.kind ≠ some kind) :
    Carries move free form (Reader.accept kind >>= branch) (Reader.accept kind >>= branch') := by
  constructor
  · intro tokens value rest read
    obtain ⟨met, mid, accepted, read⟩ := read.of_bind
    apply Nat.le_trans ((onward met).shrinks read)
    have found := takes_accept kind met mid accepted
    cases met with
    | true =>
        obtain ⟨token, rfl, -⟩ := found
        exact Nat.le_succ _
    | false =>
        obtain ⟨rfl, -⟩ := found
        exact Nat.le_refl _
  · intro tokens value rest more read ending
    obtain ⟨met, mid, accepted, read⟩ := read.of_bind
    have again := (onward met).again read ending
    have found := takes_accept kind met mid accepted
    cases met with
    | true =>
        obtain ⟨token, rfl, same⟩ := found
        have moved : (token.relocate move).kind = kind := same
        exact (reads_accept moved).bind again
    | false =>
        obtain ⟨rfl, other⟩ := found
        apply (reads_accept_other _).bind again
        cases mid with
        | nil =>
            obtain rfl := eq_nil_of_length_le ((onward false).shrinks read)
            exact ahead value more read (ending rfl)
        | cons token mid => exact other

end Lookahead

section Lists

variable {item item' : Reader α}

theorem needs_itemsToParen (h : Carries move free form item item') (bound : Nat) :
    (Reader.itemsToParen item bound).Needs := by
  cases bound with
  | zero => exact nofun
  | succ bound => exact h.needs_bind fun _ => (needs_expect _).bind

theorem Carries.itemsToParen (h : Carries move free form item item') (bound : Nat) :
    Closes move (List.map form) (itemsToParen item bound) (itemsToParen item' bound) := by
  induction bound with
  | zero => exact .throw
  | succ bound ih =>
      rw [Reader.itemsToParen, Reader.itemsToParen]
      apply h.bind_needs _ fun _ => (needs_expect _).bind
      intro first
      apply (closes_expect _).bind
      intro separator
      have same := Token.kind_relocate move separator
      by_cases closed : separator.kind = .punctuator .rightParen
      · rw [if_pos closed, if_pos (same.trans closed)]
        exact .pure rfl
      · rw [if_neg closed, if_neg (same ▸ closed)]
        exact ih.bind fun _ => .pure rfl

theorem Carries.parenthesized (h : Carries move free form item item') (bound : Nat) :
    Closes move (List.map form) (parenthesized bound item) (parenthesized bound item') := by
  apply (closes_mark _).bind
  intro _
  apply Carries.accept
  · intro closed
    cases closed with
    | true => exact .pure rfl
    | false => exact h.itemsToParen bound
  · intro values more read
    exact absurd read (needs_itemsToParen h bound values [])

theorem needs_itemsToBrace (h : Carries move free form item item') (bound : Nat) :
    (Reader.itemsToBrace item bound).Needs := by
  induction bound with
  | zero => exact nofun
  | succ bound ih =>
      intro values rest read
      obtain ⟨closed, mid, accepted, read⟩ := read.of_bind
      cases accepted
      exact h.needs_bind (fun _ => ih.bind) values rest read

theorem Carries.itemsToBrace (h : Carries move free form item item') (bound : Nat) :
    Closes move (List.map form) (itemsToBrace item bound) (itemsToBrace item' bound) := by
  induction bound with
  | zero => exact .throw
  | succ bound ih =>
      have needs (first : α) : (do
          return first :: (← Reader.itemsToBrace item bound) : Reader (List α)).Needs :=
        (needs_itemsToBrace h bound).bind
      rw [Reader.itemsToBrace, Reader.itemsToBrace]
      apply Carries.accept
      · intro closed
        cases closed with
        | true => exact .pure rfl
        | false => exact h.bind_needs (fun _ => ih.bind fun _ => .pure rfl) needs
      · intro values more read
        exact absurd read (h.needs_bind needs values [])

end Lists

end Reader

namespace Syntax

open Reader (Carries Closes Extends closes_next closes_expect closes_mark needs_mark)

variable {move} {bound : Nat} {inner inner' : Reader Expr}

theorem acceptOperator_extends (tightness : Nat) :
    Extends move id (acceptOperator tightness) (acceptOperator tightness) := by
  apply Carries.peek
  · intro kind
    cases kind with
    | none => exact .pure rfl
    | some kind =>
        cases kind with
        | punctuator mark =>
            cases found : BinaryOp.ofMark? mark with
            | none =>
                simp only [found]
                exact .pure rfl
            | some op =>
                simp only [found]
                by_cases tight : op.tightness = tightness
                · rw [if_pos tight]
                  exact closes_next.bind fun _ => .pure rfl
                · rw [if_neg tight]
                  exact .pure rfl
        | _ => exact .pure rfl
  · exact fun _ _ _ => False.elim

theorem chainFrom_extends (tightness : Nat) (h : Extends move (Expr.relocate move) inner inner')
    (count : Nat) (left : Expr) :
    Extends move (Expr.relocate move) (chainFrom tightness inner count left)
      (chainFrom tightness inner' count (left.relocate move)) := by
  induction count generalizing left with
  | zero => exact .pure rfl
  | succ count ih =>
      apply (acceptOperator_extends tightness).bind
      · intro found
        cases found with
        | none => exact .pure rfl
        | some op =>
            apply h.bind
            · intro right
              have same := ih (.binary left.location op left right)
              rw [Expr.relocate, ← Expr.location_relocate move left] at same
              exact same
            · exact fun _ _ _ _ => id
      · exact fun _ _ _ _ => id

theorem chain_extends (tightness : Nat) (h : Extends move (Expr.relocate move) inner inner') :
    Extends move (Expr.relocate move) (chain bound tightness inner)
      (chain bound tightness inner') :=
  h.bind (chainFrom_extends tightness h bound) fun _ _ _ _ => id

theorem layered_extends (h : Extends move (Expr.relocate move) inner inner') :
    Extends move (Expr.relocate move) (layered bound inner) (layered bound inner') :=
  chain_extends 1 (chain_extends 2 (chain_extends 3 (chain_extends 4 h)))

theorem operandStep_extends (h : Extends move (Expr.relocate move) inner inner') :
    Extends move (Expr.relocate move) (operandStep bound inner) (operandStep bound inner') := by
  have layers : Extends move (Expr.relocate move) (layered bound inner) (layered bound inner') :=
    layered_extends h
  apply closes_next.bind
  intro token
  obtain ⟨kind, text, place⟩ := token
  cases kind with
  | endOfFile | comment | whiteSpace => exact .throw
  | number | string => exact .pure rfl
  | name =>
      apply Carries.peek
      · intro ahead
        by_cases opens : ahead = some (.punctuator .leftParen)
        · rw [if_pos opens, if_pos opens]
          apply (layers.parenthesized bound).bind
          intro arguments
          apply Carries.pure
          rw [Expr.relocate, relocateArguments_eq]
          rfl
        · rw [if_neg opens, if_neg opens]
          exact .pure rfl
      · exact fun _ _ _ => False.elim
  | keyword word =>
      cases word with
      | kwNull | kwTrue | kwFalse => exact .pure rfl
      | _ => exact .throw
  | punctuator mark =>
      cases mark with
      | minus | bang => exact h.bind (fun _ => .pure rfl) fun _ _ _ _ => id
      | leftParen =>
          apply layers.bind_needs _ fun _ => (needs_mark _).bind
          intro inner
          exact (closes_mark _).bind fun _ => .pure rfl
      | _ => exact .throw

theorem operand_extends (bound depth : Nat) :
    Extends move (Expr.relocate move) (operand bound depth) (operand bound depth) := by
  induction depth with
  | zero => exact .throw
  | succ depth ih => exact operandStep_extends ih

theorem expression_extends (bound depth : Nat) :
    Extends move (Expr.relocate move) (expression bound depth) (expression bound depth) :=
  layered_extends (operand_extends bound depth)

section Statements

variable {deeper deeper' : Reader Stmt}

theorem needs_finished (h : Extends move (Expr.relocate move) inner inner') :
    (finished inner).Needs :=
  h.needs_bind fun _ => (needs_mark _).bind

theorem finished_closes (h : Extends move (Expr.relocate move) inner inner') :
    Closes move (Expr.relocate move) (finished inner) (finished inner') :=
  h.bind_needs (fun _ => (closes_mark _).bind fun _ => .pure rfl) fun _ => (needs_mark _).bind

theorem condition_closes (h : Extends move (Expr.relocate move) inner inner') :
    Closes move (Expr.relocate move) (condition inner) (condition inner') := by
  apply (closes_mark _).bind
  intro _
  apply h.bind_needs _ fun _ => (needs_mark _).bind
  intro value
  exact (closes_mark _).bind fun _ => .pure rfl

theorem binding_closes (h : Extends move (Expr.relocate move) inner inner') :
    Closes move (Prod.map (Token.relocate move) (Expr.relocate move)) (binding inner)
      (binding inner') := by
  apply (closes_expect _).bind
  intro name
  apply (closes_mark _).bind
  intro _
  exact (finished_closes h).bind fun _ => .pure rfl

theorem parameter_closes : Closes move (Parameter.relocate move) parameter parameter :=
  (closes_expect _).bind fun _ => .pure rfl

/-- An expression with a semicolon is no single token. -/
theorem finished_long (sound : inner.Sound fun value ts => Derives (.expression value) ts)
    {tokens rest : List Token} {value : Expr} (read : (finished inner).Reads tokens value rest) :
    1 < tokens.length := by
  obtain ⟨ts, stop, rfl, derived, -⟩ := finished_takes sound value rest read
  obtain ⟨⟨token, more, rfl, -⟩, -⟩ := derived.shaped
  simp only [List.length_append, List.length_cons]
  omega

/-- A statement is read again if the expressions in it and the statements one level further down
are. Only a conditional looks behind its end, for an alternative. -/
theorem statementStep_carries (h : Extends move (Expr.relocate move) inner inner')
    (sound : inner.Sound fun value ts => Derives (.expression value) ts)
    (below : Carries move NoElse (Stmt.relocate move) deeper deeper') :
    Carries move NoElse (Stmt.relocate move) (statementStep bound inner deeper)
      (statementStep bound inner' deeper') := by
  have ended := finished_closes h
  have bare : Closes move (Stmt.relocate move)
      (finished inner >>= fun value => pure (.expression value.location value) : Reader Stmt)
      (finished inner' >>= fun value => pure (.expression value.location value)) := by
    apply ended.bind
    intro value
    apply Carries.pure
    rw [Stmt.relocate, Expr.location_relocate]
  apply Carries.peek
  · intro kind
    cases kind with
    | none => exact bare.weaken
    | some kind =>
        cases kind with
        | punctuator mark =>
            cases mark with
            | leftBrace =>
                apply closes_next.bind
                intro brace
                apply (below.itemsToBrace bound).bind
                intro body
                apply Carries.pure
                rw [Stmt.relocate, relocateBody_eq]
                rfl
            | _ => exact bare.weaken
        | keyword word =>
            cases word with
            | kwPrint => exact closes_next.bind fun _ => ended.bind fun _ => .pure rfl
            | kwLet => exact closes_next.bind fun _ => (binding_closes h).bind fun _ => .pure rfl
            | kwFn =>
                apply closes_next.bind
                intro word
                apply (closes_expect _).bind
                intro name
                apply (parameter_closes.parenthesized bound).bind
                intro parameters
                apply (closes_expect _).bind
                intro brace
                apply (below.itemsToBrace bound).bind
                intro body
                apply Carries.pure
                rw [Stmt.relocate, relocateBody_eq]
                rfl
            | kwReturn =>
                apply closes_next.bind
                intro word
                apply Carries.accept
                · intro bare
                  cases bare with
                  | true => exact .pure rfl
                  | false => exact ended.bind fun _ => .pure rfl
                · intro value more read
                  exact absurd read ((needs_finished h).bind value [])
            | kwIf =>
                apply closes_next.bind
                intro word
                apply (condition_closes h).bind
                intro test
                apply below.bind
                · intro yes
                  apply Carries.accept
                  · intro more
                    cases more with
                    | true => exact below.bind (fun _ => .pure rfl) fun _ _ _ _ => id
                    | false => exact .pure rfl
                  · exact fun _ _ _ => id
                · exact fun _ _ _ _ => id
            | kwWhile =>
                apply closes_next.bind
                intro word
                apply (condition_closes h).bind
                intro test
                exact below.bind (fun _ => .pure rfl) fun _ _ _ _ => id
            | _ => exact bare.weaken
        | name =>
            apply Carries.look
            · intro second
              by_cases equal : second = some (.punctuator .equal)
              · rw [if_pos equal, if_pos equal]
                exact (binding_closes h).bind fun _ => .pure rfl
              · rw [if_neg equal, if_neg equal]
                exact bare.weaken
            · intro tokens value rest more short read
              obtain ⟨first, mid, read, -⟩ := read.of_bind
              exact absurd (finished_long sound read) (Nat.not_lt.mpr short)
        | _ => exact bare.weaken
  · intro value read
    exact absurd read ((needs_finished h).bind value [])

theorem statement_carries (bound depth : Nat) :
    Carries move NoElse (Stmt.relocate move) (statement bound depth) (statement bound depth) := by
  induction depth with
  | zero => exact .throw
  | succ depth ih =>
      exact statementStep_carries (expression_extends bound (depth + 1))
        (expression_sound bound (depth + 1)) ih

end Statements

end Syntax

end StackScript
