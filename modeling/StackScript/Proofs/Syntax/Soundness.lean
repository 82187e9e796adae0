/-
# Readers keep to the grammar

What a reader takes from the front of its tokens can be derived from the phrase that it reads,
with the tree that it gives. Statements are read up to an `else` that does not belong to them:
behind a statement that ends in a conditional without an alternative there is none.
-/

import StackScript.Proofs.Syntax.Grammar

namespace StackScript

namespace Reader

/-- Whatever a reader gives and leaves, starting with some tokens, is as it should be. -/
def Takes {α : Type} (reader : Reader α) (tokens : List Token) (post : α → List Token → Prop) :
    Prop :=
  ∀ value rest, reader tokens = .ok (value, rest) → post value rest

variable {α β : Type} {reader : Reader α} {f : α → Reader β} {tokens : List Token}
  {mid : α → List Token → Prop} {post : β → List Token → Prop}

theorem Takes.bind (first : reader.Takes tokens mid)
    (next : ∀ value later, mid value later → (f value).Takes later post) :
    (reader >>= f).Takes tokens post := by
  intro value rest h
  change (reader tokens >>= fun p => f p.1 p.2) = .ok (value, rest) at h
  cases read : reader tokens with
  | error failure =>
      rw [read] at h
      cases h
  | ok p =>
      rw [read] at h
      exact next p.1 p.2 (first p.1 p.2 read) value rest h

theorem Takes.pure {value : α} (h : mid value tokens) : (pure value : Reader α).Takes tokens mid := by
  rintro _ _ ⟨⟩
  exact h

theorem Takes.throw {failure : Failure} : (throw failure : Reader α).Takes tokens mid := by
  rintro _ _ ⟨⟩

theorem takes_kindAfter (count : Nat) :
    (kindAfter count).Takes tokens fun kind rest =>
      kind = tokens[count]?.map Token.kind ∧ rest = tokens := by
  rintro _ _ ⟨⟩
  exact ⟨rfl, rfl⟩

theorem takes_next : next.Takes tokens fun token rest => tokens = token :: rest := by
  intro token rest h
  cases tokens with
  | nil => cases h
  | cons first more =>
      cases h
      rfl

theorem takes_expect (kinds : List TokenKind) :
    (expect kinds).Takes tokens fun token rest => tokens = token :: rest ∧ token.kind ∈ kinds := by
  intro token rest h
  cases tokens with
  | nil => cases h
  | cons first more =>
      rw [expect] at h
      split at h
      · rename_i met
        cases h
        exact ⟨rfl, List.contains_iff_mem.mp met⟩
      · cases h

theorem takes_mark (mark : Punctuator) :
    (Reader.mark mark).Takes tokens fun _ rest =>
      ∃ token : Token, tokens = token :: rest ∧ token.kind = .punctuator mark := by
  refine (takes_expect _).bind fun token later found => .pure ?_
  exact ⟨token, found.1, List.mem_singleton.mp found.2⟩

/-- A token that is not the one looked for stays where it is. -/
theorem takes_accept (kind : TokenKind) :
    (accept kind).Takes tokens fun met rest =>
      if met then ∃ token : Token, tokens = token :: rest ∧ token.kind = kind
      else rest = tokens ∧ tokens[0]?.map Token.kind ≠ some kind := by
  intro met rest h
  cases tokens with
  | nil =>
      cases h
      exact ⟨rfl, nofun⟩
  | cons first more =>
      rw [accept] at h
      by_cases same : first.kind = kind
      · rw [if_pos same] at h
        cases h
        exact ⟨first, rfl, same⟩
      · rw [if_neg same] at h
        cases h
        exact ⟨rfl, fun found => same (Option.some.inj found)⟩

/-- What a reader takes from the front of its tokens is derived for what it gives. -/
def Sound {α : Type} (reader : Reader α) (derives : α → List Token → Prop) : Prop :=
  ∀ tokens, reader.Takes tokens fun value rest =>
    ∃ taken, tokens = taken ++ rest ∧ derives value taken

/-- The items of a list, with the parenthesis behind them. -/
def Closed {α : Type} (list : List α → List Token → Prop) (values : List α) (ts : List Token) :
    Prop :=
  ∃ front right, ts = front ++ [right] ∧ right.kind = .punctuator .rightParen ∧ list values front

theorem Sound.itemsToParen {derives : α → List Token → Prop} (list : List α → List Token → Prop)
    (h : reader.Sound derives) (one : ∀ {value ts}, derives value ts → list [value] ts)
    (more : ∀ {value values ts us comma}, derives value ts → comma.kind = .punctuator .comma →
      list values us → list (value :: values) (ts ++ comma :: us)) (bound : Nat) :
    (itemsToParen reader bound).Sound (Closed list) := by
  induction bound with
  | zero => exact fun _ => .throw
  | succ bound ih =>
      intro tokens
      refine (h tokens).bind ?_
      rintro first _ ⟨ts, rfl, derived⟩
      refine (takes_expect _).bind ?_
      rintro separator later ⟨rfl, kinds⟩
      split
      · rename_i closes
        exact .pure ⟨ts ++ [separator], by simp, ts, separator, rfl, closes, one derived⟩
      · rename_i goesOn
        have comma : separator.kind = .punctuator .comma := by simpa [goesOn] using kinds
        refine (ih later).bind ?_
        rintro others _ ⟨_, rfl, us, right, rfl, closes, listed⟩
        exact .pure ⟨ts ++ separator :: (us ++ [right]), by simp, ts ++ separator :: us, right,
          by simp, closes, more derived comma listed⟩

theorem Sound.parenthesized {list whole : List α → List Token → Prop} {bound : Nat}
    (h : (Reader.itemsToParen reader bound).Sound (Closed list))
    (empty : ∀ {left right}, left.kind = .punctuator .leftParen →
      right.kind = .punctuator .rightParen → whole [] [left, right])
    (filled : ∀ {values ts left right}, left.kind = .punctuator .leftParen → list values ts →
      right.kind = .punctuator .rightParen → whole values (left :: ts ++ [right])) :
    (parenthesized bound reader).Sound whole := by
  intro tokens
  refine (takes_mark _).bind ?_
  rintro _ mid ⟨left, rfl, opens⟩
  refine (takes_accept _).bind fun closed later found => ?_
  cases closed with
  | true =>
      obtain ⟨right, rfl, closes⟩ := found
      exact .pure ⟨[left, right], rfl, empty opens closes⟩
  | false =>
      obtain ⟨rfl, -⟩ := found
      rintro values rest read
      obtain ⟨_, rfl, ts, right, rfl, closes, listed⟩ := h _ values rest read
      exact ⟨left :: ts ++ [right], by simp, filled opens listed closes⟩

end Reader

namespace Syntax

open Reader (Sound Takes takes_next takes_expect takes_mark takes_accept takes_kindAfter)

section Expressions

variable {inner : Reader Expr} {bound : Nat}

theorem ofMark?_eq_some {mark : Punctuator} {op : BinaryOp} (h : BinaryOp.ofMark? mark = some op) :
    mark = op.mark := by
  cases mark <;> cases h <;> rfl

/-- An operator is taken only if it has the right tightness. -/
theorem takes_operator (tightness : Nat) {tokens : List Token} :
    (acceptOperator tightness).Takes tokens fun found rest =>
      (found = none ∧ rest = tokens) ∨ ∃ sign op, found = some op ∧ op.tightness = tightness ∧
        sign.kind = .punctuator op.mark ∧ tokens = sign :: rest := by
  refine (takes_kindAfter 0).bind ?_
  rintro kind _ ⟨same, rfl⟩
  split
  · rename_i mark
    split
    · rename_i op known
      split
      · rename_i tight
        refine takes_next.bind ?_
        rintro sign later rfl
        refine .pure (.inr ⟨sign, op, rfl, tight, ?_, rfl⟩)
        rw [← ofMark?_eq_some known]
        exact (Option.some.inj same).symm
      · exact .pure (.inl ⟨rfl, rfl⟩)
    · exact .pure (.inl ⟨rfl, rfl⟩)
  · exact .pure (.inl ⟨rfl, rfl⟩)

/-- A chain is extended to the right, and groups to the left. -/
theorem chainFrom_sound {tightness : Nat}
    (h : inner.Sound fun value ts => Derives (.layer (tightness + 1) value) ts) (count : Nat)
    {left : Expr} {ts : List Token} (derived : Derives (.layer tightness left) ts) :
    (chainFrom tightness inner count left).Sound fun value us =>
      Derives (.layer tightness value) (ts ++ us) := by
  have stays (tokens : List Token) : ∃ taken, tokens = taken ++ tokens ∧
      Derives (.layer tightness left) (ts ++ taken) :=
    ⟨[], rfl, (List.append_nil ts).symm ▸ derived⟩
  induction count generalizing left ts with
  | zero => exact fun tokens => .pure (stays tokens)
  | succ count ih =>
      intro tokens
      refine (takes_operator tightness).bind ?_
      rintro _ _ (⟨rfl, rfl⟩ | ⟨sign, op, rfl, rfl, kind, rfl⟩)
      · exact .pure (stays _)
      · refine (h _).bind ?_
        rintro right later ⟨us, rfl, derived'⟩
        have whole := Derives.binary (mem_binaryMarks.mpr ⟨rfl, rfl⟩) derived kind derived'
        intro value rest read
        obtain ⟨vs, rfl, complete⟩ :=
          ih whole (fun tokens => ⟨[], rfl, (List.append_nil _).symm ▸ whole⟩) later value rest read
        exact ⟨sign :: us ++ vs, by simp, by simpa using complete⟩

theorem chain_sound {tightness : Nat} (tight : tightness < 5)
    (h : inner.Sound fun value ts => Derives (.layer (tightness + 1) value) ts) :
    (chain bound tightness inner).Sound fun value ts => Derives (.layer tightness value) ts := by
  intro tokens
  refine (h tokens).bind ?_
  rintro left later ⟨ts, rfl, derived⟩ value rest read
  obtain ⟨us, rfl, whole⟩ :=
    chainFrom_sound h bound (.tighter tight derived) later value rest read
  exact ⟨ts ++ us, by simp, whole⟩

theorem layered_sound (h : inner.Sound fun value ts => Derives (.operand value) ts) :
    (layered bound inner).Sound fun value ts => Derives (.expression value) ts :=
  chain_sound (by decide) (chain_sound (by decide) (chain_sound (by decide)
    (chain_sound (by decide) h)))

theorem arguments_sound (h : inner.Sound fun value ts => Derives (.expression value) ts) :
    (Reader.parenthesized bound inner).Sound fun values ts => Derives (.arguments values) ts :=
  (h.itemsToParen (fun values ts => Derives (.items values) ts)
    .item .moreItems bound).parenthesized .noArguments .arguments

/-- An operand is read if operands one level further down are. -/
theorem operandStep_sound (h : inner.Sound fun value ts => Derives (.operand value) ts) :
    (operandStep bound inner).Sound fun value ts => Derives (.operand value) ts := by
  have layers : (layered bound inner).Sound fun value ts => Derives (.expression value) ts :=
    layered_sound h
  intro tokens
  refine takes_next.bind ?_
  rintro token mid rfl
  have literal {value : Literal} (is : token.literal? = some value) :
      (pure (.literal token.location value) : Reader Expr).Takes mid fun value rest =>
        ∃ taken, token :: mid = taken ++ rest ∧ Derives (.operand value) taken :=
    .pure ⟨[token], rfl, .literal is⟩
  have unary {op : UnaryOp} (kind : token.kind = .punctuator op.mark) :
      (return .unary token.location op (← inner) : Reader Expr).Takes mid fun value rest =>
        ∃ taken, token :: mid = taken ++ rest ∧ Derives (.operand value) taken := by
    refine (h mid).bind ?_
    rintro operand _ ⟨ts, rfl, derived⟩
    exact .pure ⟨token :: ts, rfl, .unary (mem_unaryMarks.mpr rfl) kind derived⟩
  split
  · exact unary ‹_›
  · exact unary ‹_›
  · rename_i opens
    refine (layers mid).bind ?_
    rintro value _ ⟨ts, rfl, derived⟩
    refine (takes_mark _).bind ?_
    rintro _ _ ⟨right, rfl, closes⟩
    exact .pure ⟨token :: ts ++ [right], by simp, .parentheses opens derived closes⟩
  · rename_i isName
    refine (takes_kindAfter 0).bind ?_
    rintro _ _ ⟨-, rfl⟩
    split
    · refine (arguments_sound layers _).bind ?_
      rintro values _ ⟨ts, rfl, derived⟩
      exact .pure ⟨token :: ts, rfl, .call isName derived⟩
    · exact .pure ⟨[token], rfl, .reference isName⟩
  · exact literal (by simp only [Token.literal?, *])
  · exact literal (by simp only [Token.literal?, *])
  · exact literal (by simp only [Token.literal?, *])
  · exact literal (by simp only [Token.literal?, *])
  · exact literal (by simp only [Token.literal?, *])
  · exact .throw

theorem operand_sound (bound depth : Nat) :
    (operand bound depth).Sound fun value ts => Derives (.operand value) ts := by
  induction depth with
  | zero => exact fun _ => .throw
  | succ depth ih => exact operandStep_sound ih

theorem expression_sound (bound depth : Nat) :
    (expression bound depth).Sound fun value ts => Derives (.expression value) ts :=
  layered_sound (operand_sound bound depth)

end Expressions

/-- There is no `else` in front. -/
def NoElse (tokens : List Token) : Prop := tokens[0]?.map Token.kind ≠ some (.keyword .kwElse)

/-- A statement has been taken from the front of some tokens. -/
def TakesStatement (tokens : List Token) (st : Stmt) (rest : List Token) : Prop :=
  ∃ taken, tokens = taken ++ rest ∧ Derives (.statement st) taken ∧ (st.endsOpen → NoElse rest)

section Statements

variable {inner : Reader Expr} {deeper : Reader Stmt} {tokens : List Token} {bound : Nat}

theorem finished_takes (h : inner.Sound fun value ts => Derives (.expression value) ts) :
    (finished inner).Takes tokens fun value rest => ∃ ts stop, tokens = ts ++ stop :: rest ∧
      Derives (.expression value) ts ∧ stop.kind = .punctuator .semicolon := by
  refine (h tokens).bind ?_
  rintro value _ ⟨ts, rfl, derived⟩
  refine (takes_mark _).bind ?_
  rintro _ _ ⟨stop, rfl, ends⟩
  exact .pure ⟨ts, stop, rfl, derived, ends⟩

theorem condition_takes (h : inner.Sound fun value ts => Derives (.expression value) ts) :
    (condition inner).Takes tokens fun value rest => ∃ left ts right,
      tokens = left :: ts ++ right :: rest ∧ left.kind = .punctuator .leftParen ∧
        Derives (.expression value) ts ∧ right.kind = .punctuator .rightParen := by
  refine (takes_mark _).bind ?_
  rintro _ _ ⟨left, rfl, opens⟩
  refine (h _).bind ?_
  rintro value _ ⟨ts, rfl, derived⟩
  refine (takes_mark _).bind ?_
  rintro _ _ ⟨right, rfl, closes⟩
  exact .pure ⟨left, ts, right, rfl, opens, derived, closes⟩

theorem binding_takes (h : inner.Sound fun value ts => Derives (.expression value) ts) :
    (binding inner).Takes tokens fun found rest => ∃ equal ts stop,
      tokens = found.1 :: equal :: ts ++ stop :: rest ∧ found.1.kind = .name ∧
        equal.kind = .punctuator .equal ∧ Derives (.expression found.2) ts ∧
          stop.kind = .punctuator .semicolon := by
  refine (takes_expect _).bind ?_
  rintro name _ ⟨rfl, isName⟩
  refine (takes_mark _).bind ?_
  rintro _ _ ⟨equal, rfl, isEqual⟩
  refine (finished_takes h).bind ?_
  rintro value _ ⟨ts, stop, rfl, derived, ends⟩
  exact .pure ⟨equal, ts, stop, rfl, List.mem_singleton.mp isName, isEqual, derived, ends⟩

theorem parameters_sound :
    (Reader.parenthesized bound parameter).Sound fun parameters ts =>
      Derives (.parameters parameters) ts := by
  have one : parameter.Sound fun found ts => ∃ name : Token, name.kind = .name ∧
      found = ⟨name.location, name.text⟩ ∧ ts = [name] := by
    intro tokens
    refine (takes_expect _).bind ?_
    rintro name _ ⟨rfl, isName⟩
    exact .pure ⟨[name], rfl, name, List.mem_singleton.mp isName, rfl, rfl⟩
  refine (one.itemsToParen (fun parameters ts => Derives (.names parameters) ts)
    ?_ ?_ bound).parenthesized .noParameters .parameters
  · rintro _ _ ⟨name, isName, rfl, rfl⟩
    exact .name isName
  · rintro _ parameters _ us comma ⟨name, isName, rfl, rfl⟩ isComma listed
    exact .moreNames isName isComma listed

/-- Statements are read to the closing brace. -/
theorem itemsToBrace_takes (h : ∀ tokens, deeper.Takes tokens (TakesStatement tokens)) :
    (Reader.itemsToBrace deeper bound).Takes tokens fun body rest => ∃ ts right,
      tokens = ts ++ right :: rest ∧ right.kind = .punctuator .rightBrace ∧
        Derives (.statements body) ts := by
  induction bound generalizing tokens with
  | zero => exact .throw
  | succ bound ih =>
      refine (takes_accept _).bind fun closed later found => ?_
      cases closed with
      | true =>
          obtain ⟨right, rfl, closes⟩ := found
          exact .pure ⟨[], right, rfl, closes, .nothing⟩
      | false =>
          obtain ⟨rfl, -⟩ := found
          refine (h _).bind ?_
          rintro first _ ⟨ts, rfl, derived, -⟩
          refine ih.bind ?_
          rintro rest _ ⟨us, right, rfl, closes, listed⟩
          exact .pure ⟨ts ++ us, right, by simp, closes, .statements derived listed⟩

/-- A bare return ends at once; the value of another is read first. -/
theorem return_takes (h : inner.Sound fun value ts => Derives (.expression value) ts)
    (kind : tokens[0]?.map Token.kind = some (.keyword .kwReturn)) :
    (do
      let word ← Reader.next
      if ← Reader.accept (.punctuator .semicolon) then
        return .ret word.location none
      else
        return .ret word.location (some (← finished inner)) : Reader Stmt).Takes tokens
      (TakesStatement tokens) := by
  refine takes_next.bind ?_
  rintro word _ rfl
  have isReturn := Option.some.inj kind
  refine (takes_accept _).bind fun bare later found => ?_
  cases bare with
  | true =>
      obtain ⟨stop, rfl, ends⟩ := found
      exact .pure ⟨[word, stop], rfl, .returnNothing isReturn ends, nofun⟩
  | false =>
      obtain ⟨rfl, -⟩ := found
      refine (finished_takes h).bind ?_
      rintro value _ ⟨ts, stop, rfl, derived, ends⟩
      exact .pure ⟨word :: ts ++ [stop], by simp, .returnValue isReturn derived ends, nofun⟩

/-- An `else` that comes next is always taken. -/
theorem conditional_takes (h : inner.Sound fun value ts => Derives (.expression value) ts)
    (below : ∀ tokens, deeper.Takes tokens (TakesStatement tokens))
    (kind : tokens[0]?.map Token.kind = some (.keyword .kwIf)) :
    (do
      let word ← Reader.next
      let test ← condition inner
      let yes ← deeper
      if ← Reader.accept (.keyword .kwElse) then
        return .ifElse word.location test yes (← deeper)
      else
        return .ifThen word.location test yes : Reader Stmt).Takes tokens
      (TakesStatement tokens) := by
  refine takes_next.bind ?_
  rintro word _ rfl
  have isIf := Option.some.inj kind
  refine (condition_takes h).bind ?_
  rintro test _ ⟨left, ts, right, rfl, opens, derived, closes⟩
  refine (below _).bind ?_
  rintro yes _ ⟨us, rfl, run, noElse⟩
  refine (takes_accept _).bind fun more later found => ?_
  cases more with
  | true =>
      obtain ⟨other, rfl, isElse⟩ := found
      have closed : yes.endsOpen = false := by
        cases opened : yes.endsOpen with
        | false => rfl
        | true => exact absurd (congrArg some isElse) (noElse opened)
      refine (below _).bind ?_
      rintro no _ ⟨vs, rfl, run', noElse'⟩
      exact .pure ⟨word :: left :: ts ++ right :: us ++ other :: vs, by simp,
        .ifElse isIf opens derived closes run closed isElse run', noElse'⟩
  | false =>
      obtain ⟨rfl, none_follows⟩ := found
      exact .pure ⟨word :: left :: ts ++ right :: us, by simp,
        .ifThen isIf opens derived closes run, fun _ => none_follows⟩

/-- A statement is read if its expressions and the statements one level further down are. -/
theorem statementStep_takes (h : inner.Sound fun value ts => Derives (.expression value) ts)
    (below : ∀ tokens, deeper.Takes tokens (TakesStatement tokens)) :
    (statementStep bound inner deeper).Takes tokens (TakesStatement tokens) := by
  have bare : (do
      let value ← finished inner
      return .expression value.location value : Reader Stmt).Takes tokens
        (TakesStatement tokens) := by
    refine (finished_takes h).bind ?_
    rintro value rest ⟨ts, stop, rfl, derived, ends⟩
    exact .pure ⟨ts ++ [stop], by simp, .expression derived ends, nofun⟩
  refine (takes_kindAfter 0).bind ?_
  rintro kind _ ⟨same, rfl⟩
  split
  · refine takes_next.bind ?_
    rintro left _ rfl
    refine (itemsToBrace_takes below).bind ?_
    rintro body _ ⟨ts, right, rfl, closes, listed⟩
    exact .pure ⟨left :: ts ++ [right], by simp, .block (Option.some.inj same).symm listed closes,
      nofun⟩
  · refine takes_next.bind ?_
    rintro word _ rfl
    refine (finished_takes h).bind ?_
    rintro value _ ⟨ts, stop, rfl, derived, ends⟩
    exact .pure ⟨word :: ts ++ [stop], by simp, .print (Option.some.inj same).symm derived ends,
      nofun⟩
  · refine takes_next.bind ?_
    rintro word _ rfl
    refine (binding_takes h).bind ?_
    rintro ⟨name, value⟩ _ ⟨equal, ts, stop, rfl, isName, isEqual, derived, ends⟩
    exact .pure ⟨word :: name :: equal :: ts ++ [stop], by simp,
      .declare (Option.some.inj same).symm isName isEqual derived ends, nofun⟩
  · refine takes_next.bind ?_
    rintro word _ rfl
    refine (takes_expect _).bind ?_
    rintro name _ ⟨rfl, isName⟩
    refine (parameters_sound _).bind ?_
    rintro parameters _ ⟨ts, rfl, listed⟩
    refine (takes_expect _).bind ?_
    rintro left _ ⟨rfl, opens⟩
    refine (itemsToBrace_takes below).bind ?_
    rintro body _ ⟨us, right, rfl, closes, inside⟩
    exact .pure ⟨word :: name :: ts ++ left :: us ++ [right], by simp,
      .function (Option.some.inj same).symm (List.mem_singleton.mp isName) listed
        (List.mem_singleton.mp opens) inside closes, nofun⟩
  · exact return_takes h same.symm
  · exact conditional_takes h below same.symm
  · refine takes_next.bind ?_
    rintro word _ rfl
    refine (condition_takes h).bind ?_
    rintro test _ ⟨left, ts, right, rfl, opens, derived, closes⟩
    refine (below _).bind ?_
    rintro body _ ⟨us, rfl, run, noElse⟩
    exact .pure ⟨word :: left :: ts ++ right :: us, by simp,
      .loop (Option.some.inj same).symm opens derived closes run, noElse⟩
  · refine (takes_kindAfter 1).bind ?_
    rintro second _ ⟨-, rfl⟩
    split
    · refine (binding_takes h).bind ?_
      rintro ⟨name, value⟩ _ ⟨equal, ts, stop, rfl, isName, isEqual, derived, ends⟩
      exact .pure ⟨name :: equal :: ts ++ [stop], by simp, .assign isName isEqual derived ends,
        nofun⟩
    · exact bare
  · exact bare

theorem statement_takes (bound depth : Nat) :
    (statement bound depth).Takes tokens (TakesStatement tokens) := by
  induction depth generalizing tokens with
  | zero => exact .throw
  | succ depth ih => exact statementStep_takes (expression_sound bound (depth + 1)) fun _ => ih

/-- A program that is read is derived from all of its tokens. -/
theorem statements_sound {limit count : Nat} {ending : Diagnostic} {body : List Stmt}
    (read : statements limit bound ending count tokens = .ok body) :
    Derives (.statements body) tokens := by
  induction count generalizing tokens body with
  | zero =>
      cases tokens with
      | nil =>
          cases read
          exact .nothing
      | cons token rest => cases read
  | succ count ih =>
      cases tokens with
      | nil =>
          cases read
          exact .nothing
      | cons token rest =>
          rw [statements] at read
          split at read
          · cases read
          · rename_i first left found
            obtain ⟨ts, same, derived, -⟩ := statement_takes bound limit first left found
            rw [same]
            cases more : statements limit bound ending count left with
            | error diagnostic =>
                rw [more] at read
                cases read
            | ok others =>
                rw [more] at read
                cases read
                exact .statements derived (ih more)

end Statements

end Syntax

end StackScript
