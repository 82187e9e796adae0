/-
# Prefixes of programs

The readers of the language follow their tokens: what they have taken when they fail is the
beginning of something that the grammar derives, and the token that they fail at cannot follow it.
So the first token that a program is refused for is the first one with which no program begins.
-/

import StackScript.Proofs.Syntax.Bare
import StackScript.Proofs.Syntax.Following

namespace StackScript.Syntax

open Reader (Completable Follows Tracks follows_expect follows_mark length_le_of_split reads_next
  reads_kindAfter reads_expect reads_mark)

/-- A name, which is an expression of every layer. -/
def someName : Word := nameWord "x"

theorem someName_spelled : someName.Spelled :=
  ⟨Lexeme.isWord_of_all (by decide) (by decide), by decide⟩

section Expressions

variable {bound bound' depth tightness : Nat} {inner inner' : Reader Expr}

/-- A reader of the expressions of some layer follows its tokens. -/
abbrev LayerTracks (bound depth tightness : Nat) (inner inner' : Reader Expr) : Prop :=
  Tracks bound depth inner inner' fun value ts => Derives (.layer tightness value) ts

theorem completable_layer (le : tightness ≤ 5) :
    Completable (fun value ts => Derives (.layer tightness value) ts) [] :=
  ⟨[someName], .reference default "x", by simpa using someName_spelled,
    (@Derives.reference someName.token rfl).loosened le (le_refl 5)⟩

/-- An operator of a layer comes next, or none is found there whatever comes behind. -/
theorem operator_cases (tightness : Nat) (tokens : List Token) :
    (∃ (sign : Token) (op : BinaryOp) (rest : List Token), tokens = sign :: rest ∧
      sign.kind = .punctuator op.mark ∧ op.tightness = tightness) ∨ ∀ others : List Token, others.head? = tokens.head? →
        (acceptOperator tightness).Reads others none others := by
  by_cases found : ∃ op : BinaryOp, tokens.head?.map Token.kind = some (.punctuator op.mark) ∧
      op.tightness = tightness
  · obtain ⟨op, kind, tight⟩ := found
    cases tokens with
    | nil => cases kind
    | cons sign rest => exact .inl ⟨sign, op, rest, rfl, Option.some.inj kind, tight⟩
  · right
    intro others head
    apply (reads_kindAfter 0).bind
    split
    · rename_i mark same
      split
      · rename_i op known
        have other : op.tightness ≠ tightness := by
          intro tight
          apply found
          rw [ofMark?_eq_some known, ← List.head?_eq_getElem?, head] at same
          exact ⟨op, same, tight⟩
        rw [if_neg other]
        exact .pure _
      · exact .pure _
    · exact .pure _

theorem chainFrom_operator {sign : Token} {op : BinaryOp} (kind : sign.kind = .punctuator op.mark)
    (count : Nat) (left : Expr) (others : List Token) :
    chainFrom op.tightness inner (count + 1) left (sign :: others) =
      (inner >>= fun right => chainFrom op.tightness inner count
        (.binary left.location op left right)) others := by
  rw [chainFrom]
  change (acceptOperator op.tightness (sign :: others) >>= fun p => _) = _
  rw [reads_operator kind]
  rfl

theorem chainFrom_other {tokens : List Token} (h : (acceptOperator tightness).Reads tokens none tokens)
    (count : Nat) (left : Expr) : chainFrom tightness inner count left tokens = .ok (left, tokens) := by
  cases count with
  | zero => rfl
  | succ count =>
      rw [chainFrom]
      change (acceptOperator tightness tokens >>= fun p => _) = _
      rw [h]
      rfl

theorem chainFrom_follows (tight : tightness < 5)
    (h : LayerTracks bound depth (tightness + 1) inner inner') {count count' : Nat}
    (le : count ≤ count') {left : Expr} {ts : List Token}
    (derived : Derives (.layer tightness left) ts) {tokens : List Token}
    (room : tokens.length ≤ count) (small : tokens.length < bound) :
    Follows depth (chainFrom tightness inner count left) (chainFrom tightness inner' count' left)
      (fun value us => Derives (.layer tightness value) (ts ++ us)) tokens := by
  induction count generalizing tokens count' left ts with
  | zero =>
      obtain rfl : tokens = [] := List.length_eq_zero_iff.mp (Nat.le_zero.mp room)
      obtain ⟨_, _, _, split, _⟩ | none := operator_cases tightness []
      · cases split
      · have stays : Derives (.layer tightness left) (ts ++ []) := (List.append_nil ts).symm ▸ derived
        exact (Follows.pure stays).peek rfl fun others head =>
          chainFrom_other (none others head) count' left
  | succ count ih =>
      obtain ⟨count', rfl⟩ : ∃ less, count' = less + 1 := ⟨count' - 1, by omega⟩
      obtain ⟨sign, op, rest, rfl, kind, rfl⟩ | none := operator_cases tightness tokens
      · rw [List.length_cons] at room small
        have whole {right : Expr} {us : List Token}
            (derived' : Derives (.layer (op.tightness + 1) right) us) :
            Derives (.layer op.tightness (.binary left.location op left right))
              (ts ++ sign :: us) :=
          .binary (mem_binaryMarks.mpr ⟨rfl, rfl⟩) derived kind derived'
        apply Follows.weaken _ (Nat.le_succ depth)
        apply Follows.consume _ (chainFrom_operator kind count left rest)
          (chainFrom_operator kind count' left)
        apply (h rest (by omega)).bind
        · intro right us derived'
          exact .here (whole derived')
        · intro right us later split _ derived'
          have shorter : later.length ≤ rest.length := by simp [split]
          apply (ih (by omega) (whole derived') (by omega) (by omega)).imp
          intro value vs complete
          simpa using complete
      · have stays : Derives (.layer tightness left) (ts ++ []) := (List.append_nil ts).symm ▸ derived
        exact (Follows.pure stays).peek (chainFrom_other (none tokens rfl) _ left)
          fun others head => chainFrom_other (none others head) _ left

theorem chain_tracks (le : bound ≤ bound') (tight : tightness < 5)
    (h : LayerTracks bound depth (tightness + 1) inner inner') :
    LayerTracks bound depth tightness (chain bound tightness inner)
      (chain bound' tightness inner') := by
  intro tokens small
  apply (h tokens small).bind
  · intro left ts derived
    exact .here (.tighter tight derived)
  · intro left ts rest split _ derived
    have shorter : rest.length < bound := (length_le_of_split split).trans_lt small
    exact chainFrom_follows tight h le (.tighter tight derived) (le_of_lt shorter) shorter

theorem layered_tracks (le : bound ≤ bound') (h : LayerTracks bound depth 5 inner inner') :
    LayerTracks bound depth 1 (layered bound inner) (layered bound' inner') :=
  chain_tracks le (by decide) (chain_tracks le (by decide) (chain_tracks le (by decide)
    (chain_tracks le (by decide) h)))

theorem arguments_tracks (le : bound ≤ bound') (h : LayerTracks bound depth 1 inner inner') :
    Tracks bound depth (Reader.parenthesized bound inner) (Reader.parenthesized bound' inner')
      fun values ts => Derives (.arguments values) ts :=
  h.parenthesized (completable_layer (by decide)) .item .moreItems .noArguments .arguments le

theorem next_bind {α : Type} (f : Token → Reader α) (token : Token) (others : List Token) :
    (Reader.next >>= f) (token :: others) = f token others := rfl

/-- What cannot begin an expression is refused as an operand. -/
theorem operandStep_refused {token : Token} (h : token.kind.beginsExpr = false)
    (others : List Token) :
    operandStep bound inner (token :: others) = .error (.unexpected token []) := by
  rw [operandStep, next_bind]
  cases kind : token.kind with
  | keyword word =>
      rw [kind] at h
      cases word <;> first | rfl | cases h
  | punctuator mark =>
      rw [kind] at h
      cases mark <;> first | rfl | cases h
  | endOfFile | comment | whiteSpace => rfl
  | number | string | name =>
      rw [kind] at h
      cases h

section Operand

variable {token : Token} {others : List Token}

theorem operandStep_unary {op : UnaryOp} (kind : token.kind = .punctuator op.mark)
    (others : List Token) : operandStep bound inner (token :: others) =
      (inner >>= fun value => pure (.unary token.location op value) : Reader Expr) others := by
  rw [operandStep, next_bind]
  cases op with
  | negate => simp only [show token.kind = .punctuator .minus from kind]
  | not => simp only [show token.kind = .punctuator .bang from kind]

theorem operandStep_parentheses (opens : token.kind = .punctuator .leftParen)
    (others : List Token) : operandStep bound inner (token :: others) =
      (do
        let value ← layered bound inner
        Reader.mark .rightParen
        return value : Reader Expr) others := by
  rw [operandStep, next_bind]
  simp only [opens]

theorem operandStep_call (isName : token.kind = .name)
    (opens : others.head?.map Token.kind = some (.punctuator .leftParen)) :
    operandStep bound inner (token :: others) =
      (Reader.parenthesized bound (layered bound inner) >>= fun arguments =>
        pure (.call token.location token.text arguments) : Reader Expr) others := by
  rw [operandStep, next_bind]
  simp only [isName]
  change ((if others[0]?.map Token.kind = _ then _ else _ : Reader Expr)) others = _
  rw [← List.head?_eq_getElem?, if_pos opens]

theorem operandStep_reference (isName : token.kind = .name)
    (other : others.head?.map Token.kind ≠ some (.punctuator .leftParen)) :
    operandStep bound inner (token :: others) =
      (pure (.reference token.location token.text) : Reader Expr) others := by
  rw [operandStep, next_bind]
  simp only [isName]
  change ((if others[0]?.map Token.kind = _ then _ else _ : Reader Expr)) others = _
  rw [← List.head?_eq_getElem?, if_neg other]

/-- An operand that begins with a given token is followed from there. -/
def OperandFollows (bound bound' depth : Nat) (inner inner' : Reader Expr) (token : Token)
    (rest : List Token) : Prop :=
  Follows (depth + 1) (operandStep bound inner) (operandStep bound' inner')
    (fun value ts => Derives (.operand value) ts) (token :: rest)

variable {rest : List Token}

theorem literal_follows (is : token.literal?.isSome = true) :
    OperandFollows bound bound' depth inner inner' token rest := by
  obtain ⟨value, is⟩ := Option.isSome_iff_exists.mp is
  exact @Follows.done _ _ _ _ _ _ (.literal token.location value) [token] rest rfl (reads_literal is)
    (.literal is) fun _ _ => reads_literal is

theorem unary_follows (h : LayerTracks bound depth 5 inner inner') (small : rest.length < bound)
    {op : UnaryOp} (kind : token.kind = .punctuator op.mark) :
    OperandFollows bound bound' depth inner inner' token rest := by
  have whole {value : Expr} {ts : List Token} (derived : Derives (.operand value) ts) :
      Derives (.operand (.unary token.location op value)) (token :: ts) :=
    .unary (mem_unaryMarks.mpr rfl) kind derived
  apply Follows.consume _ (operandStep_unary kind rest) (operandStep_unary kind)
  exact (h rest small).map whole

theorem parentheses_follows (h : LayerTracks bound depth 1 (layered bound inner) (layered bound' inner'))
    (small : rest.length < bound) (opens : token.kind = .punctuator .leftParen) :
    OperandFollows bound bound' depth inner inner' token rest := by
  have whole {value : Expr} {ts : List Token} {right : Token}
      (derived : Derives (.expression value) ts) (closes : right.kind = .punctuator .rightParen) :
      Derives (.operand value) (token :: (ts ++ [right])) :=
    .parentheses opens derived closes
  apply Follows.consume _ (operandStep_parentheses opens rest) (operandStep_parentheses opens)
  apply (h rest small).bind
  · intro value ts derived
    exact ⟨[Punctuator.rightParen.word], value, by simp, whole derived rfl⟩
  · intro value ts later _ _ derived
    apply (follows_mark .rightParen).bind
    · intro _ us found
      obtain ⟨right, rfl, closes⟩ := found
      exact .here (whole derived closes)
    · intro _ us last _ _ found
      obtain ⟨right, rfl, closes⟩ := found
      exact .pure (whole derived closes)

/-- Whether a name is a call is decided by the token behind it. -/
theorem name_follows (le : bound ≤ bound')
    (h : LayerTracks bound depth 1 (layered bound inner) (layered bound' inner'))
    (small : rest.length < bound) (isName : token.kind = .name) :
    OperandFollows bound bound' depth inner inner' token rest := by
  apply Follows.consume _ rfl fun _ => rfl
  by_cases opens : rest.head?.map Token.kind = some (.punctuator .leftParen)
  · apply Follows.peek _ (operandStep_call isName opens) fun others head =>
      operandStep_call isName (head ▸ opens)
    exact (arguments_tracks le h rest small).map fun listed => .call isName listed
  · apply Follows.peek _ (operandStep_reference isName opens) fun others head =>
      operandStep_reference isName (head ▸ opens)
    exact .pure (.reference isName)

end Operand

theorem operandStep_tracks (le : bound ≤ bound') (h : LayerTracks bound depth 5 inner inner') :
    LayerTracks bound (depth + 1) 5 (operandStep bound inner) (operandStep bound' inner') := by
  have layers : LayerTracks bound depth 1 (layered bound inner) (layered bound' inner') :=
    layered_tracks le h
  intro tokens small
  cases tokens with
  | nil => exact .missing rfl rfl (completable_layer (le_refl 5))
  | cons token rest =>
      have shorter : rest.length < bound := Nat.lt_of_succ_lt small
      by_cases begins : token.kind.beginsExpr = true
      · cases kind : token.kind with
        | number | string => exact literal_follows (by simp [Token.literal?, kind])
        | name => exact name_follows le layers shorter kind
        | keyword word =>
            rw [kind] at begins
            cases word with
            | kwNull | kwTrue | kwFalse => exact literal_follows (by simp [Token.literal?, kind])
            | _ => cases begins
        | punctuator mark =>
            rw [kind] at begins
            cases mark with
            | minus => exact @unary_follows _ _ _ _ _ _ _ h shorter .negate kind
            | bang => exact @unary_follows _ _ _ _ _ _ _ h shorter .not kind
            | leftParen => exact parentheses_follows layers shorter kind
            | _ => cases begins
        | endOfFile | comment | whiteSpace =>
            rw [kind] at begins
            cases begins
      · rw [Bool.not_eq_true] at begins
        exact .refused (operandStep_refused begins rest) (operandStep_refused begins)
          (completable_layer (le_refl 5))

theorem operand_tracks {depth' : Nat} (le : bound ≤ bound') (le' : depth ≤ depth') :
    LayerTracks bound depth 5 (operand bound depth) (operand bound' depth') := by
  induction depth generalizing depth' with
  | zero => exact fun tokens _ => .tooDeep rfl (Nat.zero_le _)
  | succ depth ih =>
      obtain ⟨depth', rfl⟩ : ∃ less, depth' = less + 1 := ⟨depth' - 1, by omega⟩
      exact operandStep_tracks le (ih (Nat.le_of_succ_le_succ le'))

theorem expression_tracks {depth' : Nat} (le : bound ≤ bound') (le' : depth ≤ depth') :
    LayerTracks bound depth 1 (expression bound depth) (expression bound' depth') :=
  layered_tracks le (operand_tracks le le')

end Expressions

section Statements

variable {bound bound' depth : Nat} {inner inner' : Reader Expr} {deeper deeper' : Reader Stmt}
  {tokens rest : List Token} {word : Token}

/-- An expression with the semicolon behind it. -/
def Ended (value : Expr) (ts : List Token) : Prop :=
  ∃ us stop, ts = us ++ [stop] ∧ Derives (.expression value) us ∧
    stop.kind = .punctuator .semicolon

/-- A condition in its parentheses. -/
def Enclosed (value : Expr) (ts : List Token) : Prop :=
  ∃ left us right, ts = left :: us ++ [right] ∧ left.kind = .punctuator .leftParen ∧
    Derives (.expression value) us ∧ right.kind = .punctuator .rightParen

/-- Statements with the closing brace behind them. -/
def Braced (body : List Stmt) (ts : List Token) : Prop :=
  ∃ us right, ts = us ++ [right] ∧ right.kind = .punctuator .rightBrace ∧
    Derives (.statements body) us

theorem completable_ended : Completable Ended [] :=
  ⟨[someName, Punctuator.semicolon.word], .reference default "x", by simpa using someName_spelled,
    [someName.token], Punctuator.semicolon.word.token, rfl,
    (@Derives.reference someName.token rfl).loosened (by decide) (le_refl 5), rfl⟩

theorem completable_statement :
    Completable (fun st ts => Derives (.statement st) ts) [] := by
  obtain ⟨words, value, spelled, us, stop, split, derived, ends⟩ := completable_ended
  exact ⟨words, .expression value.location value, spelled, split ▸ .expression derived ends⟩

theorem finished_tracks (h : LayerTracks bound depth 1 inner inner') :
    Tracks bound depth (finished inner) (finished inner') Ended := by
  intro tokens small
  apply (h tokens small).bind
  · intro value ts derived
    exact ⟨[Punctuator.semicolon.word], value, by simp, ts, _, rfl, derived, rfl⟩
  · intro value ts later _ _ derived
    apply (follows_mark .semicolon).bind
    · intro _ us found
      obtain ⟨stop, rfl, ends⟩ := found
      exact .here ⟨ts, stop, rfl, derived, ends⟩
    · intro _ us last _ _ found
      obtain ⟨stop, rfl, ends⟩ := found
      exact .pure ⟨ts, stop, rfl, derived, ends⟩

theorem condition_tracks (h : LayerTracks bound depth 1 inner inner') :
    Tracks bound depth (condition inner) (condition inner') Enclosed := by
  have someExpr : Derives (.expression (.reference default "x")) [someName.token] :=
    (@Derives.reference someName.token rfl).loosened (by decide) (le_refl 5)
  intro tokens small
  apply (follows_mark .leftParen).bind
  · intro _ ts found
    obtain ⟨left, rfl, opens⟩ := found
    exact ⟨[someName, Punctuator.rightParen.word], _, by simpa using someName_spelled, left,
      [someName.token], _, rfl, opens, someExpr, rfl⟩
  intro _ ts rest split _ found
  obtain ⟨left, rfl, opens⟩ := found
  have shorter : rest.length < bound := (length_le_of_split split).trans_lt small
  apply (h rest shorter).bind
  · intro value ts derived
    exact ⟨[Punctuator.rightParen.word], value, by simp, left, ts, _, rfl, opens, derived, rfl⟩
  · intro value ts later _ _ derived
    apply (follows_mark .rightParen).bind
    · intro _ us found
      obtain ⟨right, rfl, closes⟩ := found
      exact .here ⟨left, ts, right, rfl, opens, derived, closes⟩
    · intro _ us last _ _ found
      obtain ⟨right, rfl, closes⟩ := found
      exact .pure ⟨left, ts, right, rfl, opens, derived, closes⟩

theorem follows_name : Follows depth (Reader.expect [.name]) (Reader.expect [.name])
    (fun name ts => ts = [name] ∧ name.kind = .name) tokens := by
  apply (follows_expect someName_spelled (List.mem_singleton.mpr rfl)).imp
  intro name ts found
  exact ⟨found.1, List.mem_singleton.mp found.2⟩

/-- A name, an equals sign, and an expression with the semicolon behind it. -/
def Assigned (found : Token × Expr) (ts : List Token) : Prop :=
  ∃ equal us stop, ts = found.1 :: equal :: us ++ [stop] ∧ found.1.kind = .name ∧
    equal.kind = .punctuator .equal ∧ Derives (.expression found.2) us ∧
      stop.kind = .punctuator .semicolon

theorem binding_tracks (h : LayerTracks bound depth 1 inner inner') :
    Tracks bound depth (binding inner) (binding inner') Assigned := by
  have assigned {name equal : Token} {value : Expr} {ts : List Token} (isName : name.kind = .name)
      (isEqual : equal.kind = .punctuator .equal) (ended : Ended value ts) :
      Assigned (name, value) (name :: equal :: ts) := by
    obtain ⟨us, stop, rfl, derived, ends⟩ := ended
    exact ⟨equal, us, stop, rfl, isName, isEqual, derived, ends⟩
  obtain ⟨words, value, spelled, ended⟩ := completable_ended
  intro tokens small
  apply follows_name.bind
  · intro name ts found
    obtain ⟨rfl, isName⟩ := found
    exact ⟨Punctuator.equal.word :: words, (name, value), by simpa using spelled,
      assigned isName rfl ended⟩
  intro name ts rest split _ found
  obtain ⟨rfl, isName⟩ := found
  apply (follows_mark .equal).bind
  · intro _ ts found
    obtain ⟨equal, rfl, isEqual⟩ := found
    exact ⟨words, (name, value), spelled, assigned isName isEqual ended⟩
  intro _ ts rest' split' _ found
  obtain ⟨equal, rfl, isEqual⟩ := found
  have shorter : rest'.length < bound := by
    rw [split] at small
    exact (length_le_of_split split').trans_lt
      ((length_le_of_split rfl).trans_lt small)
  apply (finished_tracks h rest' shorter).map
  exact assigned isName isEqual

theorem parameters_tracks (le : bound ≤ bound') :
    Tracks bound depth (Reader.parenthesized bound parameter)
      (Reader.parenthesized bound' parameter) fun listed ts => Derives (.parameters listed) ts := by
  have one : Tracks bound depth parameter parameter fun found ts => ∃ name : Token,
      name.kind = .name ∧ found = ⟨name.location, name.text⟩ ∧ ts = [name] := by
    intro tokens _
    apply follows_name.bind
    · intro name ts found
      exact .here ⟨name, found.2, rfl, found.1⟩
    · intro name ts later _ _ found
      exact .pure ⟨name, found.2, rfl, by rw [found.1]; rfl⟩
  apply one.parenthesized ⟨[someName], _, by simpa using someName_spelled, someName.token, rfl, rfl,
    rfl⟩ _ _ .noParameters .parameters le
  · intro found ts name
    obtain ⟨name, isName, rfl, rfl⟩ := name
    exact .name isName
  · intro found listed ts us comma name isComma derived
    obtain ⟨name, isName, rfl, rfl⟩ := name
    exact .moreNames isName isComma derived

/-- The statements of a block are followed up to the closing brace. -/
theorem itemsToBrace_follows (h : Tracks bound depth deeper deeper' fun st ts => Derives (.statement st) ts)
    {count count' : Nat} (le : count ≤ count') (room : tokens.length < count)
    (small : tokens.length < bound) :
    Follows depth (Reader.itemsToBrace deeper count) (Reader.itemsToBrace deeper' count') Braced
      tokens := by
  induction count generalizing tokens count' with
  | zero => cases room
  | succ count ih =>
      obtain ⟨count', rfl⟩ : ∃ less, count' = less + 1 := ⟨count' - 1, by omega⟩
      rw [Reader.itemsToBrace, Reader.itemsToBrace]
      apply Follows.accept
      · intro right rest _ closes
        exact .pure ⟨[], right, rfl, closes, .nothing⟩
      intro _
      have joined {first : Stmt} {others : List Stmt} {ts us : List Token}
          (derived : Derives (.statement first) ts) (braced : Braced others us) :
          Braced (first :: others) (ts ++ us) := by
        obtain ⟨vs, right, rfl, closes, listed⟩ := braced
        exact ⟨ts ++ vs, right, by simp, closes, .statements derived listed⟩
      apply (h tokens small).bind
      · intro first ts derived
        exact ⟨[Punctuator.rightBrace.word], [first], by simp,
          joined derived ⟨[], Punctuator.rightBrace.word.token, rfl, rfl, .nothing⟩⟩
      · intro first ts rest split _ derived
        have shorter : rest.length < tokens.length := by
          obtain ⟨token, more, rfl, -⟩ := derived.shaped
          rw [split, List.length_append, List.length_cons]
          omega
        apply (ih (by omega) (by omega) (by omega)).map
        exact joined derived

/-- An expression that is a statement. -/
def plain (expression : Reader Expr) : Reader Stmt := do
  let value ← finished expression
  return .expression value.location value

theorem plain_tracks (h : LayerTracks bound depth 1 inner inner') :
    Tracks bound depth (plain inner) (plain inner') fun st ts => Derives (.statement st) ts := by
  intro tokens small
  apply (finished_tracks h tokens small).map
  intro value ts ended
  obtain ⟨us, stop, rfl, derived, ends⟩ := ended
  exact .expression derived ends

section Forms

theorem kindAfter_bind {α : Type} (count : Nat) (f : Option TokenKind → Reader α)
    (tokens : List Token) :
    (Reader.kindAfter count >>= f) tokens = f (tokens[count]?.map Token.kind) tokens := rfl

/-- Does the first token of a statement decide its form, perhaps with the one behind it? -/
def decides : TokenKind → Bool
  | .punctuator .leftBrace => true
  | .keyword .kwPrint | .keyword .kwLet | .keyword .kwFn => true
  | .keyword .kwReturn | .keyword .kwIf | .keyword .kwWhile => true
  | .name => true
  | _ => false

theorem statementStep_plain (h : decides word.kind = false) (others : List Token) :
    statementStep bound inner deeper (word :: others) = plain inner (word :: others) := by
  rw [statementStep, kindAfter_bind, List.getElem?_cons_zero, Option.map_some]
  cases kind : word.kind with
  | keyword keyword =>
      rw [kind] at h
      cases keyword <;> first | rfl | cases h
  | punctuator mark =>
      rw [kind] at h
      cases mark <;> first | rfl | cases h
  | name =>
      rw [kind] at h
      cases h
  | endOfFile | comment | whiteSpace | number | string => rfl

theorem statementStep_block (opens : word.kind = .punctuator .leftBrace) (others : List Token) :
    statementStep bound inner deeper (word :: others) =
      (Reader.itemsToBrace deeper bound >>= fun body => pure (.block word.location body)) others := by
  rw [statementStep, kindAfter_bind, List.getElem?_cons_zero, Option.map_some]
  simp only [opens]
  rfl

theorem statementStep_print (isPrint : word.kind = .keyword .kwPrint) (others : List Token) :
    statementStep bound inner deeper (word :: others) =
      (finished inner >>= fun value => pure (.print word.location value)) others := by
  rw [statementStep, kindAfter_bind, List.getElem?_cons_zero, Option.map_some]
  simp only [isPrint]
  rfl

theorem statementStep_let (isLet : word.kind = .keyword .kwLet) (others : List Token) :
    statementStep bound inner deeper (word :: others) =
      (binding inner >>= fun found => pure (.declare word.location found.1.text found.2)) others := by
  rw [statementStep, kindAfter_bind, List.getElem?_cons_zero, Option.map_some]
  simp only [isLet]
  rfl

theorem statementStep_fn (isFn : word.kind = .keyword .kwFn) (others : List Token) :
    statementStep bound inner deeper (word :: others) =
      (do
        let name ← Reader.expect [.name]
        let parameters ← Reader.parenthesized bound parameter
        let brace ← Reader.expect [.punctuator .leftBrace]
        let body ← Reader.itemsToBrace deeper bound
        return .function word.location name.text parameters brace.location body : Reader Stmt)
        others := by
  rw [statementStep, kindAfter_bind, List.getElem?_cons_zero, Option.map_some]
  simp only [isFn]
  rfl

theorem statementStep_return (isReturn : word.kind = .keyword .kwReturn) (others : List Token) :
    statementStep bound inner deeper (word :: others) =
      (do
        if ← Reader.accept (.punctuator .semicolon) then
          return .ret word.location none
        else
          return .ret word.location (some (← finished inner)) : Reader Stmt) others := by
  rw [statementStep, kindAfter_bind, List.getElem?_cons_zero, Option.map_some]
  simp only [isReturn]
  rfl

theorem statementStep_if (isIf : word.kind = .keyword .kwIf) (others : List Token) :
    statementStep bound inner deeper (word :: others) =
      (do
        let test ← condition inner
        let yes ← deeper
        if ← Reader.accept (.keyword .kwElse) then
          return .ifElse word.location test yes (← deeper)
        else
          return .ifThen word.location test yes : Reader Stmt) others := by
  rw [statementStep, kindAfter_bind, List.getElem?_cons_zero, Option.map_some]
  simp only [isIf]
  rfl

theorem statementStep_while (isWhile : word.kind = .keyword .kwWhile) (others : List Token) :
    statementStep bound inner deeper (word :: others) =
      (do
        let test ← condition inner
        let body ← deeper
        return .loop word.location test body : Reader Stmt) others := by
  rw [statementStep, kindAfter_bind, List.getElem?_cons_zero, Option.map_some]
  simp only [isWhile]
  rfl

theorem binding_assign {equal : Token} (isName : word.kind = .name)
    (isEqual : equal.kind = .punctuator .equal) (others : List Token) :
    binding inner (word :: equal :: others) =
      (finished inner >>= fun value => pure (word, value)) others := by
  change (Reader.expect [.name] (word :: equal :: others) >>= fun p => _) = _
  rw [reads_expect (List.mem_singleton.mpr isName)]
  change (Reader.mark .equal (equal :: others) >>= fun p => _) = _
  rw [reads_mark isEqual]
  rfl

theorem statementStep_assign {equal : Token} (isName : word.kind = .name)
    (isEqual : equal.kind = .punctuator .equal) (others : List Token) :
    statementStep bound inner deeper (word :: equal :: others) =
      (finished inner >>= fun value => pure (.assign word.location word.text value)) others := by
  have second : (word :: equal :: others)[1]?.map Token.kind = some (.punctuator .equal) :=
    congrArg some isEqual
  rw [statementStep, kindAfter_bind, List.getElem?_cons_zero, Option.map_some]
  simp only [isName]
  rw [kindAfter_bind, if_pos second]
  change (binding inner (word :: equal :: others) >>= fun p => _) = _
  rw [binding_assign isName isEqual]
  change ((finished inner others >>= fun p => _) >>= fun p => _) = (finished inner others >>= _)
  cases finished inner others <;> rfl

theorem statementStep_name (isName : word.kind = .name)
    (other : rest.head?.map Token.kind ≠ some (.punctuator .equal)) :
    statementStep bound inner deeper (word :: rest) = plain inner (word :: rest) := by
  rw [statementStep, kindAfter_bind, List.getElem?_cons_zero, Option.map_some]
  simp only [isName]
  rw [kindAfter_bind, List.getElem?_cons_succ, ← List.head?_eq_getElem?, if_neg other]
  rfl

end Forms

/-- A statement is followed, one level above the statements in it. -/
def StatementFollows (bound bound' depth : Nat) (inner inner' : Reader Expr)
    (deeper deeper' : Reader Stmt) (tokens : List Token) : Prop :=
  Follows (depth + 1) (statementStep bound inner deeper) (statementStep bound' inner' deeper')
    (fun st ts => Derives (.statement st) ts) tokens

section Follow

theorem block_follows (le : bound ≤ bound')
    (h : Tracks bound depth deeper deeper' fun st ts => Derives (.statement st) ts)
    (small : rest.length < bound) (opens : word.kind = .punctuator .leftBrace) :
    StatementFollows bound bound' depth inner inner' deeper deeper' (word :: rest) := by
  have whole {body : List Stmt} {ts : List Token} (braced : Braced body ts) :
      Derives (.statement (.block word.location body)) (word :: ts) := by
    obtain ⟨us, right, rfl, closes, listed⟩ := braced
    exact .block opens listed closes
  apply Follows.consume _ (statementStep_block opens rest) (statementStep_block opens)
  exact (itemsToBrace_follows h le small small).map whole

theorem print_follows (h : LayerTracks bound depth 1 inner inner') (small : rest.length < bound)
    (isPrint : word.kind = .keyword .kwPrint) :
    StatementFollows bound bound' depth inner inner' deeper deeper' (word :: rest) := by
  have whole {value : Expr} {ts : List Token} (ended : Ended value ts) :
      Derives (.statement (.print word.location value)) (word :: ts) := by
    obtain ⟨us, stop, rfl, derived, ends⟩ := ended
    exact .print isPrint derived ends
  apply Follows.consume _ (statementStep_print isPrint rest) (statementStep_print isPrint)
  exact (finished_tracks h rest small).map whole

theorem let_follows (h : LayerTracks bound depth 1 inner inner') (small : rest.length < bound)
    (isLet : word.kind = .keyword .kwLet) :
    StatementFollows bound bound' depth inner inner' deeper deeper' (word :: rest) := by
  have whole {found : Token × Expr} {ts : List Token} (assigned : Assigned found ts) :
      Derives (.statement (.declare word.location found.1.text found.2)) (word :: ts) := by
    obtain ⟨equal, us, stop, rfl, isName, isEqual, derived, ends⟩ := assigned
    exact .declare isLet isName isEqual derived ends
  apply Follows.consume _ (statementStep_let isLet rest) (statementStep_let isLet)
  exact (binding_tracks h rest small).map whole

/-- The body of a function, from the brace that opens it. -/
theorem fnBody_follows (le : bound ≤ bound')
    (h : Tracks bound depth deeper deeper' fun st ts => Derives (.statement st) ts)
    (small : tokens.length < bound) {goal : Stmt → List Token → Prop}
    {form : Token → List Stmt → Stmt}
    (whole : ∀ {left : Token} {body : List Stmt} {us : List Token},
      left.kind = .punctuator .leftBrace → Braced body us → goal (form left body) (left :: us)) :
    Follows depth
      (do
        let brace ← Reader.expect [.punctuator .leftBrace]
        let body ← Reader.itemsToBrace deeper bound
        return form brace body)
      (do
        let brace ← Reader.expect [.punctuator .leftBrace]
        let body ← Reader.itemsToBrace deeper' bound'
        return form brace body) goal tokens := by
  apply (follows_expect Punctuator.leftBrace.word_spelled (List.mem_singleton.mpr rfl)).bind
  · intro left us found
    obtain ⟨rfl, opens⟩ := found
    exact ⟨[Punctuator.rightBrace.word], _, by simp,
      whole (List.mem_singleton.mp opens) ⟨[], _, rfl, rfl, .nothing⟩⟩
  intro left us rest split _ found
  obtain ⟨rfl, opens⟩ := found
  have shorter : rest.length < bound := (length_le_of_split split).trans_lt small
  exact (itemsToBrace_follows h le shorter shorter).map (whole (List.mem_singleton.mp opens))

theorem fn_follows (le : bound ≤ bound')
    (h : Tracks bound depth deeper deeper' fun st ts => Derives (.statement st) ts)
    (small : rest.length < bound) (isFn : word.kind = .keyword .kwFn) :
    StatementFollows bound bound' depth inner inner' deeper deeper' (word :: rest) := by
  have whole {name left : Token} {listed : List Parameter} {body : List Stmt} {ts us : List Token}
      (isName : name.kind = .name) (derived : Derives (.parameters listed) ts)
      (opens : left.kind = .punctuator .leftBrace) (braced : Braced body us) :
      Derives (.statement (.function word.location name.text listed left.location body))
        (word :: name :: (ts ++ left :: us)) := by
    obtain ⟨vs, right, rfl, closes, statements⟩ := braced
    simpa using Derives.function isFn isName derived opens statements closes
  have empty : Braced [] [Punctuator.rightBrace.word.token] := ⟨[], _, rfl, rfl, .nothing⟩
  apply Follows.consume _ (statementStep_fn isFn rest) (statementStep_fn isFn)
  apply follows_name.bind
  · intro name ts found
    obtain ⟨rfl, isName⟩ := found
    exact ⟨[Punctuator.leftParen.word, Punctuator.rightParen.word, Punctuator.leftBrace.word,
      Punctuator.rightBrace.word], _, by simp, @whole _ Punctuator.leftBrace.word.token [] _
        [Punctuator.leftParen.word.token, Punctuator.rightParen.word.token] _ isName
        (.noParameters rfl rfl) rfl empty⟩
  intro name ts later split _ found
  obtain ⟨rfl, isName⟩ := found
  have shorter : later.length < bound := (length_le_of_split split).trans_lt small
  apply (parameters_tracks le later shorter).bind
  · intro listed ts derived
    exact ⟨[Punctuator.leftBrace.word, Punctuator.rightBrace.word], _, by simp,
      @whole _ Punctuator.leftBrace.word.token _ _ _ _ isName derived rfl empty⟩
  intro listed ts last split' _ derived
  have shorter' : last.length < bound := (length_le_of_split split').trans_lt shorter
  exact fnBody_follows le h shorter' fun opens braced => whole isName derived opens braced

theorem return_follows (h : LayerTracks bound depth 1 inner inner') (small : rest.length < bound)
    (isReturn : word.kind = .keyword .kwReturn) :
    StatementFollows bound bound' depth inner inner' deeper deeper' (word :: rest) := by
  have whole {value : Expr} {ts : List Token} (ended : Ended value ts) :
      Derives (.statement (.ret word.location (some value))) (word :: ts) := by
    obtain ⟨us, stop, rfl, derived, ends⟩ := ended
    exact .returnValue isReturn derived ends
  apply Follows.consume _ (statementStep_return isReturn rest) (statementStep_return isReturn)
  apply Follows.accept
  · intro stop later _ ends
    exact .pure (.returnNothing isReturn ends)
  · intro _
    exact (finished_tracks h rest small).map whole

/-- Behind a branch that ends open there is no `else`, for the branch would have taken it. -/
theorem if_follows (h : LayerTracks bound depth 1 inner inner')
    (h' : Tracks bound depth deeper deeper' fun st ts => Derives (.statement st) ts)
    (below : ∀ tokens, deeper.Takes tokens (TakesStatement tokens)) (small : rest.length < bound)
    (isIf : word.kind = .keyword .kwIf) :
    StatementFollows bound bound' depth inner inner' deeper deeper' (word :: rest) := by
  have whole {test : Expr} {yes : Stmt} {ts us : List Token} (enclosed : Enclosed test ts)
      (derived : Derives (.statement yes) us) :
      Derives (.statement (.ifThen word.location test yes)) (word :: (ts ++ us)) := by
    obtain ⟨left, vs, right, rfl, opens, derived', closes⟩ := enclosed
    simpa using Derives.ifThen isIf opens derived' closes derived
  have whole' {test : Expr} {yes no : Stmt} {other : Token} {ts us vs : List Token}
      (enclosed : Enclosed test ts) (derived : Derives (.statement yes) us)
      (closed : yes.endsOpen = false) (isElse : other.kind = .keyword .kwElse)
      (derived' : Derives (.statement no) vs) :
      Derives (.statement (.ifElse word.location test yes no))
        (word :: (ts ++ (us ++ other :: vs))) := by
    obtain ⟨left, ws, right, rfl, opens, derived'', closes⟩ := enclosed
    simpa using Derives.ifElse isIf opens derived'' closes derived closed isElse derived'
  apply Follows.consume _ (statementStep_if isIf rest) (statementStep_if isIf)
  apply (condition_tracks h rest small).bind
  · intro test ts enclosed
    obtain ⟨words, yes, spelled, derived⟩ := completable_statement
    exact ⟨words, _, spelled, whole enclosed derived⟩
  intro test ts middle split _ enclosed
  have shorter : middle.length < bound := (length_le_of_split split).trans_lt small
  apply (h' middle shorter).bind
  · intro yes us derived
    exact .here (whole enclosed derived)
  intro yes us behind split' read derived
  apply Follows.accept
  · intro other later found isElse
    have closed : yes.endsOpen = false := by
      cases opened : yes.endsOpen with
      | false => rfl
      | true =>
          obtain ⟨_, _, _, noElse⟩ := below middle yes behind read
          rw [found] at noElse
          exact absurd (congrArg some isElse) (noElse opened)
    have shorter' : later.length < bound := by
      have all := (length_le_of_split split').trans_lt shorter
      rw [found] at all
      exact Nat.lt_of_succ_lt all
    exact (h' later shorter').map (whole' enclosed derived closed isElse)
  · intro _
    apply Follows.pure
    rw [List.append_nil]
    exact whole enclosed derived

theorem while_follows (h : LayerTracks bound depth 1 inner inner')
    (h' : Tracks bound depth deeper deeper' fun st ts => Derives (.statement st) ts)
    (small : rest.length < bound) (isWhile : word.kind = .keyword .kwWhile) :
    StatementFollows bound bound' depth inner inner' deeper deeper' (word :: rest) := by
  have whole {test : Expr} {body : Stmt} {ts us : List Token} (enclosed : Enclosed test ts)
      (derived : Derives (.statement body) us) :
      Derives (.statement (.loop word.location test body)) (word :: (ts ++ us)) := by
    obtain ⟨left, vs, right, rfl, opens, derived', closes⟩ := enclosed
    simpa using Derives.loop isWhile opens derived' closes derived
  apply Follows.consume _ (statementStep_while isWhile rest) (statementStep_while isWhile)
  apply (condition_tracks h rest small).bind
  · intro test ts enclosed
    obtain ⟨words, body, spelled, derived⟩ := completable_statement
    exact ⟨words, _, spelled, whole enclosed derived⟩
  intro test ts middle split _ enclosed
  have shorter : middle.length < bound := (length_le_of_split split).trans_lt small
  exact (h' middle shorter).map (whole enclosed)

theorem assign_follows (h : LayerTracks bound depth 1 inner inner') {equal : Token}
    (small : rest.length < bound) (isName : word.kind = .name)
    (isEqual : equal.kind = .punctuator .equal) :
    StatementFollows bound bound' depth inner inner' deeper deeper' (word :: equal :: rest) := by
  have whole {value : Expr} {ts : List Token} (ended : Ended value ts) :
      Derives (.statement (.assign word.location word.text value)) (word :: equal :: ts) := by
    obtain ⟨us, stop, rfl, derived, ends⟩ := ended
    exact .assign isName isEqual derived ends
  have second : Follows (depth + 1) (fun us => statementStep bound inner deeper (word :: us))
      (fun us => statementStep bound' inner' deeper' (word :: us))
      (fun st ts => Derives (.statement st) (word :: ts)) (equal :: rest) := by
    apply Follows.consume _ (statementStep_assign isName isEqual rest)
      (statementStep_assign isName isEqual)
    exact (finished_tracks h rest small).map whole
  exact (second.weaken (Nat.le_succ depth)).consume rfl fun _ => rfl

/-- No statement is a single token. -/
theorem two_le_length {st : Stmt} {ts : List Token} (h : Derives (.statement st) ts) :
    2 ≤ ts.length := by
  cases h with
  | expression derived _ =>
      obtain ⟨token, more, rfl, -⟩ := derived.shaped.1
      simp
  | _ =>
      simp
      try omega

/-- An expression statement that begins with a name is never wrong at the name. -/
theorem name_plain_follows (h : LayerTracks bound (depth + 1) 1 inner inner')
    (small : (word :: rest).length < bound) (isName : word.kind = .name)
    (named : ExprRead inner' [word] (.reference word.location word.text))
    (other : rest.head?.map Token.kind ≠ some (.punctuator .equal)) :
    StatementFollows bound bound' depth inner inner' deeper deeper' (word :: rest) := by
  apply (plain_tracks h (word :: rest) small).peekSecond
  · intro st ts derived
    exact two_le_length derived
  · exact ⟨[Punctuator.semicolon.word.token], _, [], (reads_finished named rfl).bind (.pure _)⟩
  · exact statementStep_name isName other
  · intro others head
    exact statementStep_name isName (head ▸ other)

end Follow

theorem statementStep_tracks (le : bound ≤ bound')
    (h : LayerTracks bound (depth + 1) 1 inner inner')
    (h' : Tracks bound depth deeper deeper' fun st ts => Derives (.statement st) ts)
    (below : ∀ tokens, deeper.Takes tokens (TakesStatement tokens))
    (named : ∀ name : Token, name.kind = .name →
      ExprRead inner' [name] (.reference name.location name.text)) :
    Tracks bound (depth + 1) (statementStep bound inner deeper) (statementStep bound' inner' deeper')
      fun st ts => Derives (.statement st) ts := by
  have inside : LayerTracks bound depth 1 inner inner' := h.weaken (Nat.le_succ depth)
  intro tokens small
  cases tokens with
  | nil =>
      have same : statementStep bound inner deeper [] = plain inner [] := rfl
      apply (plain_tracks h [] small).peek same
      intro others head
      obtain rfl : others = [] := List.head?_eq_none_iff.mp head
      rfl
  | cons word rest =>
      have shorter : rest.length < bound := Nat.lt_of_succ_lt small
      by_cases decided : decides word.kind = true
      · cases kind : word.kind with
        | name =>
            by_cases assigned : rest.head?.map Token.kind = some (.punctuator .equal)
            · cases rest with
              | nil => cases assigned
              | cons equal more =>
                  exact assign_follows inside (Nat.lt_of_succ_lt shorter) kind
                    (Option.some.inj assigned)
            · exact name_plain_follows h small kind (named word kind) assigned
        | keyword keyword =>
            rw [kind] at decided
            cases keyword with
            | kwPrint => exact print_follows inside shorter kind
            | kwLet => exact let_follows inside shorter kind
            | kwFn => exact fn_follows le h' shorter kind
            | kwReturn => exact return_follows inside shorter kind
            | kwIf => exact if_follows inside h' below shorter kind
            | kwWhile => exact while_follows inside h' shorter kind
            | _ => cases decided
        | punctuator mark =>
            rw [kind] at decided
            cases mark with
            | leftBrace => exact block_follows le h' shorter kind
            | _ => cases decided
        | endOfFile | comment | whiteSpace | number | string =>
            rw [kind] at decided
            cases decided
      · rw [Bool.not_eq_true] at decided
        apply (plain_tracks h (word :: rest) small).peek (statementStep_plain decided rest)
        intro others head
        cases others with
        | nil => cases head
        | cons first more =>
            obtain rfl := Option.some.inj head
            exact statementStep_plain decided more

theorem statement_tracks {depth' : Nat} (le : bound ≤ bound') (le' : depth ≤ depth') :
    Tracks bound depth (statement bound depth) (statement bound' depth')
      fun st ts => Derives (.statement st) ts := by
  induction depth generalizing depth' with
  | zero => exact fun tokens _ => .tooDeep rfl (Nat.zero_le _)
  | succ depth ih =>
      obtain ⟨depth', rfl⟩ : ∃ less, depth' = less + 1 := ⟨depth' - 1, by omega⟩
      apply statementStep_tracks le (expression_tracks le le') (ih (Nat.le_of_succ_le_succ le'))
      · exact fun tokens => statement_takes bound depth
      · intro name isName
        have operand : LayerRead bound' (depth' + 1) 5 [name] (.reference name.location name.text) :=
          .of_operand fun _ stops => reads_reference isName stops.1
        exact ((((operand.tighter (by decide)).tighter (by decide)).tighter (by decide)).tighter
          (by decide)).exprRead

end Statements

end StackScript.Syntax
