/-
# Readers fail at the first wrong token

Wherever a reader fails, what it has taken can still be completed, and where it fails at a token,
it does so because of this token and what is in front of it: whatever else comes behind, it fails
there again. A reader that succeeds does not look further than to the next token. This is how a
reader follows its tokens, and it is kept when readers are put together.

The judgement compares two readers, of which the second one may have wider bounds. What the first
one does within its bounds, the second one does too, unless the first one finds the nesting too
deep.
-/

import Mathlib.Data.Nat.Find
import StackScript.Proofs.Syntax.Completeness
import StackScript.Proofs.Token.Splitting

namespace StackScript

namespace Reader

/-- What has been taken when a reader fails: the tokens in front of the wrong one, or all. -/
def Failure.At (taken tokens : List Token) : Failure → Prop
  | .unexpected found _ => ∃ rest, tokens = taken ++ found :: rest
  | .exhausted => tokens = taken
  | .tooDeep => False

/-- Some words behind the tokens complete what is to be read. -/
def Completable {α : Type} (goal : α → List Token → Prop) (taken : List Token) : Prop :=
  ∃ words value, AllSpelled words ∧ goal value (taken ++ tokensOf words)

/-- How a reader follows its tokens, and a reader with wider bounds with it. -/
inductive Follows {α : Type} (depth : Nat) (reader wider : Reader α)
    (goal : α → List Token → Prop) (tokens : List Token) : Prop
  | done {value : α} {taken rest : List Token} : tokens = taken ++ rest →
      reader tokens = .ok (value, rest) → goal value taken →
        (∀ others, others.head? = rest.head? → wider (taken ++ others) = .ok (value, others)) →
          Follows depth reader wider goal tokens
  | wrong {failure : Failure} {taken : List Token} : reader tokens = .error failure →
      failure.At taken tokens → Completable goal taken →
        (∀ others, failure.At taken others → wider others = .error failure) →
          Follows depth reader wider goal tokens
  | tooDeep : reader tokens = .error .tooDeep → depth ≤ tokens.length →
      Follows depth reader wider goal tokens

section Rules

variable {α β : Type} {depth : Nat} {reader wider : Reader α} {goal : α → List Token → Prop}
  {tokens taken rest : List Token} {token : Token} {failure : Failure}

theorem Completable.here {value : α} (h : goal value taken) : Completable goal taken := by
  refine ⟨[], value, allSpelled_nil, ?_⟩
  rwa [tokensOf_nil, List.append_nil]

/-- What has been completed in part can be completed. -/
theorem Completable.onward {words : List Word} (spelled : AllSpelled words)
    (h : Completable goal (taken ++ tokensOf words)) : Completable goal taken := by
  obtain ⟨more, value, spelled', reached⟩ := h
  refine ⟨words ++ more, value, allSpelled_append.mpr ⟨spelled, spelled'⟩, ?_⟩
  rwa [tokensOf_append, ← List.append_assoc]

theorem Completable.imp {goal' : α → List Token → Prop} (h : Completable goal taken)
    (imp : ∀ value ts, goal value ts → goal' value ts) : Completable goal' taken := by
  obtain ⟨words, value, spelled, reached⟩ := h
  exact ⟨words, value, spelled, imp _ _ reached⟩

theorem Failure.at_append {front : List Token} :
    failure.At (front ++ taken) tokens ↔ ∃ later, tokens = front ++ later ∧
      failure.At taken later := by
  cases failure with
  | unexpected found expected =>
      constructor
      · intro h
        obtain ⟨rest, rfl⟩ := h
        exact ⟨taken ++ found :: rest, by simp, rest, rfl⟩
      · intro h
        obtain ⟨_, rfl, rest, rfl⟩ := h
        exact ⟨rest, by simp⟩
  | exhausted => exact ⟨fun h => ⟨taken, h, rfl⟩, fun ⟨_, split, same⟩ => same ▸ split⟩
  | tooDeep => exact ⟨nofun, fun ⟨_, _, absurd⟩ => absurd⟩

theorem Failure.at_cons :
    failure.At (token :: taken) tokens ↔ ∃ later, tokens = token :: later ∧
      failure.At taken later :=
  @Failure.at_append tokens taken failure [token]

theorem Failure.At.head? {others : List Token} (h : failure.At taken tokens)
    (h' : failure.At taken others) : others.head? = tokens.head? := by
  cases failure with
  | unexpected found expected =>
      obtain ⟨rest, rfl⟩ := h
      obtain ⟨rest', rfl⟩ := h'
      cases taken <;> rfl
  | exhausted => rw [show others = taken from h', show tokens = taken from h]
  | tooDeep => cases h

theorem head?_append_congr {others : List Token} (h : others.head? = rest.head?) :
    (taken ++ others).head? = (taken ++ rest).head? := by
  rw [List.head?_append, List.head?_append, h]

theorem Follows.pure {value : α} (h : goal value []) :
    Follows depth (pure value) (pure value) goal tokens :=
  .done rfl rfl h fun _ _ => rfl

theorem Follows.weaken {less : Nat} (h : Follows depth reader wider goal tokens)
    (le : less ≤ depth) : Follows less reader wider goal tokens := by
  cases h with
  | done split read reached again => exact .done split read reached again
  | wrong read place completable again => exact .wrong read place completable again
  | tooDeep read deep => exact .tooDeep read (le_trans le deep)

theorem Follows.imp {goal' : α → List Token → Prop} (h : Follows depth reader wider goal tokens)
    (imp : ∀ value ts, goal value ts → goal' value ts) :
    Follows depth reader wider goal' tokens := by
  cases h with
  | done split read reached again => exact .done split read (imp _ _ reached) again
  | wrong read place completable again => exact .wrong read place (completable.imp imp) again
  | tooDeep read deep => exact .tooDeep read deep

/-- What the second reader is to read can be completed when the first one has been. -/
theorem Follows.bind {first first' : Reader β} {next next' : β → Reader α}
    {mid : β → List Token → Prop} (h : Follows depth first first' mid tokens)
    (resume : ∀ value ts, mid value ts → Completable goal ts)
    (more : ∀ value taken rest, tokens = taken ++ rest → first tokens = .ok (value, rest) →
      mid value taken →
        Follows depth (next value) (next' value) (fun w us => goal w (taken ++ us)) rest) :
    Follows depth (first >>= next) (first' >>= next') goal tokens := by
  have opened (reader : Reader β) (rest : β → Reader α) (us : List Token) :
      (reader >>= rest) us = (reader us >>= fun p => rest p.1 p.2) := rfl
  cases h with
  | tooDeep read deep =>
      apply Follows.tooDeep _ deep
      rw [opened, read]
      rfl
  | wrong read place completable again =>
      obtain ⟨words, value, spelled, reached⟩ := completable
      apply Follows.wrong _ place (.onward spelled (resume value _ reached))
      · intro others place'
        rw [opened, again others place']
        rfl
      · rw [opened, read]
        rfl
  | @done value taken rest split read reached again =>
      have onward (others : List Token) (same : others.head? = rest.head?) :
          (first' >>= next') (taken ++ others) = next' value others := by
        rw [opened, again others same]
        rfl
      have goesOn : (first >>= next) tokens = next value rest := by
        rw [opened, read]
        rfl
      cases more value taken rest split read reached with
      | tooDeep read' deep =>
          apply Follows.tooDeep (goesOn.trans read')
          rw [split, List.length_append]
          omega
      | wrong read' place completable again' =>
          apply Follows.wrong (goesOn.trans read')
          · exact Failure.at_append.mpr ⟨rest, split, place⟩
          · obtain ⟨words, value, spelled, reached'⟩ := completable
            refine ⟨words, value, spelled, ?_⟩
            rwa [List.append_assoc]
          · intro others place'
            obtain ⟨later, rfl, behind⟩ := Failure.at_append.mp place'
            rw [onward later (place.head? behind), again' later behind]
      | @done value' taken' rest' split' read' reached' again' =>
          apply Follows.done _ (goesOn.trans read') reached'
          · intro others same
            have head : (taken' ++ others).head? = rest.head? := by
              rw [split']
              exact head?_append_congr same
            rw [List.append_assoc, onward _ head, again' others same]
          · rw [split, split', List.append_assoc]

/-- A reader that only puts into another form what is read. -/
theorem Follows.map {first first' : Reader β} {mid : β → List Token → Prop} {form : β → α}
    (h : Follows depth first first' mid tokens)
    (whole : ∀ {value ts}, mid value ts → goal (form value) ts) :
    Follows depth (first >>= fun value => Pure.pure (form value))
      (first' >>= fun value => Pure.pure (form value)) goal tokens := by
  apply h.bind
  · intro value ts reached
    exact .here (whole reached)
  · intro value ts rest _ _ reached
    apply Follows.pure
    rw [List.append_nil]
    exact whole reached

/-- What is left is no longer than it was. -/
theorem length_le_of_split (split : tokens = taken ++ rest) : rest.length ≤ tokens.length := by
  rw [split, List.length_append]
  exact Nat.le_add_left rest.length taken.length

/-- A reader that only looks at the next token before it becomes another one. -/
theorem Follows.peek {reader' wider' : Reader α} (h : Follows depth reader' wider' goal tokens)
    (same : reader tokens = reader' tokens)
    (same' : ∀ others, others.head? = tokens.head? → wider others = wider' others) :
    Follows depth reader wider goal tokens := by
  cases h with
  | tooDeep read deep => exact .tooDeep (same.trans read) deep
  | wrong read place completable again =>
      apply Follows.wrong (same.trans read) place completable
      intro others place'
      rw [same' others (place.head? place'), again others place']
  | done split read reached again =>
      apply Follows.done split (same.trans read) reached
      intro others head
      rw [same' _ (split ▸ head?_append_congr head), again others head]

/-- A reader that takes a token is one level above what it becomes. -/
theorem Follows.consume {reader' wider' : Reader α}
    (h : Follows depth reader' wider' (fun value us => goal value (token :: us)) rest)
    (same : reader (token :: rest) = reader' rest)
    (same' : ∀ others, wider (token :: others) = wider' others) :
    Follows (depth + 1) reader wider goal (token :: rest) := by
  cases h with
  | tooDeep read deep => exact .tooDeep (same.trans read) (Nat.succ_le_succ deep)
  | @wrong failure taken read place completable again =>
      have whole : failure.At (token :: taken) (token :: rest) :=
        Failure.at_cons.mpr ⟨rest, rfl, place⟩
      apply Follows.wrong (same.trans read) whole completable
      intro others place'
      obtain ⟨later, rfl, behind⟩ := Failure.at_cons.mp place'
      exact (same' later).trans (again later behind)
  | @done value taken left split read reached again =>
      have whole : token :: rest = token :: taken ++ left := congrArg (List.cons token) split
      apply Follows.done whole (same.trans read) reached
      intro others head
      exact (same' _).trans (again others head)

/-- A reader that looks at the second token too before it becomes another one, which takes the
first token at least. -/
theorem Follows.peekSecond {reader' wider' : Reader α}
    (h : Follows depth reader' wider' goal (token :: rest))
    (long : ∀ value ts, goal value ts → 2 ≤ ts.length)
    (begins : ∃ others value later, wider' (token :: others) = .ok (value, later))
    (same : reader (token :: rest) = reader' (token :: rest))
    (same' : ∀ others, others.head? = rest.head? →
      wider (token :: others) = wider' (token :: others)) :
    Follows depth reader wider goal (token :: rest) := by
  cases h with
  | tooDeep read deep => exact .tooDeep (same.trans read) deep
  | @wrong failure taken read place completable again =>
      apply Follows.wrong (same.trans read) place completable
      intro others place'
      cases taken with
      | nil =>
          -- a failure at the first token would be there whatever comes behind it
          obtain ⟨more, value, later, fine⟩ := begins
          have there : failure.At [] (token :: more) := by
            cases failure with
            | unexpected found expected =>
                obtain ⟨_, found⟩ := place
                cases found
                exact ⟨more, rfl⟩
            | exhausted => cases place
            | tooDeep => cases place
          rw [again _ there] at fine
          cases fine
      | cons first taken =>
          obtain ⟨_, split, behind⟩ := Failure.at_cons.mp place
          obtain ⟨rfl, rfl⟩ := List.cons.inj split
          obtain ⟨later, rfl, behind'⟩ := Failure.at_cons.mp place'
          rw [same' later (behind.head? behind'), again _ place']
  | @done value taken left split read reached again =>
      apply Follows.done split (same.trans read) reached
      intro others head
      match taken, long value taken reached with
      | first :: second :: taken, _ =>
          obtain ⟨rfl, rfl⟩ := List.cons.inj split
          exact (same' (second :: taken ++ others) rfl).trans (again others head)

/-- A reader that needs a token and does not get one. -/
theorem Follows.missing (read : reader [] = .error .exhausted)
    (read' : wider [] = .error .exhausted) (completable : Completable goal []) :
    Follows depth reader wider goal [] := by
  have place : Failure.exhausted.At [] [] := rfl
  apply Follows.wrong read place completable
  intro others place'
  rw [show others = [] from place']
  exact read'

/-- A reader that cannot begin with the next token. -/
theorem Follows.refused {kinds : List TokenKind}
    (read : reader (token :: rest) = .error (.unexpected token kinds))
    (read' : ∀ others, wider (token :: others) = .error (.unexpected token kinds))
    (completable : Completable goal []) : Follows depth reader wider goal (token :: rest) := by
  have place : (Failure.unexpected token kinds).At [] (token :: rest) := ⟨rest, rfl⟩
  apply Follows.wrong read place completable
  intro others place'
  obtain ⟨more, rfl⟩ := place'
  exact read' more

/-- A failure at the later one of two places is one at the earlier one too. -/
theorem Failure.At.earlier {taken' others : List Token} (h : failure.At taken tokens)
    (h' : failure.At taken' tokens) (le : taken'.length ≤ taken.length)
    (there : failure.At taken others) : failure.At taken' others := by
  cases failure with
  | unexpected found expected =>
      obtain ⟨rest, split⟩ := h
      obtain ⟨rest', split'⟩ := h'
      obtain ⟨more, rfl⟩ : taken' <+: taken :=
        List.prefix_of_prefix_length_le ⟨_, split'.symm⟩ ⟨_, split.symm⟩ le
      cases more with
      | nil => simpa using there
      | cons first more =>
          obtain ⟨last, rfl⟩ := there
          rw [split', List.append_assoc, List.append_cancel_left_eq] at split
          obtain ⟨rfl, -⟩ := List.cons.inj split
          exact ⟨more ++ found :: last, by simp⟩
  | exhausted =>
      obtain rfl : tokens = taken := h
      obtain rfl : tokens = taken' := h'
      exact there
  | tooDeep => cases h

variable {ι : Type} {readers : ι → Reader α}

/-- What has been taken by a reader that succeeds is the same for all readers it is compared
with. -/
theorem Follows.settled [Nonempty ι] {value : α}
    (h : ∀ i, Follows depth reader (readers i) goal tokens)
    (read : reader tokens = .ok (value, rest)) :
    ∃ taken, tokens = taken ++ rest ∧ goal value taken ∧
      ∀ i others, others.head? = rest.head? → readers i (taken ++ others) = .ok (value, others) := by
  have each (i : ι) : ∃ taken, tokens = taken ++ rest ∧ goal value taken ∧
      ∀ others, others.head? = rest.head? → readers i (taken ++ others) = .ok (value, others) := by
    cases h i with
    | tooDeep read' => cases read.symm.trans read'
    | wrong read' => cases read.symm.trans read'
    | @done value' taken rest' split read' reached again =>
        obtain ⟨rfl, rfl⟩ := Prod.mk.inj (Except.ok.inj (read.symm.trans read'))
        exact ⟨taken, split, reached, again⟩
  obtain ⟨taken, split, reached, -⟩ := each (Classical.arbitrary ι)
  refine ⟨taken, split, reached, fun i => ?_⟩
  obtain ⟨taken', split', -, again⟩ := each i
  obtain rfl : taken = taken' := List.append_cancel_right (split.symm.trans split')
  exact again

/-- What has been taken by a reader that fails can be chosen for all readers at once that it is
compared with: the latest of the places that are found. -/
theorem Follows.stuck [Nonempty ι] (h : ∀ i, Follows depth reader (readers i) goal tokens)
    (read : reader tokens = .error failure) (shallow : failure ≠ .tooDeep) :
    ∃ taken, failure.At taken tokens ∧ Completable goal taken ∧
      ∀ i others, failure.At taken others → readers i others = .error failure := by
  classical
  have each (i : ι) : ∃ taken, failure.At taken tokens ∧ Completable goal taken ∧
      ∀ others, failure.At taken others → readers i others = .error failure := by
    cases h i with
    | tooDeep read' => exact absurd (Except.error.inj (read.symm.trans read')) shallow
    | done _ read' => cases read.symm.trans read'
    | wrong read' place completable again =>
        obtain rfl := Except.error.inj (read.symm.trans read')
        exact ⟨_, place, completable, again⟩
  let Found (length : Nat) : Prop := ∃ taken, taken.length = length ∧ failure.At taken tokens ∧
    Completable goal taken
  have bounded {taken : List Token} (place : failure.At taken tokens) :
      taken.length ≤ tokens.length := by
    cases failure with
    | unexpected found expected =>
        obtain ⟨rest, rfl⟩ := place
        simp
    | exhausted => rw [show tokens = taken from place]
    | tooDeep => cases place
  obtain ⟨first, place, completable, -⟩ := each (Classical.arbitrary ι)
  obtain ⟨taken, length, place, completable⟩ : Found (Nat.findGreatest Found tokens.length) :=
    Nat.findGreatest_spec (bounded place) ⟨first, rfl, place, completable⟩
  refine ⟨taken, place, completable, fun i others there => ?_⟩
  obtain ⟨taken', place', completable', again⟩ := each i
  have le : taken'.length ≤ taken.length := by
    rw [length]
    exact Nat.le_findGreatest (bounded place') ⟨taken', rfl, place', completable'⟩
  exact again others (place.earlier place' le there)

end Rules

section Parts

variable {α β : Type} {bound depth : Nat} {tokens : List Token}

/-- A reader follows all tokens that are fewer than its bound. -/
def Tracks (bound depth : Nat) (reader wider : Reader α) (goal : α → List Token → Prop) : Prop :=
  ∀ tokens : List Token, tokens.length < bound → Follows depth reader wider goal tokens

theorem Tracks.weaken {reader wider : Reader α} {goal : α → List Token → Prop} {less : Nat}
    (h : Tracks bound depth reader wider goal) (le : less ≤ depth) :
    Tracks bound less reader wider goal :=
  fun tokens small => (h tokens small).weaken le

/-- An expected token can be written. -/
theorem follows_expect {kinds : List TokenKind} {word : Word} (spelled : word.Spelled)
    (met : word.1 ∈ kinds) :
    Follows depth (expect kinds) (expect kinds)
      (fun token ts => ts = [token] ∧ token.kind ∈ kinds) tokens := by
  have completable : Completable (fun token ts => ts = [token] ∧ token.kind ∈ kinds) [] :=
    ⟨[word], word.token, by simpa using spelled, rfl, met⟩
  cases tokens with
  | nil => exact .missing rfl rfl completable
  | cons token rest =>
      by_cases found : kinds.contains token.kind = true
      · have taken (others : List Token) : expect kinds (token :: others) = .ok (token, others) :=
          if_pos found
        exact @Follows.done _ _ _ _ _ _ token [token] rest rfl (taken rest)
          ⟨rfl, List.contains_iff_mem.mp found⟩ fun others _ => taken others
      · have stuck (others : List Token) :
            expect kinds (token :: others) = .error (.unexpected token kinds) := if_neg found
        exact .refused (stuck rest) stuck completable

theorem follows_mark (mark : Punctuator) :
    Follows depth (Reader.mark mark) (Reader.mark mark)
      (fun _ ts => ∃ token : Token, ts = [token] ∧ token.kind = .punctuator mark) tokens := by
  have met : mark.word.1 ∈ [TokenKind.punctuator mark] := List.mem_singleton.mpr rfl
  apply (follows_expect mark.word_spelled met).bind
  · intro token ts found
    exact ⟨[], (), allSpelled_nil, token, by simpa using found.1, List.mem_singleton.mp found.2⟩
  · intro token taken rest _ _ found
    exact .pure ⟨token, by simpa using found.1, List.mem_singleton.mp found.2⟩

/-- A token that may be taken or not. -/
theorem Follows.accept {kind : TokenKind} {next next' : Bool → Reader α}
    {goal : α → List Token → Prop}
    (met : ∀ token rest, tokens = token :: rest → token.kind = kind →
      Follows depth (next true) (next' true) (fun value us => goal value (token :: us)) rest)
    (unmet : tokens[0]?.map Token.kind ≠ some kind →
      Follows depth (next false) (next' false) goal tokens) :
    Follows depth (Reader.accept kind >>= next) (Reader.accept kind >>= next') goal tokens := by
  by_cases first : tokens[0]?.map Token.kind = some kind
  · cases tokens with
    | nil => cases first
    | cons token rest =>
        have same : token.kind = kind := Option.some.inj first
        have taken (reader : Bool → Reader α) (others : List Token) :
            (Reader.accept kind >>= reader) (token :: others) = reader true others := by
          change (Reader.accept kind (token :: others) >>= fun p => reader p.1 p.2) = _
          rw [reads_accept same]
          rfl
        exact ((met token rest rfl same).consume (taken next rest) (taken next')).weaken
          (Nat.le_succ depth)
  · have kept (reader : Bool → Reader α) (others : List Token)
        (head : others.head? = tokens.head?) :
        (Reader.accept kind >>= reader) others = reader false others := by
      have other : others[0]?.map Token.kind ≠ some kind := by
        rwa [← List.head?_eq_getElem?, head, List.head?_eq_getElem?]
      change (Reader.accept kind others >>= fun p => reader p.1 p.2) = _
      rw [reads_accept_other other]
      rfl
    exact (unmet first).peek (kept next tokens rfl) (kept next')

variable {item item' : Reader α} {one : α → List Token → Prop}
  {list whole : List α → List Token → Prop}

/-- A list in parentheses, a comma between any two items, is followed if its items are. -/
theorem Tracks.itemsToParen (h : Tracks bound depth item item' one) (some : Completable one [])
    (single : ∀ {value ts}, one value ts → list [value] ts)
    (more : ∀ {value values ts us comma}, one value ts → comma.kind = .punctuator .comma →
      list values us → list (value :: values) (ts ++ comma :: us))
    {count count' : Nat} (le : count ≤ count') (room : tokens.length < count)
    (small : tokens.length < bound) :
    Follows depth (itemsToParen item count) (itemsToParen item' count') (Closed list) tokens := by
  induction count generalizing tokens count' with
  | zero => cases room
  | succ count ih =>
      obtain ⟨count', rfl⟩ : ∃ less, count' = less + 1 := ⟨count' - 1, by omega⟩
      have closed {value : α} {ts : List Token} (reached : one value ts) {right : Token}
          (closes : right.kind = .punctuator .rightParen) : Closed list [value] (ts ++ [right]) :=
        ⟨ts, right, rfl, closes, single reached⟩
      rw [Reader.itemsToParen, Reader.itemsToParen]
      apply (h tokens small).bind
      · intro value ts reached
        exact ⟨[Punctuator.rightParen.word], [value], by simp, closed reached rfl⟩
      intro value ts rest split _ reached
      have met : Punctuator.rightParen.word.1 ∈
          [TokenKind.punctuator .comma, TokenKind.punctuator .rightParen] := by decide
      apply (follows_expect (Punctuator.word_spelled _) met).bind
      · intro separator us found
        obtain ⟨rfl, kinds⟩ := found
        by_cases closes : separator.kind = .punctuator .rightParen
        · exact .here (closed reached closes)
        · have comma : separator.kind = .punctuator .comma := by simpa [closes] using kinds
          obtain ⟨words, last, spelled, reached'⟩ := some
          refine ⟨words ++ [Punctuator.rightParen.word], [value, last], by simpa using spelled, ?_⟩
          refine ⟨ts ++ separator :: tokensOf words, Punctuator.rightParen.word.token, by simp,
            rfl, ?_⟩
          exact more reached comma (single reached')
      · intro separator us later split' _ found
        obtain ⟨rfl, kinds⟩ := found
        have shorter : later.length < tokens.length := by
          rw [split, split']
          simp
          omega
        by_cases closes : separator.kind = .punctuator .rightParen
        · rw [if_pos closes, if_pos closes]
          exact .pure (closed reached closes)
        · have comma : separator.kind = .punctuator .comma := by simpa [closes] using kinds
          rw [if_neg closes, if_neg closes]
          have joined {values : List α} {vs : List Token} (listed : Closed list values vs) :
              Closed list (value :: values) (ts ++ ([separator] ++ vs)) := by
            obtain ⟨front, right, rfl, closes, listed⟩ := listed
            exact ⟨ts ++ separator :: front, right, by simp, closes, more reached comma listed⟩
          exact (ih (by omega) (by omega) (by omega)).map joined

theorem Tracks.parenthesized (h : Tracks bound depth item item' one) (some : Completable one [])
    (single : ∀ {value ts}, one value ts → list [value] ts)
    (more : ∀ {value values ts us comma}, one value ts → comma.kind = .punctuator .comma →
      list values us → list (value :: values) (ts ++ comma :: us))
    (empty : ∀ {left right}, left.kind = .punctuator .leftParen →
      right.kind = .punctuator .rightParen → whole [] [left, right])
    (filled : ∀ {values ts left right}, left.kind = .punctuator .leftParen → list values ts →
      right.kind = .punctuator .rightParen → whole values (left :: ts ++ [right]))
    {bound' : Nat} (le : bound ≤ bound') :
    Tracks bound depth (parenthesized bound item) (parenthesized bound' item') whole := by
  intro tokens small
  apply (follows_mark .leftParen).bind
  · intro _ ts found
    obtain ⟨left, rfl, opens⟩ := found
    exact ⟨[Punctuator.rightParen.word], [], by simp, empty opens rfl⟩
  intro _ ts rest split _ found
  obtain ⟨left, rfl, opens⟩ := found
  have shorter : rest.length < bound := (length_le_of_split split).trans_lt small
  apply Follows.accept
  · intro right later _ closes
    exact .pure (empty opens closes)
  · intro _
    apply (h.itemsToParen some single more le shorter shorter).imp
    intro values us listed
    obtain ⟨front, right, rfl, closes, listed⟩ := listed
    simpa using filled opens listed closes

end Parts

end Reader

end StackScript
