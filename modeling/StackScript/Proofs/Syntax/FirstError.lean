/-
# The first error in a text

What is reported of a text that is no program is the first thing that is wrong with it. Either it
is the first token with which no program goes on after those in front of it; or all tokens are the
beginning of a program, and it is what ended the text too early. A problem of the text itself
counts from where it is: a wrong token in front of it comes first.
-/

import StackScript.Proofs.Syntax.Prefixes

namespace StackScript.Syntax

open Reader (Completable Failure Follows Tracks)

/-- Tokens are those of a program. -/
def Whole (tokens : List Token) : Prop := ∃ body, Derives (.statements body) tokens

/-- Words are those of a text that is accepted. -/
def Accepted (words : List Word) : Prop :=
  ∃ file text limit body, programOf limit (TokenStream.ofText file text) = .ok body ∧
    wordsOf (TokenStream.ofText file text).significant = words

/-- Words are the beginning of those of a text that is accepted. -/
def Viable (words : List Word) : Prop := ∃ more, Accepted (words ++ more)

section Acceptance

variable {tokens : List Token} {stream : TokenStream} {limit : Nat} {body : List Stmt}

theorem problem_of_programOf (h : programOf limit stream = .ok body) : stream.problem = none := by
  cases problem : stream.problem with
  | none => rfl
  | some diagnostic =>
      rw [programOf] at h
      cases read : statements limit (stream.significant.length + 1) (ending stream)
          (stream.significant.length + 1) stream.significant with
      | error other =>
          rw [read] at h
          cases h
      | ok found =>
          rw [read, problem] at h
          cases h

theorem whole_of_accepted (h : Accepted (wordsOf tokens)) : Whole tokens := by
  obtain ⟨file, text, limit, body, read, same⟩ := h
  have fine := problem_of_programOf read
  generalize TokenStream.ofText file text = stream at read same fine
  obtain ⟨listed, stop, problem⟩ := stream
  cases fine
  have derived := derives_of_programOf read
  obtain ⟨other, derived', -⟩ := derived.respelled (show Alike tokens _ from same.symm)
  exact ⟨other, derived'⟩

theorem accepted_of_whole (spelled : AllSpelled (wordsOf tokens)) (h : Whole tokens) :
    Accepted (wordsOf tokens) := by
  obtain ⟨body, derived⟩ := h
  obtain ⟨fine, same⟩ := TokenStream.ofText_layOut "" spelled
  generalize read : TokenStream.ofText "" (layOut (wordsOf tokens)) = stream at fine same
  obtain ⟨other, derived', -⟩ := derived.respelled (show Alike stream.significant tokens from same)
  obtain ⟨listed, stop, problem⟩ := stream
  cases fine
  refine ⟨"", layOut (wordsOf tokens), (TokenStream.mk listed stop none).significant.length + 1,
    other, ?_, ?_⟩
  · rw [read]
    exact programOf_of_derives derived' (Nat.lt_succ_self _)
  · rw [read, same]

/-- What is the beginning of a program can be completed in words, and the other way round. -/
theorem viable_iff (spelled : AllSpelled (wordsOf tokens)) :
    Viable (wordsOf tokens) ↔
      Completable (fun body ts => Derives (.statements body) ts) tokens := by
  have split (more : List Word) :
      wordsOf tokens ++ more = wordsOf (tokens ++ tokensOf more) := by
    rw [wordsOf_append, wordsOf_tokensOf]
  constructor
  · intro h
    obtain ⟨more, accepted⟩ := h
    obtain ⟨body, derived⟩ := whole_of_accepted (split more ▸ accepted)
    obtain ⟨file, text, _, _, _, same⟩ := accepted
    have all := TokenStream.significant_spelled file text
    rw [same, allSpelled_append] at all
    exact ⟨more, body, all.2, derived⟩
  · intro h
    obtain ⟨more, body, spelled', derived⟩ := h
    refine ⟨more, ?_⟩
    rw [split]
    apply accepted_of_whole _ ⟨body, derived⟩
    rw [← split, allSpelled_append]
    exact ⟨spelled, spelled'⟩

theorem Accepted.viable {words : List Word} (h : Accepted words) : Viable words :=
  ⟨[], (List.append_nil words).symm ▸ h⟩

/-- What begins with words that do not begin a program does not begin one either. -/
theorem Viable.front {before after : List Token} (h : Viable (wordsOf (before ++ after))) :
    Viable (wordsOf before) := by
  obtain ⟨more, accepted⟩ := h
  rw [wordsOf_append, List.append_assoc] at accepted
  exact ⟨wordsOf after ++ more, accepted⟩

theorem Viable.take (h : Viable (wordsOf tokens)) (count : Nat) :
    Viable (wordsOf (tokens.take count)) := by
  apply @Viable.front _ (tokens.drop count)
  rwa [List.take_append_drop]

/-- The fewest tokens with which no program begins end with the first wrong one. -/
theorem getLast?_of_least {before after : List Token} {token : Token} {count : Nat}
    (split : tokens = before ++ token :: after) (viable : Viable (wordsOf before))
    (wrong : ¬ Viable (wordsOf (before ++ [token])))
    (least : ∀ fewer < count, Viable (wordsOf (tokens.take fewer)))
    (wrong' : ¬ Viable (wordsOf (tokens.take count))) :
    (tokens.take count).getLast? = some token := by
  have upTo : tokens.take (before.length + 1) = before ++ [token] := by
    simp [split, List.take_append, List.take_of_length_le]
  have atLeast : before.length < count := by
    by_contra few
    apply wrong'
    rw [split, List.take_append_of_le_length (Nat.not_lt.mp few)]
    exact viable.take count
  have atMost : count ≤ before.length + 1 := by
    by_contra many
    have viable' := least (before.length + 1) (Nat.not_le.mp many)
    rw [upTo] at viable'
    exact wrong viable'
  obtain rfl : count = before.length + 1 := le_antisymm atMost atLeast
  rw [upTo, List.getLast?_concat]

end Acceptance

section Programs

variable {limit bound count : Nat} {stop : Diagnostic} {tokens rest : List Token} {token : Token}

theorem statements_of_error {failure : Failure}
    (h : statement bound limit (token :: rest) = .error failure) :
    statements limit bound stop (count + 1) (token :: rest) =
      .error (diagnose stop token.location failure) := by
  rw [statements, h]

theorem statements_of_ok {first : Stmt} {later : List Token}
    (h : statement bound limit (token :: rest) = .ok (first, later)) :
    statements limit bound stop (count + 1) (token :: rest) =
      (statements limit bound stop count later).map (first :: ·) := by
  rw [statements, h]
  rfl

/-- The statements of a program fail at some place, whatever comes behind it and however wide the
bounds are. -/
structure Stuck (limit bound count : Nat) (tokens : List Token) (failure : Failure)
    (taken : List Token) : Prop where
  place : failure.At taken tokens
  completable : Completable (fun body ts => Derives (.statements body) ts) taken
  again : ∀ others, failure.At taken others → ∀ wider : Nat × Nat × Nat, ∀ stop,
    ∃ diagnostic, statements (limit + wider.1) (bound + wider.2.1) stop (count + wider.2.2) others =
      .error diagnostic

/-- The first statement is stuck. -/
theorem stuck_first {failure : Failure} (small : (token :: rest).length < bound)
    (deep : (token :: rest).length < limit)
    (read : statement bound limit (token :: rest) = .error failure) :
    failure ≠ .tooDeep ∧ ∃ taken, Stuck limit bound (count + 1) (token :: rest) failure taken := by
  have tracks (wider : Nat × Nat × Nat) : Follows limit (statement bound limit)
      (statement (bound + wider.2.1) (limit + wider.1)) (fun st ts => Derives (.statement st) ts)
        (token :: rest) :=
    statement_tracks (Nat.le_add_right _ _) (Nat.le_add_right _ _) _ small
  have shallow : failure ≠ .tooDeep := by
    intro same
    cases tracks (0, 0, 0) with
    | tooDeep _ beyond => exact absurd beyond (Nat.not_le.mpr deep)
    | done _ read' => cases read.symm.trans read'
    | wrong read' place =>
        obtain rfl := Except.error.inj (read.symm.trans read')
        rw [same] at place
        exact place
  obtain ⟨taken, place, completable, again⟩ := Follows.stuck tracks read shallow
  refine ⟨shallow, taken, place, ?_, ?_⟩
  · obtain ⟨words, st, spelled, derived⟩ := completable
    have whole := Derives.statements derived .nothing
    rw [List.append_nil] at whole
    exact ⟨words, [st], spelled, whole⟩
  · intro others there wider stop
    cases others with
    | nil => cases place.head? there
    | cons first more =>
        have refused := again wider (first :: more) there
        rw [Nat.add_right_comm]
        exact ⟨_, statements_of_error refused⟩

/-- The first statement is read, and a later one is stuck. -/
theorem stuck_later {first : Stmt} {later : List Token} {failure : Failure}
    (small : (token :: rest).length < bound)
    (read : statement bound limit (token :: rest) = .ok (first, later)) :
    later.length ≤ rest.length ∧ ∀ taken, Stuck limit bound count later failure taken →
      ∃ taken', Stuck limit bound (count + 1) (token :: rest) failure taken' := by
  have tracks (wider : Nat × Nat × Nat) : Follows limit (statement bound limit)
      (statement (bound + wider.2.1) (limit + wider.1)) (fun st ts => Derives (.statement st) ts)
        (token :: rest) :=
    statement_tracks (Nat.le_add_right _ _) (Nat.le_add_right _ _) _ small
  obtain ⟨front, split, derived, again⟩ := Follows.settled tracks read
  obtain ⟨word, more, rfl, -⟩ := derived.shaped
  obtain ⟨rfl, behind⟩ := List.cons.inj split
  refine ⟨by simp [behind], fun taken stuck => ⟨token :: more ++ taken, ?_, ?_, ?_⟩⟩
  · exact Failure.at_append.mpr ⟨later, split, stuck.place⟩
  · obtain ⟨words, body, spelled, derived'⟩ := stuck.completable
    refine ⟨words, first :: body, spelled, ?_⟩
    rw [List.append_assoc]
    exact .statements derived derived'
  · intro others there wider stop
    obtain ⟨others', rfl, there'⟩ := Failure.at_append.mp there
    obtain ⟨diagnostic, refused⟩ := stuck.again others' there' wider stop
    have read' := again wider others' (stuck.place.head? there')
    rw [List.cons_append] at read'
    rw [Nat.add_right_comm, List.cons_append, statements_of_ok read', refused]
    exact ⟨diagnostic, rfl⟩

/-- The statements of a program are read, or they are stuck at some token or at the end. -/
theorem statements_follow (room : tokens.length ≤ count) (small : tokens.length < bound)
    (deep : tokens.length < limit) :
    (∃ body, statements limit bound stop count tokens = .ok body) ∨
      ∃ failure taken start, failure ≠ .tooDeep ∧ statements limit bound stop count tokens =
        .error (diagnose stop start failure) ∧ Stuck limit bound count tokens failure taken := by
  induction count generalizing tokens with
  | zero =>
      obtain rfl : tokens = [] := List.length_eq_zero_iff.mp (Nat.le_zero.mp room)
      exact .inl ⟨[], rfl⟩
  | succ count ih =>
      cases tokens with
      | nil => exact .inl ⟨[], rfl⟩
      | cons token rest =>
          cases read : statement bound limit (token :: rest) with
          | error failure =>
              obtain ⟨shallow, taken, stuck⟩ := @stuck_first _ _ count _ _ _ small deep read
              exact .inr ⟨failure, taken, token.location, shallow, statements_of_error read, stuck⟩
          | ok found =>
              obtain ⟨first, later⟩ := found
              rw [List.length_cons] at room small deep
              have shorter (failure : Failure) := @stuck_later _ _ count _ _ _ _ failure small read
              have le := (shorter .exhausted).1
              rw [statements_of_ok read]
              obtain ⟨body, fine⟩ | ⟨failure, taken, start, shallow, refused, stuck⟩ :=
                @ih later (by omega) (by omega) (by omega)
              · rw [fine]
                exact .inl ⟨first :: body, rfl⟩
              · obtain ⟨taken', stuck'⟩ := (shorter failure).2 taken stuck
                rw [refused]
                exact .inr ⟨failure, taken', start, shallow, rfl, stuck'⟩

/-- No program begins with the tokens up to the one that a program is stuck at. -/
theorem Stuck.not_whole {failure : Failure} {taken others : List Token}
    (h : Stuck limit bound count tokens failure taken) (there : failure.At taken others) :
    ¬ Whole others := by
  intro whole
  obtain ⟨body, derived⟩ := whole
  obtain ⟨diagnostic, refused⟩ :=
    h.again others there (others.length + 1, others.length + 1, others.length) default
  have fits : Fits (bound + (others.length + 1)) (limit + (others.length + 1)) others :=
    ⟨by omega, by omega⟩
  have read : statements _ _ default (count + others.length) others = .ok body :=
    derived.statements_read rfl fits default (by omega)
  cases refused.symm.trans read

end Programs

section Outcomes

variable {stream : TokenStream} {limit : Nat} {diagnostic : Diagnostic} {body : List Stmt}

theorem programOf_of_error
    (h : statements limit (stream.significant.length + 1) (ending stream)
      (stream.significant.length + 1) stream.significant = .error diagnostic) :
    programOf limit stream = .error diagnostic := by
  rw [programOf, h]
  rfl

theorem programOf_of_ok
    (h : statements limit (stream.significant.length + 1) (ending stream)
      (stream.significant.length + 1) stream.significant = .ok body) :
    programOf limit stream = match stream.problem with
      | some problem => .error problem
      | none => .ok body := by
  rw [programOf, h]
  rfl

/-- What becomes of tokens that are spelled as those of a text are. -/
inductive Outcome (limit : Nat) (stream : TokenStream) : Prop
  | wrong {before after : List Token} {token : Token} {expected : List TokenKind} :
      stream.significant = before ++ token :: after → Viable (wordsOf before) →
        ¬ Viable (wordsOf (before ++ [token])) → programOf limit stream =
          .error ⟨token.location, .unexpectedToken token.text expected⟩ → Outcome limit stream
  | broken {problem : Diagnostic} : Viable (wordsOf stream.significant) →
      stream.problem = some problem → programOf limit stream = .error problem →
        Outcome limit stream
  | read {body : List Stmt} : Accepted (wordsOf stream.significant) → stream.problem = none →
      programOf limit stream = .ok body → Outcome limit stream
  | short : Viable (wordsOf stream.significant) → ¬ Accepted (wordsOf stream.significant) →
      stream.problem = none → programOf limit stream = .error ⟨stream.stop, .endOfFile⟩ →
        Outcome limit stream

theorem outcome (spelled : AllSpelled (wordsOf stream.significant))
    (deep : stream.significant.length < limit) : Outcome limit stream := by
  obtain ⟨body, fine⟩ | ⟨failure, taken, start, shallow, refused, stuck⟩ :=
    @statements_follow limit (stream.significant.length + 1) (stream.significant.length + 1)
      (ending stream) stream.significant (Nat.le_succ _) (Nat.lt_succ_self _) deep
  · have accepted : Accepted (wordsOf stream.significant) :=
      accepted_of_whole spelled ⟨body, statements_sound fine⟩
    have result := programOf_of_ok fine
    cases problem : stream.problem with
    | none =>
        rw [problem] at result
        exact .read accepted problem result
    | some diagnostic =>
        rw [problem] at result
        exact .broken accepted.viable problem result
  · cases failure with
    | tooDeep => exact absurd rfl shallow
    | unexpected found expected =>
        obtain ⟨rest, split⟩ := stuck.place
        have parts := spelled
        rw [split, wordsOf_append, allSpelled_append] at parts
        have front : AllSpelled (wordsOf (taken ++ [found])) := by
          rw [wordsOf_append, allSpelled_append]
          exact ⟨parts.1, allSpelled_cons.mpr ⟨(allSpelled_cons.mp parts.2).1, allSpelled_nil⟩⟩
        apply Outcome.wrong split ((viable_iff parts.1).mpr stuck.completable) _
          (programOf_of_error refused)
        intro viable
        obtain ⟨words, body, -, derived⟩ := (viable_iff front).mp viable
        exact stuck.not_whole ⟨tokensOf words, by simp⟩ ⟨body, derived⟩
    | exhausted =>
        obtain rfl : stream.significant = taken := stuck.place
        have viable := (viable_iff spelled).mpr stuck.completable
        have notAccepted : ¬ Accepted (wordsOf stream.significant) := fun accepted =>
          stuck.not_whole stuck.place (whole_of_accepted accepted)
        have result := programOf_of_error refused
        cases problem : stream.problem with
        | none =>
            rw [diagnose, ending, problem] at result
            exact .short viable notAccepted problem result
        | some diagnostic =>
            rw [diagnose, ending, problem] at result
            exact .broken viable problem result

theorem viable_nil : Viable [] := by
  refine ⟨[], ?_⟩
  exact @accepted_of_whole [] allSpelled_nil ⟨[], .nothing⟩

/-- A token that no statement begins with does not begin a program. -/
theorem Viable.begins {word : Word} {words : List Word} (h : Viable (word :: words)) :
    word.1.beginsStmt = true := by
  obtain ⟨more, accepted⟩ := h
  have whole : Whole (tokensOf (word :: words ++ more)) := by
    apply whole_of_accepted
    rwa [wordsOf_tokensOf]
  obtain ⟨body, derived⟩ := whole
  obtain none | begins := derived.shaped
  · cases none
  · obtain ⟨first, rest, same, kind⟩ := begins
    obtain ⟨rfl, -⟩ := List.cons.inj same
    exact kind

end Outcomes

/-- The first thing that is wrong with a text is what it is refused for. Let its tokens be those in
front of the first place where the text cannot be split, if there is one. If the first few of them
do not begin a program, and these are as few as possible, the last of these is reported. If they
all begin a program, what is wrong with the text itself is reported, if anything is. Otherwise the
text is accepted if they are a whole program, and its end is reported if they are not. -/
theorem programOf_firstError (file text : String) (limit : Nat)
    (deep : (TokenStream.ofText file text).significant.length < limit) :
    let stream := TokenStream.ofText file text
    let first (count : Nat) := stream.significant.take count
    let words := wordsOf stream.significant
    (∀ k, (∀ j < k, Viable (wordsOf (first j))) → ¬ Viable (wordsOf (first k)) →
      ∃ token expected, (first k).getLast? = some token ∧
        programOf limit stream = .error ⟨token.location, .unexpectedToken token.text expected⟩) ∧
    (Viable words → ∀ problem, stream.problem = some problem →
      programOf limit stream = .error problem) ∧
    (Accepted words → stream.problem = none → ∃ body, programOf limit stream = .ok body) ∧
    (Viable words → ¬ Accepted words → stream.problem = none → programOf limit stream =
      .error ⟨(Location.start file).advance text.toList, .endOfFile⟩) := by
  intro stream first words
  cases outcome (TokenStream.significant_spelled file text) deep with
  | @wrong before after token expected split viable wrong result =>
      change stream.significant = before ++ token :: after at split
      have notViable : ¬ Viable words := by
        intro viable'
        apply wrong
        apply @Viable.front _ after
        rw [List.append_assoc, List.singleton_append, ← split]
        exact viable'
      refine ⟨?_, ?_, ?_, ?_⟩
      · intro k least wrong'
        exact ⟨token, expected, getLast?_of_least split viable wrong least wrong', result⟩
      · exact fun viable' => absurd viable' notViable
      · exact fun accepted => absurd accepted.viable notViable
      · exact fun viable' => absurd viable' notViable
  | @broken problem viable broken result =>
      refine ⟨?_, ?_, ?_, ?_⟩
      · exact fun k _ wrong => absurd (viable.take k) wrong
      · intro _ other same
        obtain rfl := Option.some.inj (broken.symm.trans same)
        exact result
      · intro _ none
        cases broken.symm.trans none
      · intro _ _ none
        cases broken.symm.trans none
  | @read body accepted fine result =>
      refine ⟨?_, ?_, ?_, ?_⟩
      · exact fun k _ wrong => absurd (accepted.viable.take k) wrong
      · intro _ problem broken
        cases fine.symm.trans broken
      · exact fun _ _ => ⟨body, result⟩
      · exact fun _ notAccepted => absurd accepted notAccepted
  | short viable notAccepted fine result =>
      refine ⟨?_, ?_, ?_, ?_⟩
      · exact fun k _ wrong => absurd (viable.take k) wrong
      · intro _ problem broken
        cases fine.symm.trans broken
      · exact fun accepted => absurd accepted notAccepted
      · intro _ _ _
        rw [← TokenStream.ofText_stop fine]
        exact result

/-- A bracket that opens nothing is reported, although the text cannot be split behind it. -/
theorem programOf_firstError_bracket :
    let stream := TokenStream.ofText "" ") @"
    stream.problem = some ⟨some ⟨"", 1, 3⟩, .unexpectedChar '@'⟩ ∧
      ∃ token expected, (stream.significant.take 1).getLast? = some token ∧ programOf 500 stream =
        .error ⟨some token.location, .unexpectedToken token.text expected⟩ := by
  intro stream
  refine ⟨by decide +kernel, ?_⟩
  have few : stream.significant.length < 500 := by decide +kernel
  have words : wordsOf (stream.significant.take 1) = [Punctuator.rightParen.word] := by
    decide +kernel
  apply (programOf_firstError "" ") @" 500 few).1 1
  · intro j less
    obtain rfl := Nat.lt_one_iff.mp less
    exact viable_nil
  · intro viable
    rw [words] at viable
    cases viable.begins

end StackScript.Syntax
