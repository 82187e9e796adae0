/-
# Token by token

The tokens of a text can be asked for one at a time. A scanner stands somewhere in a text; each
call gives the token at that place and moves the scanner behind it, and at the end of the text
every call gives the end. Asking until there is nothing more to ask for is splitting the text: the
tokens lie side by side from its beginning, and each one knows its place, which is a matter of
counting line feeds and characters in front of it.
-/

import StackScript.Proofs.Token.Splitting

namespace StackScript

namespace Location

/-- The place behind a piece of text at the beginning of a file: a line further down for every line
feed, and in that line a column further right for every character. -/
def behind (file : String) (front : List Char) : Location :=
  ⟨file, 1 + front.count '\n', 1 + (front.reverse.takeWhile (· ≠ '\n')).length⟩

theorem next_behind (file : String) (front : List Char) (c : Char) :
    (behind file front).next c = behind file (front ++ [c]) := by
  by_cases feed : c = '\n'
  · simp [behind, next, feed, Nat.add_assoc]
  · simp [behind, next, feed, Nat.add_assoc, Nat.add_comm 1]

/-- Counting character by character is counting all at once. -/
theorem advance_behind (file : String) (front more : List Char) :
    (behind file front).advance more = behind file (front ++ more) := by
  induction more generalizing front with
  | nil => rw [advance_nil, List.append_nil]
  | cons c more ih => rw [advance_cons, next_behind, ih, List.append_assoc, List.singleton_append]

end Location

/-- The end of a text is not read, it is where nothing is left to read. -/
theorem Lexeme.read_ne_endOfFile (text : List Char) : (read text).kind ≠ some .endOfFile :=
  fun found => spells_of_read found rfl

/-- The characters of tokens that lie side by side. -/
def charsOf (tokens : List Token) : List Char := tokens.flatMap fun token => token.text.toList

@[simp] theorem charsOf_nil : charsOf [] = [] := rfl

@[simp] theorem charsOf_cons (token : Token) (tokens : List Token) :
    charsOf (token :: tokens) = token.text.toList ++ charsOf tokens := rfl

/-- Somewhere in a text: the place, and what lies ahead. -/
structure Scanner where
  place : Location
  rest : List Char
deriving DecidableEq, Repr

namespace Scanner

/-- At the beginning of a text. -/
def start (file text : String) : Scanner := ⟨.start file, text.toList⟩

/-- Asks for the next token. At the end of the text this is the end itself, and the scanner stays
there. Where no token can be read, the scanner is left where the text breaks off. -/
def next (scanner : Scanner) : Scanner × Except Diagnostic Token :=
  match scanner.rest with
  | [] => (scanner, .ok ⟨.endOfFile, "", scanner.place⟩)
  | c :: more =>
    let lexeme := Lexeme.read (c :: more)
    let after : Scanner := ⟨scanner.place.advance lexeme.text, lexeme.rest⟩
    match lexeme.kind with
    | none => (after, .error ⟨after.place, TokenStream.breakCause lexeme.rest⟩)
    | some kind => (after, .ok ⟨kind, String.ofList lexeme.text, scanner.place⟩)

/-- After a number of calls. -/
def after (scanner : Scanner) : Nat → Scanner
  | 0 => scanner
  | count + 1 => scanner.next.1.after count

/-- One call after the other gives these tokens, none of which is the end of the text, and leaves
the scanner there. -/
inductive Gives : Scanner → List Token → Scanner → Prop
  | nothing (scanner : Scanner) : Gives scanner [] scanner
  | token {scanner mid last : Scanner} {token : Token} {tokens : List Token} :
      scanner.next = (mid, .ok token) → token.kind ≠ .endOfFile → Gives mid tokens last →
        Gives scanner (token :: tokens) last

variable {scanner mid last : Scanner} {token : Token} {tokens : List Token} {file text : String}

theorem next_of_end (h : scanner.rest = []) :
    scanner.next = (scanner, .ok ⟨.endOfFile, "", scanner.place⟩) := by
  rw [next, h]

theorem next_of_read {kind : TokenKind} (h : (Lexeme.read scanner.rest).kind = some kind) :
    scanner.next = (⟨scanner.place.advance (Lexeme.read scanner.rest).text,
        (Lexeme.read scanner.rest).rest⟩,
      .ok ⟨kind, String.ofList (Lexeme.read scanner.rest).text, scanner.place⟩) := by
  rw [next]
  split
  · rename_i none
    rw [none] at h
    cases h
  · rename_i c more some
    rw [← some]
    dsimp only
    rw [h]

theorem next_of_break (some : scanner.rest ≠ []) (h : (Lexeme.read scanner.rest).kind = none) :
    scanner.next = (⟨scanner.place.advance (Lexeme.read scanner.rest).text,
        (Lexeme.read scanner.rest).rest⟩,
      .error ⟨scanner.place.advance (Lexeme.read scanner.rest).text,
        TokenStream.breakCause (Lexeme.read scanner.rest).rest⟩) := by
  rw [next]
  split
  · rename_i none
    exact absurd none some
  · rename_i c more found
    rw [← found]
    dsimp only
    rw [h]

/-- A call that gives a token moves the scanner behind the characters of the token, and there is at
least one. -/
theorem eq_of_next (h : scanner.next = (mid, .ok token)) (notEnd : token.kind ≠ .endOfFile) :
    token.text ≠ "" ∧ token.location = scanner.place ∧
      mid.place = scanner.place.advance token.text.toList ∧
        token.text.toList ++ mid.rest = scanner.rest := by
  by_cases last : scanner.rest = []
  · rw [next_of_end last] at h
    cases h
    exact absurd rfl notEnd
  cases found : (Lexeme.read scanner.rest).kind with
  | none =>
      rw [next_of_break last found] at h
      cases h
  | some kind =>
      rw [next_of_read found] at h
      cases h
      have filled := Lexeme.read_ne_nil (Option.isSome_of_eq_some found)
      rw [String.toList_ofList]
      exact ⟨fun empty => filled (String.ofList_eq_empty_iff.mp empty), rfl, rfl,
        Lexeme.read_append _⟩

/-- What calls have told about a text so far: the tokens have characters, they cover the text up to
where the scanner is, and every place is that of the text in front of it. -/
structure Covers (file text : String) (tokens : List Token) (scanner : Scanner) : Prop where
  filled : ∀ token ∈ tokens, token.text ≠ ""
  whole : charsOf tokens ++ scanner.rest = text.toList
  place : scanner.place = .behind file (charsOf tokens)
  places : ∀ before token after, tokens = before ++ token :: after →
    token.location = .behind file (charsOf before)

/-- The invariant, with what lies in front of the scanner at the first call. -/
theorem Gives.covers (h : scanner.Gives tokens last) {front : List Char}
    (stands : scanner.place = .behind file front) :
    (∀ token ∈ tokens, token.text ≠ "") ∧ charsOf tokens ++ last.rest = scanner.rest ∧
      last.place = .behind file (front ++ charsOf tokens) ∧
        ∀ before token after, tokens = before ++ token :: after →
          token.location = .behind file (front ++ charsOf before) := by
  induction h generalizing front with
  | nothing scanner =>
      rw [charsOf_nil, List.append_nil]
      exact ⟨nofun, rfl, stands, fun before token after same => by simp at same⟩
  | @token scanner mid last token tokens called notEnd _ ih =>
      have ⟨filled, location, moved, whole⟩ := eq_of_next called notEnd
      rw [stands, Location.advance_behind] at moved
      have ⟨filled', whole', place, places⟩ := ih moved
      rw [List.append_assoc] at place
      refine ⟨List.forall_mem_cons.mpr ⟨filled, filled'⟩, ?_, place, ?_⟩
      · rw [charsOf_cons, List.append_assoc, whole', whole]
      · intro before other after same
        cases before with
        | nil =>
            cases same
            rw [location, stands, charsOf_nil, List.append_nil]
        | cons first before =>
            cases same
            rw [places before other after rfl, charsOf_cons, List.append_assoc]

/-- How asking for tokens comes to an end. At the end of the text all further calls give the end
again. Where no token can be read, the scanner is left behind a piece of text that begins no token
or an incomplete one, which is where the problem is. Either way the tokens so far are those of the
split text. -/
inductive Finishes (file text : String) (tokens : List Token) (last : Scanner) : Prop
  | ended : charsOf tokens = text.toList →
      (∀ count, (last.after count).next =
        (last, .ok ⟨.endOfFile, "", .behind file text.toList⟩)) →
      TokenStream.ofText file text = ⟨tokens, last.place, none⟩ → Finishes file text tokens last
  | broken {stopped : Scanner} {problem : Diagnostic} {piece : List Char} :
      last.next = (stopped, .error problem) → problem.location = some stopped.place →
      charsOf tokens ++ piece ++ stopped.rest = text.toList →
      stopped.place = .behind file (charsOf tokens ++ piece) →
      TokenStream.ofText file text = ⟨tokens, stopped.place, some problem⟩ →
        Finishes file text tokens last

/-- Splitting a text asks for tokens until there are none. -/
theorem exists_gives (place : Location) (rest : List Char) (seen : List Token) :
    ∃ tokens last, Gives ⟨place, rest⟩ tokens last ∧
      (last.rest = [] ∧
          TokenStream.splitFrom place rest seen = ⟨seen.reverse ++ tokens, last.place, none⟩ ∨
        last.rest ≠ [] ∧ (Lexeme.read last.rest).kind = none ∧
          TokenStream.splitFrom place rest seen = ⟨seen.reverse ++ tokens, last.next.1.place,
            some ⟨last.next.1.place, TokenStream.breakCause last.next.1.rest⟩⟩) := by
  apply TokenStream.splitFrom_induct (P := fun place rest seen stream =>
    ∃ tokens last, Gives ⟨place, rest⟩ tokens last ∧
      (last.rest = [] ∧ stream = ⟨seen.reverse ++ tokens, last.place, none⟩ ∨
        last.rest ≠ [] ∧ (Lexeme.read last.rest).kind = none ∧
          stream = ⟨seen.reverse ++ tokens, last.next.1.place,
            some ⟨last.next.1.place, TokenStream.breakCause last.next.1.rest⟩⟩))
  · intro place seen
    exact ⟨[], _, .nothing _, .inl ⟨rfl, by rw [List.append_nil]⟩⟩
  · intro place rest seen some found
    have called := @next_of_break ⟨place, rest⟩ some found
    exact ⟨[], _, .nothing _, .inr ⟨some, found, by rw [called, List.append_nil]⟩⟩
  · intro place rest seen kind stream found ih
    have ⟨tokens, last, given, ending⟩ := ih
    have called := @next_of_read ⟨place, rest⟩ kind found
    have notEnd : kind ≠ .endOfFile := fun same => Lexeme.read_ne_endOfFile rest (same ▸ found)
    rw [List.reverse_cons, List.append_assoc, List.singleton_append] at ending
    exact ⟨_ :: tokens, last, .token called notEnd given, ending⟩

theorem covers_of_gives (given : (start file text).Gives tokens scanner) :
    Covers file text tokens scanner := by
  have stands : (start file text).place = .behind file [] := rfl
  have ⟨filled, whole, place, places⟩ := given.covers stands
  exact ⟨filled, whole, place, places⟩

theorem after_of_end (h : scanner.rest = []) (count : Nat) : scanner.after count = scanner := by
  induction count with
  | zero => rfl
  | succ count ih => rw [after, next_of_end h, ih]

/-- Asked for one after the other, the tokens of a text tile it: whatever calls have given so far
covers the text up to the scanner, and after finitely many calls the text is used up or breaks
off. -/
theorem tokens_tile (file text : String) :
    (∀ tokens scanner, (start file text).Gives tokens scanner →
      Covers file text tokens scanner) ∧
      ∃ tokens last, (start file text).Gives tokens last ∧ Finishes file text tokens last := by
  refine ⟨fun tokens scanner => covers_of_gives, ?_⟩
  have ⟨tokens, last, given, ending⟩ := exists_gives (.start file) text.toList []
  have covers := covers_of_gives given
  have whole := covers.whole
  have place := covers.place
  refine ⟨tokens, last, given, ?_⟩
  rcases ending with ⟨used, split⟩ | ⟨left, none, split⟩
  · rw [used, List.append_nil] at whole
    apply Finishes.ended whole _ split
    intro count
    rw [after_of_end used, next_of_end used, place, whole]
  · have called := next_of_break left none
    rw [called] at split
    have covered : charsOf tokens ++ (Lexeme.read last.rest).text ++ (Lexeme.read last.rest).rest =
        text.toList := by
      rw [List.append_assoc, Lexeme.read_append, whole]
    have stands : last.place.advance (Lexeme.read last.rest).text =
        .behind file (charsOf tokens ++ (Lexeme.read last.rest).text) := by
      rw [place, Location.advance_behind]
    exact .broken called rfl covered stands split

end Scanner

end StackScript
