/-
# Splitting texts

How the tokens of a text relate to the text. Every token that the grammar deals with is spelled as
its class says, and where nothing is wrong with a text, splitting ends at its end. In the other
direction, words that are laid out with a blank behind each are found again, whatever words they
are: as far as the grammar is concerned, a text is the list of its words.
-/

import StackScript.Proofs.Token.Spelling
import StackScript.Token.Stream

namespace StackScript

open Lexeme (Parted Halts spells_of_read read_of_spells)

/-- What is left of a token when its place is forgotten. -/
abbrev Word : Type := TokenKind × String

/-- The word that a token is. -/
def Token.word (token : Token) : Word := (token.kind, token.text)

/-- The words that tokens are. -/
def wordsOf (tokens : List Token) : List Word := tokens.map Token.word

@[simp] theorem wordsOf_nil : wordsOf [] = [] := rfl

@[simp] theorem wordsOf_cons (token : Token) (tokens : List Token) :
    wordsOf (token :: tokens) = token.word :: wordsOf tokens := rfl

@[simp] theorem wordsOf_append (tokens more : List Token) :
    wordsOf (tokens ++ more) = wordsOf tokens ++ wordsOf more := List.map_append

/-- A word as a token that stands nowhere in particular. -/
def Word.token (word : Word) : Token := ⟨word.1, word.2, default⟩

@[simp] theorem Word.location_token (word : Word) : word.token.location = default := rfl

/-- Words as tokens that stand nowhere in particular. -/
def tokensOf (words : List Word) : List Token := words.map Word.token

@[simp] theorem tokensOf_nil : tokensOf [] = [] := rfl

@[simp] theorem tokensOf_cons (word : Word) (words : List Word) :
    tokensOf (word :: words) = word.token :: tokensOf words := rfl

@[simp] theorem tokensOf_append (words more : List Word) :
    tokensOf (words ++ more) = tokensOf words ++ tokensOf more := List.map_append

@[simp] theorem wordsOf_tokensOf (words : List Word) : wordsOf (tokensOf words) = words := by
  simp [wordsOf, tokensOf, Function.comp_def, Token.word, Word.token]

/-- The text of a word is one of its class. -/
def Word.Spelled (word : Word) : Prop := word.1.Spells word.2.toList

/-- The texts of words are in their classes. -/
def AllSpelled (words : List Word) : Prop := ∀ word ∈ words, word.Spelled

@[simp] theorem allSpelled_nil : AllSpelled [] := nofun

@[simp] theorem allSpelled_cons {word : Word} {words : List Word} :
    AllSpelled (word :: words) ↔ word.Spelled ∧ AllSpelled words := List.forall_mem_cons

@[simp] theorem allSpelled_append {words more : List Word} :
    AllSpelled (words ++ more) ↔ AllSpelled words ∧ AllSpelled more := List.forall_mem_append

/-- The word of a punctuator. -/
def Punctuator.word (mark : Punctuator) : Word := (.punctuator mark, mark.text)

/-- A reserved word as a word of a text. -/
def Keyword.word (keyword : Keyword) : Word := (.keyword keyword, keyword.text)

/-- A name as a word of a text. -/
def nameWord (name : String) : Word := (.name, name)

@[simp] theorem text_nameWord (name : String) : (nameWord name).token.text = name := rfl

@[simp] theorem Punctuator.word_spelled (mark : Punctuator) : mark.word.Spelled := rfl

@[simp] theorem Keyword.word_spelled (keyword : Keyword) : keyword.word.Spelled := rfl

/-- The characters of words, with a blank behind each word. -/
def laidOut (words : List Word) : List Char :=
  words.flatMap fun word => word.2.toList ++ [' ']

/-- A text of words, with a blank behind each. -/
def layOut (words : List Word) : String := String.ofList (laidOut words)

theorem TokenKind.Spells.significant {kind : TokenKind} {text : List Char} (h : kind.Spells text) :
    kind.isTrivia = false := by
  cases kind with
  | comment => cases h
  | whiteSpace => cases h
  | _ => rfl

namespace TokenStream

variable {place : Location} {text : List Char} {seen : List Token}

/-- Where a token is read, splitting goes on behind it. -/
theorem splitFrom_of_read {kind : TokenKind} (h : (Lexeme.read text).kind = some kind) :
    splitFrom place text seen =
      splitFrom (place.advance (Lexeme.read text).text) (Lexeme.read text).rest
        (⟨kind, String.ofList (Lexeme.read text).text, place⟩ :: seen) := by
  cases text with
  | nil => cases h
  | cons c more =>
      rw [splitFrom]
      split
      · rename_i nothing
        rw [nothing] at h
        cases h
      · rename_i found same
        obtain rfl : found = kind := Option.some.inj (same.symm.trans h)
        rfl

/-- Where no token is read, the text breaks off. -/
theorem splitFrom_of_break (some : text ≠ []) (h : (Lexeme.read text).kind = none) :
    splitFrom place text seen = ⟨seen.reverse, place.advance (Lexeme.read text).text,
      Option.some ⟨Option.some (place.advance (Lexeme.read text).text),
        breakCause (Lexeme.read text).rest⟩⟩ := by
  cases text with
  | nil => exact absurd rfl some
  | cons c more =>
      rw [splitFrom]
      split
      · rfl
      · rename_i found same
        rw [h] at same
        cases same

/-- What holds of an ending and is kept by tokens in front holds of every splitting. -/
theorem splitFrom_induct {P : Location → List Char → List Token → TokenStream → Prop}
    (nothing : ∀ place seen, P place [] seen ⟨seen.reverse, place, none⟩)
    (broken : ∀ place text seen, text ≠ [] → (Lexeme.read text).kind = none →
      P place text seen ⟨seen.reverse, place.advance (Lexeme.read text).text,
        some ⟨some (place.advance (Lexeme.read text).text), breakCause (Lexeme.read text).rest⟩⟩)
    (token : ∀ place text seen kind stream, (Lexeme.read text).kind = some kind →
      P (place.advance (Lexeme.read text).text) (Lexeme.read text).rest
        (⟨kind, String.ofList (Lexeme.read text).text, place⟩ :: seen) stream →
          P place text seen stream)
    (place : Location) (text : List Char) (seen : List Token) :
    P place text seen (splitFrom place text seen) := by
  induction size : text.length using Nat.strong_induction_on generalizing place text seen with
  | _ size ih =>
      by_cases empty : text = []
      · subst empty
        rw [splitFrom]
        exact nothing place seen
      · cases found : (Lexeme.read text).kind with
        | none =>
            rw [splitFrom_of_break empty found]
            exact broken place text seen empty found
        | some kind =>
            rw [splitFrom_of_read found]
            apply token place text seen kind _ found
            have shorter := Lexeme.length_rest_lt (Option.isSome_of_eq_some found)
            exact ih _ (size ▸ shorter) _ _ _ rfl

/-- Without a problem, splitting stops behind the last character. -/
theorem splitFrom_stop (place : Location) (text : List Char) (seen : List Token) :
    (splitFrom place text seen).problem = none →
      (splitFrom place text seen).stop = place.advance text := by
  apply splitFrom_induct (P := fun place text _ stream =>
    stream.problem = none → stream.stop = place.advance text)
  · intro place _ _
    rfl
  · intro place text _ _ _ absurd
    cases absurd
  · intro place text _ kind stream _ ih fine
    rw [ih fine, ← Location.advance_append, Lexeme.read_append]

theorem ofText_stop {file text : String} (fine : (ofText file text).problem = none) :
    (ofText file text).stop = (Location.start file).advance text.toList :=
  splitFrom_stop _ _ _ fine

theorem splitFrom_spelled (place : Location) (text : List Char) (seen : List Token) :
    (∀ token ∈ seen, token.kind.isTrivia = false → token.word.Spelled) →
      ∀ token ∈ (splitFrom place text seen).tokens, token.kind.isTrivia = false →
        token.word.Spelled := by
  apply splitFrom_induct (P := fun _ _ seen stream =>
    (∀ token ∈ seen, token.kind.isTrivia = false → token.word.Spelled) →
      ∀ token ∈ stream.tokens, token.kind.isTrivia = false → token.word.Spelled)
  · intro _ seen all token mem
    exact all token (List.mem_reverse.mp mem)
  · intro _ _ seen _ _ all token mem
    exact all token (List.mem_reverse.mp mem)
  · intro place text seen kind stream found ih all
    apply ih
    rw [List.forall_mem_cons]
    refine ⟨fun significant => ?_, all⟩
    have spells := spells_of_read found significant
    rwa [Word.Spelled, Token.word, String.toList_ofList]

/-- The tokens of a text that are neither white space nor comments are in their classes. -/
theorem ofText_spelled (file text : String) :
    ∀ token ∈ (ofText file text).tokens, token.kind.isTrivia = false → token.word.Spelled :=
  splitFrom_spelled _ _ _ nofun

theorem significant_spelled (file text : String) :
    AllSpelled (wordsOf (ofText file text).significant) := by
  intro word mem
  obtain ⟨token, listed, rfl⟩ := List.mem_map.mp mem
  obtain ⟨inside, kind⟩ := List.mem_filter.mp listed
  exact ofText_spelled file text token inside (by simpa using kind)

section LaidOut

variable {kind : TokenKind} {rest : List Char}

theorem read_ne_nil_of_spells (h : kind.Spells text) : text ≠ [] := by
  have found := read_of_spells h .ending
  rw [List.append_nil] at found
  have some : (Lexeme.read text).text ≠ [] := Lexeme.read_ne_nil (by rw [found]; rfl)
  rwa [found] at some

/-- A word does not begin with white space. -/
theorem halts_of_spells (h : kind.Spells text) (rest : List Char) :
    Halts Lexeme.isSpace (text ++ rest) := by
  have found := read_of_spells h .ending
  cases text with
  | nil => exact absurd rfl (read_ne_nil_of_spells h)
  | cons c more =>
      rintro _ ⟨⟩
      cases space : Lexeme.isSpace c with
      | false => rfl
      | true =>
          rw [List.cons_append, Lexeme.read] at found
          simp only [space, if_true] at found
          obtain rfl := Option.some.inj (congrArg Lexeme.kind found)
          cases h

theorem splitFrom_word (h : kind.Spells text) (parted : Parted rest) :
    splitFrom place (text ++ rest) seen =
      splitFrom (place.advance text) rest (⟨kind, String.ofList text, place⟩ :: seen) := by
  have found := read_of_spells h parted
  rw [splitFrom_of_read (by rw [found]), found]

theorem splitFrom_blank (halts : Halts Lexeme.isSpace rest) :
    splitFrom place (' ' :: rest) seen =
      splitFrom (place.advance [' ']) rest (⟨.whiteSpace, " ", place⟩ :: seen) := by
  have found : Lexeme.read (' ' :: rest) = ⟨some .whiteSpace, [' '], rest⟩ := by
    have blank : ∀ c ∈ [' '], Lexeme.isSpace c = true := List.all_eq_true.mp (by decide)
    have taken := halts.takeWhile blank
    have left := halts.dropWhile blank
    rw [List.singleton_append] at taken left
    simp only [Lexeme.read, Lexeme.run, taken, left]
    rfl
  rw [splitFrom_of_read (by rw [found]), found]

theorem halts_laidOut {words : List Word} (h : AllSpelled words) :
    Halts Lexeme.isSpace (laidOut words) := by
  cases words with
  | nil => nofun
  | cons word more =>
      obtain ⟨spelled, -⟩ := allSpelled_cons.mp h
      simp only [laidOut, List.flatMap_cons, List.append_assoc]
      exact halts_of_spells spelled _

/-- Words are found where they are laid out, and nothing else that matters to the grammar. -/
theorem splitFrom_laidOut {words : List Word} (h : AllSpelled words)
    (place : Location) (seen : List Token) :
    ∃ tokens stop, splitFrom place (laidOut words) seen = ⟨seen.reverse ++ tokens, stop, none⟩ ∧
      wordsOf (tokens.filter fun token => !token.kind.isTrivia) = words := by
  induction words generalizing place seen with
  | nil =>
      refine ⟨[], place, ?_, rfl⟩
      rw [laidOut, List.flatMap_nil, splitFrom, List.append_nil]
  | cons word more ih =>
      obtain ⟨spelled, others⟩ := allSpelled_cons.mp h
      have split : laidOut (word :: more) = word.2.toList ++ ' ' :: laidOut more := by
        simp [laidOut]
      obtain ⟨tokens, stop, found, same⟩ := ih others ((place.advance word.2.toList).advance [' '])
        (⟨.whiteSpace, " ", place.advance word.2.toList⟩ ::
          ⟨word.1, String.ofList word.2.toList, place⟩ :: seen)
      refine ⟨⟨word.1, word.2, place⟩ ::
        ⟨.whiteSpace, " ", place.advance word.2.toList⟩ :: tokens, stop, ?_, ?_⟩
      · rw [split, splitFrom_word spelled (.space rfl), splitFrom_blank (halts_laidOut others),
          found]
        simp
      · have significant : word.1.isTrivia = false := TokenKind.Spells.significant spelled
        have trivia : TokenKind.whiteSpace.isTrivia = true := rfl
        simpa [significant, trivia, wordsOf, Token.word] using same

/-- A text of words has these words. -/
theorem ofText_layOut (file : String) {words : List Word} (h : AllSpelled words) :
    (ofText file (layOut words)).problem = none ∧
      wordsOf (ofText file (layOut words)).significant = words := by
  obtain ⟨tokens, stop, found, same⟩ := splitFrom_laidOut h (.start file) []
  have whole : ofText file (layOut words) = ⟨tokens, stop, none⟩ := by
    rw [ofText, layOut, String.toList_ofList, found]
    rfl
  rw [whole]
  exact ⟨rfl, same⟩

end LaidOut

end TokenStream

end StackScript
