/-
# Spacing

What may stand between the words of a text: white space, comments between brackets, and comments up
to the end of a line. Every token belongs to the class of its kind, and these are classes too. In
the other direction, words with white space behind each of them, and with any such tokens behind
that, are found again as they are: how a text is laid out does not matter to its words.
-/

import StackScript.Proofs.Token.Joining

namespace StackScript

namespace Lexeme

/-- Comments go on to the end of the line, or they end with the first bracket. -/
inductive IsComment : List Char → Prop
  | line {body : List Char} : '\n' ∉ body → IsComment ('/' :: '/' :: body)
  | block {body : List Char} : ¬ ['*', '/'] <:+: body →
      IsComment ('/' :: '*' :: (body ++ ['*', '/']))

/-- White space and comments in any order. A comment without brackets is there with its line
feed. -/
inductive IsGap : List Char → Prop
  | nothing : IsGap []
  | space {c : Char} {rest : List Char} : isSpace c = true → IsGap rest → IsGap (c :: rest)
  | block {body rest : List Char} : ¬ ['*', '/'] <:+: body → IsGap rest →
      IsGap ('/' :: '*' :: (body ++ '*' :: '/' :: rest))
  | line {body rest : List Char} : '\n' ∉ body → IsGap rest →
      IsGap ('/' :: '/' :: (body ++ '\n' :: rest))

/-- Between two words there is at least a character of white space, before anything else. -/
inductive Separates : List Char → Prop
  | mk {c : Char} {rest : List Char} : isSpace c = true → IsGap rest → Separates (c :: rest)

/-- Behind the last word there may be nothing, or white space and then anything that stands between
words. A comment without brackets may be the end of the text. -/
inductive Ends : List Char → Prop
  | nothing : Ends []
  | gap {c : Char} {rest : List Char} : isSpace c = true → IsGap rest → Ends (c :: rest)
  | line {c : Char} {rest body : List Char} : isSpace c = true → IsGap rest → '\n' ∉ body →
      Ends (c :: (rest ++ '/' :: '/' :: body))

end Lexeme

open Lexeme (IsComment IsGap Separates Ends Parted Halts isSpace read)

/-- The texts of a kind of tokens. -/
def TokenKind.Admits : TokenKind → List Char → Prop
  | .whiteSpace, text => text ≠ [] ∧ ∀ c ∈ text, isSpace c = true
  | .comment, text => IsComment text
  | kind, text => kind.Spells text

/-- Words with something between any two of them and behind the last one. -/
inductive Spread : List Word → List Char → Prop
  | nothing {after : List Char} : Ends after → Spread [] after
  | last {word : Word} {after : List Char} : word.Spelled → Ends after →
      Spread [word] (word.2.toList ++ after)
  | word {word : Word} {words : List Word} {gap text : List Char} : word.Spelled →
      Separates gap → Spread words text → Spread (word :: words) (word.2.toList ++ (gap ++ text))

/-- A layout of words, where something may stand before the first of them as well. -/
inductive Layout (words : List Word) : List Char → Prop
  | mk {before text : List Char} : IsGap before → Spread words text →
      Layout words (before ++ text)

namespace Lexeme

variable {text body rest : List Char}

/-- A comment between brackets ends with the first closing bracket. -/
theorem commentTail_within (text : List Char) :
    (commentTail text).Within .comment fun tail => ∃ body, tail = body ++ ['*', '/'] ∧
      ¬ ['*', '/'] <:+: body := by
  fun_induction commentTail text with
  | case1 => exact within_none
  | case2 rest => exact within_some ⟨[], rfl, by simp⟩
  | case3 c rest notEnd ih =>
      intro kind found
      obtain ⟨same, body, tail, inside⟩ := ih kind found
      refine ⟨same, c :: body, congrArg (c :: ·) tail, ?_⟩
      rw [List.infix_cons_iff]
      rintro (⟨more, starts⟩ | within)
      · cases starts
        have whole : (commentTail rest).text ++ (commentTail rest).rest = rest :=
          commentTail_covers rest
        rw [tail] at whole
        exact notEnd _ rfl whole.symm
      · exact inside within

/-- White space and comments look as they should. -/
theorem admits_of_trivia {kind : TokenKind} (h : (read text).kind = some kind)
    (trivia : kind.isTrivia = true) : kind.Admits (read text).text := by
  have apart {text : List Char} (spells : kind.Spells text) : False := by
    rw [spells.significant] at trivia
    cases trivia
  unfold read at h ⊢
  split
  · cases h
  · next c rest =>
    dsimp only at h
    by_cases space : isSpace c = true
    · rw [if_pos space] at h ⊢
      cases h
      exact ⟨takeWhile_ne_nil space, fun _ mem => List.mem_takeWhile_imp mem⟩
    rw [if_neg space] at h ⊢
    by_cases digit : startsNumber (c :: rest) = true
    · rw [if_pos digit] at h
      obtain ⟨rfl, _⟩ := number_within digit kind h
      cases trivia
    rw [if_neg digit] at h ⊢
    by_cases quote : c = Text.doubleQuote
    · rw [if_pos quote] at h
      obtain ⟨rfl, _⟩ := stringTail_within rest kind h
      cases trivia
    rw [if_neg quote] at h ⊢
    by_cases letter : isNameStart c = true
    · rw [if_pos letter] at h
      exact (apart (name_spells letter h)).elim
    rw [if_neg letter] at h ⊢
    by_cases line : ['/', '/'].isPrefixOf (c :: rest) = true
    · rw [if_pos line] at h ⊢
      cases h
      obtain ⟨more, same⟩ := List.isPrefixOf_iff_prefix.mp line
      rw [← same]
      apply IsComment.line
      intro feed
      exact absurd (List.mem_takeWhile_imp feed) (by decide)
    rw [if_neg line] at h ⊢
    by_cases block : ['/', '*'].isPrefixOf (c :: rest) = true
    · rw [if_pos block] at h ⊢
      obtain ⟨rfl, body, tail, inside⟩ := commentTail_within _ kind h
      have whole := IsComment.block inside
      rw [← tail] at whole
      exact whole
    rw [if_neg block] at h
    exact (apart (punctuator_spells h)).elim

/-- Every token belongs to the class of its kind. -/
theorem admits_of_read {kind : TokenKind} (h : (read text).kind = some kind) :
    kind.Admits (read text).text := by
  cases trivia : kind.isTrivia with
  | true => exact admits_of_trivia h trivia
  | false =>
      have spells := spells_of_read h trivia
      cases kind with
      | comment | whiteSpace => cases trivia
      | _ => exact spells

/-- A comment that ends ends with its first closing bracket. -/
theorem commentTail_append_of_not_infix (inside : ¬ ['*', '/'] <:+: body) (rest : List Char) :
    commentTail (body ++ '*' :: '/' :: rest) = ⟨some .comment, body ++ ['*', '/'], rest⟩ := by
  induction body with
  | nil => rfl
  | cons c body ih =>
      have ⟨starts, within⟩ := not_or.mp (mt List.infix_cons_iff.mpr inside)
      rw [List.cons_append, commentTail, ih within]
      · rfl
      · intro more star slash
        -- a star here and a slash behind it would be in the comment
        cases body with
        | nil =>
            cases (List.cons.inj slash).1
        | cons d body =>
            obtain ⟨rfl, _⟩ := List.cons.inj slash
            subst star
            exact starts ⟨body, rfl⟩

theorem read_block (inside : ¬ ['*', '/'] <:+: body) (rest : List Char) :
    read ('/' :: '*' :: (body ++ '*' :: '/' :: rest)) =
      ⟨some .comment, '/' :: '*' :: (body ++ ['*', '/']), rest⟩ := by
  have tail := commentTail_append_of_not_infix inside rest
  generalize body ++ '*' :: '/' :: rest = text at tail
  exact congrArg (fun tail => tail.after ['/', '*']) tail

theorem read_line (noFeed : '\n' ∉ body) (halts : Halts (· ≠ '\n') rest) :
    read ('/' :: '/' :: (body ++ rest)) = ⟨some .comment, '/' :: '/' :: body, rest⟩ := by
  have all : ∀ c ∈ '/' :: '/' :: body, decide (c ≠ '\n') = true := by
    intro c mem
    simp only [List.mem_cons] at mem
    grind
  have taken := halts.takeWhile all
  have left := halts.dropWhile all
  have found : read ('/' :: '/' :: (body ++ rest)) =
      run .comment (· ≠ '\n') ('/' :: '/' :: (body ++ rest)) := rfl
  rw [found, run]
  rw [List.cons_append, List.cons_append] at taken left
  rw [taken, left]

end Lexeme

theorem Lexeme.Separates.isGap {gap : List Char} : Separates gap → IsGap gap
  | .mk space rest => .space space rest

theorem Lexeme.Separates.parted {gap : List Char} (rest : List Char) :
    Separates gap → Parted (gap ++ rest)
  | .mk space _ => .space space

theorem Lexeme.Ends.parted {after : List Char} : Ends after → Parted after
  | .nothing => .ending
  | .gap space _ => .space space
  | .line space _ _ => .space space

namespace TokenStream

variable {place : Location} {text rest gap after : List Char} {seen : List Token}
  {words : List Word}

/-- A comment in front of a text does not matter. -/
theorem gist_comment {front : List Char} (h : read text = ⟨some .comment, front, rest⟩)
    (place : Location) (seen : List Token) :
    (splitFrom place text seen).gist = (splitFrom (place.advance front) rest seen).gist := by
  rw [splitFrom_of_read (by rw [h]), h, gist_cons_trivia rfl]

/-- White space and comments in front of a text do not matter. -/
theorem gist_gap (h : IsGap gap) (place : Location) (text : List Char) (seen : List Token) :
    (splitFrom place (gap ++ text) seen).gist = (splitFrom (place.advance gap) text seen).gist := by
  induction h generalizing place with
  | nothing => rfl
  | @space c rest space _ ih =>
      have one : ∀ d ∈ [c], isSpace d = true := by simpa using space
      have skipped : (splitFrom place ([c] ++ (rest ++ text)) seen).gist = _ := gist_spaces one
      rw [List.cons_append, Location.advance_cons, ← ih]
      exact skipped
  | @block body rest inside _ ih =>
      have front : '/' :: '*' :: (body ++ '*' :: '/' :: rest) =
          '/' :: '*' :: (body ++ ['*', '/']) ++ rest := by simp
      have skipped := gist_comment (Lexeme.read_block inside (rest ++ text)) place seen
      rw [front, Location.advance_append, ← ih, ← skipped]
      simp
  | @line body rest noFeed _ ih =>
      have front : '/' :: '/' :: (body ++ '\n' :: rest) =
          '/' :: '/' :: body ++ (['\n'] ++ rest) := by simp
      have halts : Halts (· ≠ '\n') ('\n' :: (rest ++ text)) := by
        intro c first
        cases first
        rfl
      have feed : ∀ d ∈ ['\n'], isSpace d = true := by simp [isSpace]
      have comment := gist_comment (Lexeme.read_line noFeed halts) place seen
      have skipped (place : Location) : (splitFrom place ('\n' :: (rest ++ text)) seen).gist =
          (splitFrom (place.advance ['\n']) (rest ++ text) seen).gist := gist_spaces feed
      rw [skipped, ih, ← Location.advance_append, ← Location.advance_append, ← front] at comment
      rw [← comment]
      simp

/-- Nor does what may stand behind the last word. -/
theorem gist_ends (h : Ends after) (place : Location) (seen : List Token) :
    (splitFrom place after seen).gist = (splitFrom (place.advance after) [] seen).gist := by
  cases h with
  | nothing => rfl
  | @gap c rest space isGap =>
      have same := gist_gap (.space space isGap) place [] seen
      rw [List.append_nil] at same
      exact same
  | @line c rest body space isGap noFeed =>
      have halts : Halts (· ≠ '\n') [] := nofun
      have comment := gist_comment (Lexeme.read_line noFeed halts)
        (place.advance (c :: rest)) seen
      rw [List.append_nil, ← Location.advance_append] at comment
      exact (gist_gap (.space space isGap) place _ seen).trans comment

/-- What matters about spread words are the words. -/
theorem gist_spread (h : Spread words text) (place : Location) (seen : List Token) :
    ∃ tokens, (splitFrom place text seen).gist = (tokens, none) ∧ wordsOf tokens =
      wordsOf (seen.reverse.filter fun token => !token.kind.isTrivia) ++ words := by
  have ending (place : Location) (seen : List Token) : (splitFrom place [] seen).gist =
      (seen.reverse.filter fun token => !token.kind.isTrivia, none) := by rw [splitFrom]; rfl
  have behind {word : Word} (spelled : word.Spelled) (place : Location) (seen : List Token) :
      wordsOf (((⟨word.1, String.ofList word.2.toList, place⟩ : Token) :: seen).reverse.filter
        fun token => !token.kind.isTrivia) =
      wordsOf (seen.reverse.filter fun token => !token.kind.isTrivia) ++ [word] := by
    have significant : word.1.isTrivia = false := TokenKind.Spells.significant spelled
    simp [significant, Token.word]
  induction h generalizing place seen with
  | nothing ends =>
      exact ⟨_, (gist_ends ends place seen).trans (ending _ seen), (List.append_nil _).symm⟩
  | last spelled ends =>
      rw [splitFrom_word spelled ends.parted, gist_ends ends, ending]
      exact ⟨_, rfl, behind spelled place seen⟩
  | @word word words gap text spelled separates _ ih =>
      have found := ih ((place.advance word.2.toList).advance gap)
        (⟨word.1, String.ofList word.2.toList, place⟩ :: seen)
      rw [behind spelled, List.append_assoc, List.singleton_append] at found
      rw [splitFrom_word spelled (separates.parted text), gist_gap separates.isGap]
      exact found

/-- The words of a layout are found in it, and nothing else that matters to the grammar. -/
theorem ofText_of_layout (file : String) {text : String} (h : Layout words text.toList) :
    (ofText file text).problem = none ∧ wordsOf (ofText file text).significant = words := by
  unfold ofText
  generalize text.toList = text at h ⊢
  cases h with
  | @mk before text isGap spread =>
      have skipped := gist_gap isGap (.start file) text []
      have ⟨tokens, found, same⟩ := gist_spread spread ((Location.start file).advance before) []
      have ⟨significant, fine⟩ := Prod.mk.inj (skipped.trans found)
      exact ⟨fine, significant ▸ same⟩

/-- Every token of a text belongs to the class of its kind. -/
theorem ofText_admits (file text : String) :
    ∀ token ∈ (ofText file text).tokens, token.kind.Admits token.text.toList := by
  suffices all : ∀ place text seen,
      (∀ token ∈ seen, token.kind.Admits (Token.text token).toList) →
        ∀ token ∈ (splitFrom place text seen).tokens, token.kind.Admits token.text.toList from
    all _ _ _ nofun
  apply splitFrom_induct (P := fun _ _ seen stream =>
    (∀ token ∈ seen, token.kind.Admits (Token.text token).toList) →
      ∀ token ∈ stream.tokens, token.kind.Admits token.text.toList)
  · intro _ seen all token mem
    exact all token (List.mem_reverse.mp mem)
  · intro _ _ seen _ _ all token mem
    exact all token (List.mem_reverse.mp mem)
  · intro place text seen kind stream found ih all
    apply ih
    have admits := Lexeme.admits_of_read found
    rw [← String.toList_ofList (l := (read text).text)] at admits
    exact List.forall_mem_cons.mpr ⟨admits, all⟩

end TokenStream

end StackScript
