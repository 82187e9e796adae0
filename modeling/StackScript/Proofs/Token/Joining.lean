/-
# Texts behind texts

A text that has been split to its end can be followed by another one on the next line. What the
grammar deals with are then the tokens of the first text, where they were, and behind them those of
the second one, as many lines further down as the first one takes up. Other tokens may be joined:
white space at the end of the one text and at the beginning of the other is a single token.
-/

import StackScript.Proofs.Token.Splitting

namespace StackScript

open Text (doubleQuote)

namespace Location

/-- The place some lines further down. -/
def down (lines : Nat) (place : Location) : Location := { place with line := place.line + lines }

theorem next_down (lines : Nat) (place : Location) (c : Char) :
    (place.down lines).next c = (place.next c).down lines := by
  unfold next down
  split
  · rw [Nat.add_right_comm]
  · rfl

theorem advance_down (lines : Nat) (place : Location) (text : List Char) :
    (place.down lines).advance text = (place.advance text).down lines := by
  induction text generalizing place with
  | nil => rfl
  | cons c text ih => rw [advance_cons, advance_cons, next_down, ih]

/-- Behind a text and a line feed, it is the beginning of a line. -/
theorem advance_feed (place : Location) (text : List Char) :
    place.advance (text ++ ['\n']) =
      { place with line := place.line + (text.count '\n' + 1), column := 1 } := by
  induction text generalizing place with
  | nil => rfl
  | cons c text ih =>
      rw [List.cons_append, advance_cons, ih, next]
      by_cases feed : c = '\n'
      · simp [feed, Nat.add_comm, Nat.add_left_comm]
      · simp [feed]

end Location

namespace Lexeme

/-- Puts characters behind what a lexeme leaves. -/
def before (read : Lexeme) (more : List Char) : Lexeme := { read with rest := read.rest ++ more }

variable {text : List Char}

section Feed

/-! Behind most texts a line feed ends what is read at their front, if that has not ended before. -/

variable {belongs : Char → Bool} (rest : List Char)

theorem takeWhile_feed (h : belongs '\n' = false) (text : List Char) :
    (text ++ '\n' :: rest).takeWhile belongs = text.takeWhile belongs := by
  induction text with
  | nil => simp [h]
  | cons c text ih =>
      rw [List.cons_append, List.takeWhile_cons, List.takeWhile_cons, ih]

theorem dropWhile_feed (h : belongs '\n' = false) (text : List Char) :
    (text ++ '\n' :: rest).dropWhile belongs = text.dropWhile belongs ++ '\n' :: rest := by
  induction text with
  | nil => simp [h]
  | cons c text ih =>
      rw [List.cons_append, List.dropWhile_cons, List.dropWhile_cons, ih]
      split <;> rfl

theorem run_feed (kind : TokenKind) (h : belongs '\n' = false) (text : List Char) :
    run kind belongs (text ++ '\n' :: rest) = (run kind belongs text).before ('\n' :: rest) := by
  rw [run, takeWhile_feed rest h, dropWhile_feed rest h]
  rfl

theorem exponentDigits_feed (text : List Char) :
    exponentDigits (text ++ '\n' :: rest) = (exponentDigits text).before ('\n' :: rest) := by
  cases text with
  | nil => rfl
  | cons c text =>
      rw [List.cons_append, exponentDigits, exponentDigits]
      split
      · exact run_feed rest .number rfl (c :: text)
      · rfl

theorem exponentTail_feed (text : List Char) :
    exponentTail (text ++ '\n' :: rest) = (exponentTail text).before ('\n' :: rest) := by
  cases text with
  | nil => rfl
  | cons c text =>
      rw [List.cons_append]
      by_cases plus : c = '+'
      · subst plus
        rw [exponentTail, exponentTail, exponentDigits_feed]
        rfl
      · by_cases minus : c = '-'
        · subst minus
          rw [exponentTail, exponentTail, exponentDigits_feed]
          rfl
        · rw [exponentTail, exponentTail]
          · exact exponentDigits_feed rest (c :: text)
          all_goals simp [plus, minus]

theorem exponent_feed (text : List Char) :
    exponent (text ++ '\n' :: rest) = (exponent text).before ('\n' :: rest) := by
  cases text with
  | nil => rfl
  | cons c text =>
      rw [List.cons_append, exponent, exponent]
      split
      · rw [exponentTail_feed]
        rfl
      · rfl

theorem fraction_feed (text : List Char) :
    fraction (text ++ '\n' :: rest) = (fraction text).before ('\n' :: rest) := by
  cases text with
  | nil => rfl
  | cons c text =>
      rw [List.cons_append]
      by_cases point : c = '.'
      · subst point
        rw [fraction, fraction, takeWhile_feed rest rfl, dropWhile_feed rest rfl, exponent_feed]
        rfl
      · rw [fraction, fraction]
        · exact exponent_feed rest (c :: text)
        all_goals simp [point]

theorem number_feed (text : List Char) :
    number (text ++ '\n' :: rest) = (number text).before ('\n' :: rest) := by
  rw [number, takeWhile_feed rest rfl, dropWhile_feed rest rfl, fraction_feed]
  rfl

theorem stringTail_feed (text : List Char) :
    stringTail (text ++ '\n' :: rest) = (stringTail text).before ('\n' :: rest) := by
  fun_induction stringTail text with
  | case1 =>
      rw [stringTail.eq_def]
      rfl
  | case2 =>
      rw [stringTail.eq_def]
      rfl
  | case3 =>
      rw [stringTail.eq_def]
      rfl
  | case4 =>
      rw [stringTail.eq_def]
      rfl
  | case5 d more known _ _ ih =>
      rw [stringTail.eq_def]
      simp only [List.cons_append, known, if_true, ih]
      rfl
  | case6 d more unknown =>
      rw [stringTail.eq_def]
      simp only [List.cons_append, unknown]
      rfl
  | case7 c more notQuote notFeed notSlash ih =>
      rw [stringTail.eq_def]
      simp only [List.cons_append, if_neg notQuote, if_neg notFeed, if_neg notSlash, ih]
      rfl

theorem name_feed (text : List Char) :
    name (text ++ '\n' :: rest) = (name text).before ('\n' :: rest) := by
  rw [name, takeWhile_feed rest rfl, dropWhile_feed rest rfl]
  rfl

theorem isPrefixOf_feed {word : List Char} (h : '\n' ∉ word) (text : List Char) :
    word.isPrefixOf (text ++ '\n' :: rest) = word.isPrefixOf text := by
  induction word generalizing text with
  | nil => rw [List.isPrefixOf_nil_left, List.isPrefixOf_nil_left]
  | cons c word ih =>
      obtain ⟨other, more⟩ := List.ne_and_not_mem_of_not_mem_cons h
      cases text with
      | nil => simp [List.isPrefixOf, Ne.symm other]
      | cons d text => rw [List.cons_append, List.isPrefixOf, List.isPrefixOf, ih more]

theorem punctuator_feed (text : List Char) :
    punctuator (text ++ '\n' :: rest) = (punctuator text).before ('\n' :: rest) := by
  have noFeed (mark : Punctuator) : '\n' ∉ mark.text.toList := by cases mark <;> decide
  have same : (fun mark : Punctuator => mark.text.toList.isPrefixOf (text ++ '\n' :: rest)) =
      fun mark => mark.text.toList.isPrefixOf text := by
    funext mark
    exact isPrefixOf_feed rest (noFeed mark) text
  unfold punctuator
  rw [same]
  split
  · rename_i mark found
    have fits := List.find?_some found
    obtain ⟨behind, rfl⟩ := List.isPrefixOf_iff_prefix.mp fits
    simp [before]
  · rfl

theorem startsNumber_feed (some : text ≠ []) :
    startsNumber (text ++ '\n' :: rest) = startsNumber text := by
  match text with
  | [] => exact absurd rfl some
  | [c] => simp [startsNumber]
  | c :: d :: more => rfl

/-- A comment that ends is the same with more behind it. -/
theorem commentTail_append {kind : TokenKind} (more : List Char)
    (h : (commentTail text).kind = Option.some kind) :
    commentTail (text ++ more) = (commentTail text).before more := by
  fun_induction commentTail text with
  | case1 => cases h
  | case2 rest => rfl
  | case3 c rest notEnd ih =>
      rw [List.cons_append, commentTail, ih h]
      · rfl
      · intro behind star slash
        cases rest with
        | nil => cases h
        | cons d rest => exact notEnd rest star (congrArg (· :: rest) (List.cons.inj slash).1)

/-- What something else follows is the same with more behind that. -/
theorem run_append {kind : TokenKind} (h : text.dropWhile belongs ≠ []) (more : List Char) :
    run kind belongs (text ++ more) = (run kind belongs text).before more := by
  unfold run
  induction text with
  | nil => exact absurd rfl h
  | cons c text ih =>
      cases inside : belongs c with
      | true =>
          simp only [List.dropWhile_cons, inside, if_true] at h
          have same := ih h
          simp_all [before]
      | false => simp [inside, before]

theorem read_space {c : Char} (space : isSpace c = true) (more : List Char) :
    read (c :: more) = run .whiteSpace isSpace (c :: more) := by
  rw [read, if_pos space]

/-- A line feed behind a text changes nothing about the token at its front, unless the text is
nothing but white space. -/
theorem read_feed {kind : TokenKind} (h : (read text).kind = some kind)
    (behind : text.dropWhile isSpace ≠ []) :
    read (text ++ '\n' :: rest) = (read text).before ('\n' :: rest) := by
  cases text with
  | nil => cases h
  | cons c more =>
      have starts := startsNumber_feed rest (List.cons_ne_nil c more)
      have noFeed (d : Char) (other : '\n' ≠ d) : '\n' ∉ ['/', d] := by simp [other]
      have line := isPrefixOf_feed rest (noFeed '/' (by decide)) (c :: more)
      have block := isPrefixOf_feed rest (noFeed '*' (by decide)) (c :: more)
      rw [List.cons_append] at starts line block ⊢
      unfold read at h ⊢
      simp only [starts, line, block]
      dsimp only at h
      by_cases space : isSpace c = true
      · simp only [if_pos space]
        exact run_append behind _
      simp only [if_neg space] at h ⊢
      by_cases digit : startsNumber (c :: more) = true
      · simp only [if_pos digit]
        exact number_feed rest (c :: more)
      simp only [if_neg digit] at h ⊢
      by_cases quote : c = doubleQuote
      · simp only [if_pos quote, stringTail_feed]
        rfl
      simp only [if_neg quote] at h ⊢
      by_cases letter : isNameStart c = true
      · simp only [if_pos letter]
        exact name_feed rest (c :: more)
      simp only [if_neg letter] at h ⊢
      by_cases slashes : ['/', '/'].isPrefixOf (c :: more) = true
      · simp only [if_pos slashes]
        exact run_feed rest .comment rfl (c :: more)
      simp only [if_neg slashes] at h ⊢
      by_cases star : ['/', '*'].isPrefixOf (c :: more) = true
      · simp only [if_pos star] at h ⊢
        obtain ⟨tail, same⟩ := List.isPrefixOf_iff_prefix.mp star
        obtain ⟨rfl, rfl⟩ := List.cons.inj same
        have comment : (commentTail tail).kind = some kind := h
        exact congrArg (fun read => read.after ['/', '*']) (commentTail_append _ comment)
      · simp only [if_neg star]
        exact punctuator_feed rest (c :: more)

end Feed

end Lexeme

/-- A token at another place. -/
def Token.relocate (move : Location → Location) (token : Token) : Token :=
  { token with location := move token.location }

@[simp] theorem Token.kind_relocate (move : Location → Location) (token : Token) :
    (token.relocate move).kind = token.kind := rfl

@[simp] theorem Token.relocate_id (token : Token) : token.relocate id = token := rfl

namespace TokenStream

open Lexeme (isSpace)

variable {place : Location} {text rest : List Char} {seen : List Token} {token : Token}

/-- What has been seen stays in front of what is found. -/
theorem splitFrom_seen (place : Location) (text : List Char) (seen more : List Token) :
    splitFrom place text (seen ++ more) =
      { splitFrom place text seen with
        tokens := more.reverse ++ (splitFrom place text seen).tokens } := by
  apply splitFrom_induct (P := fun place text seen stream =>
    splitFrom place text (seen ++ more) = { stream with tokens := more.reverse ++ stream.tokens })
  · intro place seen
    rw [splitFrom, List.reverse_append]
  · intro place text seen some broken
    rw [splitFrom_of_break some broken, List.reverse_append]
  · intro place text seen kind stream found ih
    rw [splitFrom_of_read found]
    exact ih

/-- What matters about a split text: the tokens that the grammar deals with, and what is wrong. -/
def gist (stream : TokenStream) : List Token × Option Diagnostic :=
  (stream.significant, stream.problem)

theorem gist_cons_trivia (trivia : token.kind.isTrivia = true) :
    (splitFrom place text (token :: seen)).gist = (splitFrom place text seen).gist := by
  have front := splitFrom_seen place text [] (token :: seen)
  have front' := splitFrom_seen place text [] seen
  rw [List.nil_append] at front front'
  rw [front, front']
  simp [gist, significant, trivia]

/-- White space in front of a text does not matter. -/
theorem gist_dropWhile (place : Location) (text : List Char) (seen : List Token) :
    (splitFrom place text seen).gist =
      (splitFrom (place.advance (text.takeWhile isSpace)) (text.dropWhile isSpace) seen).gist := by
  cases text with
  | nil => rfl
  | cons c more =>
      cases space : isSpace c with
      | false => simp [space]
      | true =>
          have found := Lexeme.read_space space more
          rw [splitFrom_of_read (by rw [found]; rfl), found, gist_cons_trivia rfl]
          rfl

theorem gist_spaces {spaces : List Char} (h : ∀ c ∈ spaces, isSpace c = true) :
    (splitFrom place (spaces ++ text) seen).gist =
      (splitFrom (place.advance spaces) text seen).gist := by
  rw [gist_dropWhile, gist_dropWhile (place.advance spaces), List.takeWhile_append_of_pos h,
    List.dropWhile_append_of_pos h, Location.advance_append]

/-- Behind a text that can be split to its end, splitting goes on with the next line. -/
theorem gist_join (place : Location) (text : List Char) (seen : List Token) (rest : List Char) :
    (splitFrom place text seen).problem = none →
      (splitFrom place (text ++ '\n' :: rest) seen).gist =
        (splitFrom (place.advance (text ++ ['\n'])) rest
          (splitFrom place text seen).tokens.reverse).gist := by
  have feed : ∀ c ∈ ['\n'], isSpace c = true := by simp [isSpace]
  apply splitFrom_induct (P := fun place text seen stream => stream.problem = none →
    (splitFrom place (text ++ '\n' :: rest) seen).gist =
      (splitFrom (place.advance (text ++ ['\n'])) rest stream.tokens.reverse).gist)
  · intro place seen _
    rw [List.reverse_reverse]
    exact gist_spaces feed
  · intro place text seen _ _ absurd
    cases absurd
  · intro place text seen kind stream found ih fine
    have whole := Lexeme.read_append text
    have goesOn := ih fine
    rw [← Location.advance_append, ← List.append_assoc, whole] at goesOn
    rw [← goesOn]
    by_cases spaces : text.dropWhile isSpace = []
    · -- a line feed behind white space belongs to it
      have all : ∀ c ∈ text, isSpace c = true := List.dropWhile_eq_nil_iff.mp spaces
      cases text with
      | nil => cases found
      | cons c more =>
          have read := Lexeme.read_space (all c List.mem_cons_self) more
          have last : (Lexeme.read (c :: more)).rest = [] := by rw [read]; exact spaces
          have trivia : kind = .whiteSpace := by
            rw [read] at found
            exact (Option.some.inj found).symm
          rw [last, List.append_nil] at whole
          rw [last, whole, trivia, gist_cons_trivia rfl]
          exact gist_spaces all
    · have more := Lexeme.read_feed rest found spaces
      rw [splitFrom_of_read (by rw [more]; exact found), more]
      rfl

/-- A split text some lines further down. -/
def down (lines : Nat) (stream : TokenStream) : TokenStream where
  tokens := stream.tokens.map (Token.relocate (.down lines))
  stop := stream.stop.down lines
  problem := stream.problem.map fun problem =>
    { problem with location := problem.location.map (.down lines) }

theorem significant_down (lines : Nat) (stream : TokenStream) :
    (stream.down lines).significant =
      stream.significant.map (Token.relocate (.down lines)) := by
  rw [significant, down, List.filter_map]
  rfl

theorem splitFrom_down (lines : Nat) (place : Location) (text : List Char) (seen : List Token) :
    splitFrom (place.down lines) text (seen.map (Token.relocate (.down lines))) =
      (splitFrom place text seen).down lines := by
  apply splitFrom_induct (P := fun place text seen stream =>
    splitFrom (place.down lines) text (seen.map (Token.relocate (.down lines))) =
      stream.down lines)
  · intro place seen
    rw [splitFrom, ← List.map_reverse]
    rfl
  · intro place text seen some broken
    rw [splitFrom_of_break some broken, Location.advance_down, ← List.map_reverse]
    rfl
  · intro place text seen kind stream found ih
    rw [splitFrom_of_read found, Location.advance_down]
    exact ih

/-- The tokens of a text and of another one below it. -/
theorem ofText_join (file first second : String) (fine : (ofText file first).problem = none) :
    let lines := first.toList.count '\n' + 1
    (ofText file (first ++ "\n" ++ second)).significant =
        (ofText file first).significant ++
          (ofText file second).significant.map (Token.relocate (.down lines)) ∧
      ((ofText file second).problem = none →
        (ofText file (first ++ "\n" ++ second)).problem = none) := by
  intro lines
  have joined := gist_join (.start file) first.toList [] second.toList fine
  have place : (Location.start file).advance (first.toList ++ ['\n']) =
      (Location.start file).down lines := Location.advance_feed (.start file) first.toList
  have front := splitFrom_seen ((Location.start file).down lines) second.toList []
    (ofText file first).tokens.reverse
  have moved := splitFrom_down lines (.start file) second.toList []
  rw [List.map_nil] at moved
  rw [List.nil_append, moved, List.reverse_reverse] at front
  have whole : (first ++ "\n" ++ second).toList = first.toList ++ '\n' :: second.toList := by
    simp
  rw [place, ← ofText, front] at joined
  obtain ⟨tokens, problem⟩ := Prod.mk.inj joined
  rw [ofText, whole]
  constructor
  · rw [tokens, ← significant_down, significant, List.filter_append]
    rfl
  · intro fine'
    rw [problem]
    exact congrArg (Option.map _) fine'

end TokenStream

end StackScript
