/-
# Lexemes

The shape of tokens, without regard to places. `Lexeme.read` looks at the
beginning of a text, decides by the first characters which class of token
starts there, and splits the text into that token and what follows. Where the
text starts a token but does not complete it, the split is at the character
that does not fit. Either way the two parts are the whole text
(`Lexeme.read_append`), and a token is never empty (`Lexeme.read_ne_nil`).
-/

import StackScript.Token.Basic
import StackScript.Token.Literal

namespace StackScript

open Text (backslash doubleQuote)

/-- The outcome of looking for a token. Without a kind there is none: `text` is
then the part that could have begun a token, and `rest` starts with the
character that broke it off, or is empty if the text ended too early. -/
structure Lexeme where
  kind : Option TokenKind
  text : List Char
  rest : List Char
deriving DecidableEq, Repr

namespace Lexeme

/-- Space, tab, line feed, vertical tab, form feed and carriage return. -/
def isSpace (c : Char) : Bool :=
  c = ' ' || c = '\t' || c = '\n' || c = '\x0b' || c = '\x0c' || c = '\r'

/-- A name starts with a basic letter or an underscore. -/
def isNameStart (c : Char) : Bool := c.isAlpha || c = '_'

/-- A name goes on with basic letters, digits and underscores. -/
def isNamePart (c : Char) : Bool := c.isAlphanum || c = '_'

/-- Puts characters in front of the text of a lexeme. -/
def after (read : Lexeme) (text : List Char) : Lexeme := { read with text := text ++ read.text }

/-- The longest run of characters of a class. -/
def run (kind : TokenKind) (belongs : Char → Bool) (text : List Char) : Lexeme :=
  ⟨some kind, text.takeWhile belongs, text.dropWhile belongs⟩

/-- An exponent has a sign that may be left out and at least one digit. -/
def exponentDigits : List Char → Lexeme
  | [] => ⟨none, [], []⟩
  | c :: rest => if c.isDigit then run .number Char.isDigit (c :: rest) else ⟨none, [], c :: rest⟩

/-- What follows the letter of an exponent. -/
def exponentTail : List Char → Lexeme
  | '+' :: rest => (exponentDigits rest).after ['+']
  | '-' :: rest => (exponentDigits rest).after ['-']
  | rest => exponentDigits rest

/-- The exponent of a number, which may be missing. -/
def exponent : List Char → Lexeme
  | [] => ⟨some .number, [], []⟩
  | c :: rest =>
    if c = 'e' || c = 'E' then (exponentTail rest).after [c] else ⟨some .number, [], c :: rest⟩

/-- The part of a number after its leading digits: a point with any number of
digits, which may be missing, and the exponent. -/
def fraction : List Char → Lexeme
  | '.' :: rest =>
    (exponent (rest.dropWhile Char.isDigit)).after ('.' :: rest.takeWhile Char.isDigit)
  | rest => exponent rest

/-- A number. -/
def number (text : List Char) : Lexeme :=
  (fraction (text.dropWhile Char.isDigit)).after (text.takeWhile Char.isDigit)

/-- A string after its opening quote. It ends at the next quote that no
backslash protects, and must do so on the same line. -/
def stringTail : List Char → Lexeme
  | [] => ⟨none, [], []⟩
  | c :: rest =>
    if c = doubleQuote then ⟨some .string, [c], rest⟩
    else if c = '\n' then ⟨none, [], c :: rest⟩
    else if c = backslash then
      match rest with
      | [] => ⟨none, [c], []⟩
      | d :: rest =>
        if (StringLiteral.escaped? d).isSome then (stringTail rest).after [c, d]
        else ⟨none, [c], d :: rest⟩
    else (stringTail rest).after [c]

/-- A comment in brackets after its opening; it may extend over several lines
and does not nest. -/
def commentTail : List Char → Lexeme
  | [] => ⟨none, [], []⟩
  | '*' :: '/' :: rest => ⟨some .comment, ['*', '/'], rest⟩
  | c :: rest => (commentTail rest).after [c]

/-- A name, or the reserved word of that spelling. -/
def name (text : List Char) : Lexeme :=
  let word := text.takeWhile isNamePart
  let kind := (Keyword.ofText? (String.ofList word)).elim .name .keyword
  ⟨some kind, word, text.dropWhile isNamePart⟩

/-- A punctuator; of two that fit, the longer one. -/
def punctuator (text : List Char) : Lexeme :=
  match Punctuator.all.find? fun mark => mark.text.toList.isPrefixOf text with
  | some mark => ⟨some (.punctuator mark), mark.text.toList, text.drop mark.text.toList.length⟩
  | none => ⟨none, [], text⟩

/-- Does a number start here? A point does only if a digit follows. -/
def startsNumber : List Char → Bool
  | [] => false
  | [c] => c.isDigit
  | c :: d :: _ => c.isDigit || (c = '.' && d.isDigit)

/-- The token at the beginning of a text. -/
def read (text : List Char) : Lexeme :=
  match text with
  | [] => ⟨none, [], []⟩
  | c :: rest =>
    if isSpace c then run .whiteSpace isSpace text
    else if startsNumber text then number text
    else if c = doubleQuote then (stringTail rest).after [c]
    else if isNameStart c then name text
    else if ['/', '/'].isPrefixOf text then run .comment (· ≠ '\n') text
    else if ['/', '*'].isPrefixOf text then (commentTail (text.drop 2)).after ['/', '*']
    else punctuator text

/-- A lexeme covers a text when its two parts make up the text. -/
def Covers (read : Lexeme) (text : List Char) : Prop := read.text ++ read.rest = text

theorem Covers.after {read : Lexeme} {rest : List Char} (h : read.Covers rest)
    (text : List Char) : (read.after text).Covers (text ++ rest) := by
  simp_all [Covers, Lexeme.after]

theorem run_covers (kind : TokenKind) (belongs : Char → Bool) (text : List Char) :
    (run kind belongs text).Covers text := by
  simp [Covers, run]

theorem exponentDigits_covers (text : List Char) : (exponentDigits text).Covers text := by
  unfold exponentDigits
  split
  · rfl
  · split
    · exact run_covers _ _ _
    · rfl

theorem exponentTail_covers (text : List Char) : (exponentTail text).Covers text := by
  unfold exponentTail
  split
  · exact (exponentDigits_covers _).after ['+']
  · exact (exponentDigits_covers _).after ['-']
  · exact exponentDigits_covers _

theorem exponent_covers (text : List Char) : (exponent text).Covers text := by
  unfold exponent
  split
  · rfl
  · next c rest =>
    split
    · exact (exponentTail_covers rest).after [c]
    · rfl

theorem fraction_covers (text : List Char) : (fraction text).Covers text := by
  unfold fraction
  split
  · next rest =>
    have h := (exponent_covers (rest.dropWhile Char.isDigit)).after
      ('.' :: rest.takeWhile Char.isDigit)
    simpa using h
  · exact exponent_covers _

theorem number_covers (text : List Char) : (number text).Covers text := by
  have h := (fraction_covers (text.dropWhile Char.isDigit)).after (text.takeWhile Char.isDigit)
  simpa [number] using h

theorem stringTail_covers (text : List Char) : (stringTail text).Covers text := by
  fun_induction stringTail text with
  | case1 => rfl
  | case2 => rfl
  | case3 => rfl
  | case4 => rfl
  | case5 _ _ _ _ _ ih => exact ih.after [_, _]
  | case6 => rfl
  | case7 c _ _ _ _ ih => exact ih.after [c]

theorem commentTail_covers (text : List Char) : (commentTail text).Covers text := by
  fun_induction commentTail text with
  | case1 => rfl
  | case2 => rfl
  | case3 c rest _ ih => exact ih.after [c]

theorem punctuator_covers (text : List Char) : (punctuator text).Covers text := by
  unfold punctuator
  split
  · next mark found =>
    have fits := List.find?_some found
    obtain ⟨rest, rfl⟩ := List.isPrefixOf_iff_prefix.mp fits
    simp [Covers]
  · rfl

/-- The two parts of a lexeme make up the text. -/
theorem read_append (text : List Char) : (read text).text ++ (read text).rest = text := by
  suffices h : (read text).Covers text from h
  unfold read
  split
  · rfl
  · next c rest =>
    split
    · exact run_covers _ _ _
    split
    · exact number_covers _
    split
    · exact (stringTail_covers rest).after [c]
    split
    · simp [name, Covers]
    split
    · exact run_covers _ _ _
    split
    · next fits =>
      obtain ⟨more, h⟩ := List.isPrefixOf_iff_prefix.mp fits
      rw [← h]
      exact (commentTail_covers more).after ['/', '*']
    · exact punctuator_covers _

/-- A lexeme that starts with a character of its class is not empty. -/
theorem takeWhile_ne_nil {belongs : Char → Bool} {c : Char} {rest : List Char}
    (h : belongs c = true) : (c :: rest).takeWhile belongs ≠ [] := by
  simp [h]

theorem number_ne_nil {text : List Char} (h : startsNumber text = true) :
    (number text).text ≠ [] := by
  unfold startsNumber at h
  split at h
  · contradiction
  · simp [number, Lexeme.after, h]
  · next c d rest =>
    by_cases digit : c.isDigit = true
    · simp [number, Lexeme.after, digit]
    · have point : c = '.' := by simp_all
      subst point
      simp [number, fraction, Lexeme.after, digit]

theorem punctuator_ne_nil {text : List Char} (h : (punctuator text).kind.isSome = true) :
    (punctuator text).text ≠ [] := by
  unfold punctuator at h ⊢
  split
  · next mark _ => cases mark <;> simp [Punctuator.text]
  · simp_all

/-- A token has at least one character. -/
theorem read_ne_nil {text : List Char} (h : (read text).kind.isSome = true) :
    (read text).text ≠ [] := by
  unfold read at h ⊢
  split
  · simp at h
  · next c rest =>
    dsimp only at h
    split
    · next space => exact takeWhile_ne_nil space
    · next notSpace =>
      rw [if_neg notSpace] at h
      split
      · next digit => exact number_ne_nil digit
      · next notDigit =>
        rw [if_neg notDigit] at h
        split
        · simp [Lexeme.after]
        · next notQuote =>
          rw [if_neg notQuote] at h
          split
          · next letter =>
            apply takeWhile_ne_nil
            simp_all [isNameStart, isNamePart, Char.isAlphanum]
            grind
          · next notLetter =>
            rw [if_neg notLetter] at h
            split
            · next slash =>
              obtain ⟨rfl, _⟩ := List.cons_prefix_cons.mp (List.isPrefixOf_iff_prefix.mp slash)
              simp [run]
            · next notLine =>
              rw [if_neg notLine] at h
              split
              · simp [Lexeme.after]
              · next notBlock =>
                rw [if_neg notBlock] at h
                exact punctuator_ne_nil h

/-- What follows a token is shorter than the text that the token was read from. -/
theorem length_rest_lt {text : List Char} (h : (read text).kind.isSome = true) :
    (read text).rest.length < text.length := by
  have whole := congrArg List.length (read_append text)
  have some := List.length_pos_iff.mpr (read_ne_nil h)
  rw [List.length_append] at whole
  omega

end Lexeme

end StackScript
