/-
# Spellings

What the tokens of a program look like, class by class and without regard to how a text is split
into them. Reading keeps to the classes: what is read as a token of a class belongs to it. Behind
a text of a class, white space or the end of the text is enough for reading to find it there as a
whole; nothing is taken for part of it that is not, and nothing of it is left.
-/

import Mathlib.Data.List.TakeWhile
import StackScript.Token.Lexeme

namespace StackScript

open Text (backslash doubleQuote)

namespace Lexeme

/-- A row of decimal digits, which may be empty. -/
def Digits (text : List Char) : Prop := ∀ c ∈ text, c.isDigit = true

/-- The fraction of a numeral: nothing, or a point with any number of digits. -/
inductive IsFraction : List Char → Prop
  | none : IsFraction []
  | point {digits : List Char} : Digits digits → IsFraction ('.' :: digits)

/-- The exponent of a numeral: nothing, or a letter, a sign that may be left out, and at least
one digit. -/
inductive IsExponent : List Char → Prop
  | none : IsExponent []
  | some {letter : Char} {sign digits : List Char} : letter ∈ ['e', 'E'] →
      sign ∈ [[], ['+'], ['-']] → digits ≠ [] → Digits digits →
        IsExponent (letter :: (sign ++ digits))

/-- Numerals have a digit before the point or behind it. -/
inductive IsNumeral : List Char → Prop
  | mk {whole fraction exponent : List Char} : Digits whole → IsFraction fraction →
      IsExponent exponent → (whole ≠ [] ∨ 2 ≤ fraction.length) →
        IsNumeral (whole ++ fraction ++ exponent)

/-- What can stand between the quotes of a string: a quote and a backslash only behind a
backslash, and no line feed. -/
inductive IsStringBody : List Char → Prop
  | nil : IsStringBody []
  | plain {c : Char} {rest : List Char} : c ≠ doubleQuote → c ≠ backslash → c ≠ '\n' →
      IsStringBody rest → IsStringBody (c :: rest)
  | escape {d : Char} {rest : List Char} : (StringLiteral.escaped? d).isSome →
      IsStringBody rest → IsStringBody (backslash :: d :: rest)

/-- Names and reserved words are made of the same characters. -/
inductive IsWord : List Char → Prop
  | mk {c : Char} {rest : List Char} : isNameStart c = true →
      (∀ d ∈ rest, isNamePart d = true) → IsWord (c :: rest)

end Lexeme

/-- Outside of an escape a character stands for itself. -/
theorem StringLiteral.unescape_cons {c : Char} (plain : c ≠ backslash) (rest : List Char) :
    unescape (c :: rest) = c :: unescape rest := by
  cases rest with
  | nil => rfl
  | cons d more => rw [unescape, if_neg plain]

/-- The texts of a class of tokens. White space and comments, which programs do not consist of,
have none here. -/
def TokenKind.Spells : TokenKind → List Char → Prop
  | .number, text => Lexeme.IsNumeral text
  | .string, text => ∃ body, text = doubleQuote :: (body ++ [doubleQuote]) ∧
      Lexeme.IsStringBody body
  | .name, text => Lexeme.IsWord text ∧ Keyword.ofText? (String.ofList text) = none
  | .keyword word, text => text = word.text.toList
  | .punctuator mark, text => text = mark.text.toList
  | _, _ => False

namespace Lexeme

section Reading

/-- What is read is in its class, if something is read. -/
def Within (lexeme : Lexeme) (kind : TokenKind) (shape : List Char → Prop) : Prop :=
  ∀ found, lexeme.kind = some found → found = kind ∧ shape lexeme.text

theorem Within.after {lexeme : Lexeme} {kind : TokenKind} {shape whole : List Char → Prop}
    (h : lexeme.Within kind shape) {text : List Char}
    (mono : ∀ rest, shape rest → whole (text ++ rest)) : (lexeme.after text).Within kind whole := by
  intro found same
  obtain ⟨rfl, within⟩ := h found same
  exact ⟨rfl, mono _ within⟩

theorem within_none {kind : TokenKind} {shape : List Char → Prop} {text rest : List Char} :
    (⟨none, text, rest⟩ : Lexeme).Within kind shape := nofun

theorem within_some {kind : TokenKind} {shape : List Char → Prop} {text rest : List Char}
    (h : shape text) : (⟨some kind, text, rest⟩ : Lexeme).Within kind shape := by
  intro found same
  cases same
  exact ⟨rfl, h⟩

theorem digits_takeWhile (text : List Char) : Digits (text.takeWhile Char.isDigit) :=
  fun _ mem => List.mem_takeWhile_imp mem

theorem exponentDigits_within (text : List Char) :
    (exponentDigits text).Within .number fun digits => digits ≠ [] ∧ Digits digits := by
  unfold exponentDigits
  split
  · exact within_none
  · next c rest =>
    by_cases digit : c.isDigit = true
    · rw [if_pos digit]
      exact within_some ⟨takeWhile_ne_nil digit, digits_takeWhile _⟩
    · rw [if_neg digit]
      exact within_none

theorem exponentTail_within (text : List Char) :
    (exponentTail text).Within .number fun tail => ∃ sign digits, tail = sign ++ digits ∧
      sign ∈ [[], ['+'], ['-']] ∧ digits ≠ [] ∧ Digits digits := by
  unfold exponentTail
  split
  · exact (exponentDigits_within _).after fun digits h => ⟨['+'], digits, rfl, by simp, h⟩
  · exact (exponentDigits_within _).after fun digits h => ⟨['-'], digits, rfl, by simp, h⟩
  · intro found same
    obtain ⟨rfl, h⟩ := exponentDigits_within _ found same
    exact ⟨rfl, [], _, rfl, by simp, h⟩

theorem exponent_within (text : List Char) : (exponent text).Within .number IsExponent := by
  unfold exponent
  split
  · exact within_some .none
  · next c rest =>
    by_cases letter : c = 'e' ∨ c = 'E'
    · rw [if_pos (by simpa using letter)]
      apply (exponentTail_within rest).after
      intro tail h
      obtain ⟨sign, digits, rfl, signed, some, all⟩ := h
      exact @IsExponent.some _ sign digits (by simpa using letter) signed some all
    · rw [if_neg (by simpa using letter)]
      exact within_some .none

/-- Behind the leading digits come the fraction and the exponent. -/
theorem fraction_within (text : List Char) :
    (fraction text).Within .number fun tail => ∃ fraction exponent, tail = fraction ++ exponent ∧
      IsFraction fraction ∧ IsExponent exponent ∧ ∀ rest, text = '.' :: rest →
        fraction.length = (rest.takeWhile Char.isDigit).length + 1 := by
  unfold fraction
  split
  · next rest =>
    apply (exponent_within _).after
    intro tail h
    refine ⟨_, tail, rfl, .point (digits_takeWhile rest), h, ?_⟩
    intro more same
    cases same
    rw [List.length_cons]
  · next other =>
    intro found same
    obtain ⟨rfl, h⟩ := exponent_within _ found same
    exact ⟨rfl, [], _, rfl, .none, h, fun rest point => absurd point (other rest)⟩

/-- A number starts with a digit, or with a point that a digit follows. -/
theorem number_within {text : List Char} (h : startsNumber text = true) :
    (number text).Within .number IsNumeral := by
  apply (fraction_within (text.dropWhile Char.isDigit)).after
  intro tail inside
  obtain ⟨fraction, exponent, rfl, isFraction, isExponent, length⟩ := inside
  rw [← List.append_assoc]
  refine .mk (digits_takeWhile text) isFraction isExponent ?_
  unfold startsNumber at h
  split at h
  · contradiction
  · left
    simp [h]
  · next c d rest =>
    by_cases digit : c.isDigit = true
    · left
      simp [digit]
    · right
      have point : c = '.' ∧ d.isDigit = true := by simpa [digit] using h
      obtain ⟨rfl, second⟩ := point
      rw [length (d :: rest) (by simp), List.takeWhile_cons_of_pos second, List.length_cons]
      omega

theorem stringTail_within (text : List Char) :
    (stringTail text).Within .string fun tail => ∃ body, tail = body ++ [doubleQuote] ∧
      IsStringBody body := by
  fun_induction stringTail text with
  | case1 => exact within_none
  | case2 rest => exact within_some ⟨[], rfl, .nil⟩
  | case3 => exact within_none
  | case4 => exact within_none
  | case5 d rest known _ _ ih =>
      apply ih.after
      intro tail h
      obtain ⟨body, rfl, inside⟩ := h
      exact ⟨backslash :: d :: body, rfl, .escape known inside⟩
  | case6 => exact within_none
  | case7 c rest notQuote notFeed notSlash ih =>
      apply ih.after
      intro tail h
      obtain ⟨body, rfl, inside⟩ := h
      exact ⟨c :: body, rfl, .plain notQuote notSlash notFeed inside⟩

/-- The reserved word of a spelling is spelled so. -/
theorem Keyword.text_of_ofText? {text : String} {word : Keyword}
    (h : Keyword.ofText? text = some word) : word.text = text := by
  have same := List.find?_some h
  simpa using same

theorem isNamePart_of_isNameStart {c : Char} (h : isNameStart c = true) :
    isNamePart c = true := by
  simp only [isNameStart, isNamePart, Char.isAlphanum] at h ⊢
  grind

theorem name_spells {c : Char} {rest : List Char} (start : isNameStart c = true) {kind : TokenKind}
    (h : (name (c :: rest)).kind = some kind) : kind.Spells (name (c :: rest)).text := by
  have part := isNamePart_of_isNameStart start
  have word : IsWord (name (c :: rest)).text := by
    simp only [name, List.takeWhile_cons, part, if_true]
    exact .mk start fun _ mem => List.mem_takeWhile_imp mem
  simp only [name] at h word ⊢
  cases found : Keyword.ofText? (String.ofList ((c :: rest).takeWhile isNamePart)) with
  | none =>
      rw [found] at h
      cases h
      exact ⟨word, found⟩
  | some keyword =>
      rw [found] at h
      cases h
      have same := Keyword.text_of_ofText? found
      exact (String.toList_ofList.symm.trans (congrArg String.toList same.symm))

theorem punctuator_spells {text : List Char} {kind : TokenKind}
    (h : (punctuator text).kind = some kind) : kind.Spells (punctuator text).text := by
  unfold punctuator at h ⊢
  split at h
  · cases h
    rfl
  · cases h

/-- A token of a program is spelled as its class says. -/
theorem spells_of_read {text : List Char} {kind : TokenKind}
    (h : (read text).kind = some kind) (significant : kind.isTrivia = false) :
    kind.Spells (read text).text := by
  unfold read at h ⊢
  split
  · cases h
  · next c rest =>
    dsimp only at h
    by_cases space : isSpace c = true
    · rw [if_pos space] at h
      cases h
      cases significant
    rw [if_neg space] at h ⊢
    by_cases digit : startsNumber (c :: rest) = true
    · rw [if_pos digit] at h ⊢
      obtain ⟨rfl, within⟩ := number_within digit kind h
      exact within
    rw [if_neg digit] at h ⊢
    by_cases quote : c = doubleQuote
    · rw [if_pos quote] at h ⊢
      obtain ⟨rfl, body, same, inside⟩ := stringTail_within rest kind h
      refine ⟨body, ?_, inside⟩
      simp only [Lexeme.after, same, quote]
      rfl
    rw [if_neg quote] at h ⊢
    by_cases letter : isNameStart c = true
    · rw [if_pos letter] at h ⊢
      exact name_spells letter h
    rw [if_neg letter] at h ⊢
    by_cases line : ['/', '/'].isPrefixOf (c :: rest) = true
    · rw [if_pos line] at h
      cases h
      cases significant
    rw [if_neg line] at h ⊢
    by_cases block : ['/', '*'].isPrefixOf (c :: rest) = true
    · rw [if_pos block] at h
      have comment : ∀ text, (commentTail text).Within .comment fun _ => True := by
        intro text
        fun_induction commentTail text with
        | case1 => exact within_none
        | case2 => exact within_some trivial
        | case3 _ _ _ ih => exact ih.after fun _ _ => trivial
      obtain ⟨rfl, -⟩ := comment _ kind h
      cases significant
    rw [if_neg block] at h ⊢
    exact punctuator_spells h

end Reading

section Finding

/-- A token is parted from what follows by white space, or nothing follows. -/
inductive Parted : List Char → Prop
  | ending : Parted []
  | space {c : Char} {rest : List Char} : isSpace c = true → Parted (c :: rest)

/-- No character of a class comes next. -/
def Halts (belongs : Char → Bool) (rest : List Char) : Prop :=
  ∀ c ∈ rest.head?, belongs c = false

variable {belongs : Char → Bool} {word rest : List Char}

theorem Halts.takeWhile (h : Halts belongs rest) (all : ∀ c ∈ word, belongs c = true) :
    (word ++ rest).takeWhile belongs = word := by
  rw [List.takeWhile_append_of_pos all]
  cases rest with
  | nil => simp
  | cons c more => simp [h c rfl]

theorem Halts.dropWhile (h : Halts belongs rest) (all : ∀ c ∈ word, belongs c = true) :
    (word ++ rest).dropWhile belongs = rest := by
  rw [List.dropWhile_append_of_pos all]
  cases rest with
  | nil => rfl
  | cons c more => simp [h c rfl]

/-- The characters of white space. -/
def spaces : List Char := [' ', '\t', '\n', '\x0b', '\x0c', '\r']

theorem mem_spaces {c : Char} (h : isSpace c = true) : c ∈ spaces := by
  simpa [isSpace, spaces, or_assoc] using h

/-- A class without white space can be told by looking at the few characters of it. -/
theorem eq_false_of_isSpace (none : spaces.any belongs = false) {c : Char}
    (h : isSpace c = true) : belongs c = false := by
  simpa using List.any_eq_false.mp none c (mem_spaces h)

/-- No other class has white space in it. -/
theorem Parted.halts (h : Parted rest) (none : spaces.any belongs = false) :
    Halts belongs rest := by
  intro c first
  cases h with
  | ending => cases first
  | space isSpace =>
      cases first
      exact eq_false_of_isSpace none isSpace

theorem isSpace_eq_false (belongs : Char → Bool) {c : Char} (h : belongs c = true)
    (none : spaces.any belongs = false) : isSpace c = false := by
  cases space : isSpace c with
  | false => rfl
  | true => exact absurd ((eq_false_of_isSpace none space).symm.trans h) nofun

theorem isDigit_eq_false_of_isNameStart {c : Char} (h : isNameStart c = true) :
    c.isDigit = false := by
  by_cases underscore : c = '_'
  · rw [underscore]
    rfl
  · have alpha : c.isAlpha = (c.isUpper || c.isLower) := rfl
    have upper : c.isUpper = decide (c.val ≥ 'A'.val ∧ c.val ≤ 'Z'.val) := rfl
    have lower : c.isLower = (decide (c.val ≥ 'a'.val) && decide (c.val ≤ 'z'.val)) := rfl
    simp only [isNameStart, underscore, alpha, upper, lower, Char.isDigit] at h ⊢
    grind

/-- A character that begins a name begins nothing else. -/
theorem isNameStart_apart {c : Char} (h : isNameStart c = true) :
    isSpace c = false ∧ c.isDigit = false ∧ c ≠ '.' ∧ c ≠ doubleQuote := by
  have apart : isSpace c = false := isSpace_eq_false isNameStart h (by decide)
  refine ⟨apart, isDigit_eq_false_of_isNameStart h, ?_, ?_⟩
  · intro point
    rw [point] at h
    cases h
  · intro quote
    rw [quote] at h
    cases h

theorem exponentDigits_append (some : word ≠ []) (digits : Digits word)
    (halts : Halts Char.isDigit rest) :
    exponentDigits (word ++ rest) = ⟨Option.some .number, word, rest⟩ := by
  cases word with
  | nil => exact absurd rfl some
  | cons c more =>
      have digit : c.isDigit = true := digits c List.mem_cons_self
      rw [List.cons_append, exponentDigits, if_pos digit, run, ← List.cons_append,
        halts.takeWhile digits, halts.dropWhile digits]

theorem exponentTail_append {sign : List Char} (signed : sign ∈ [[], ['+'], ['-']])
    (some : word ≠ []) (digits : Digits word) (halts : Halts Char.isDigit rest) :
    exponentTail (sign ++ word ++ rest) = ⟨Option.some .number, sign ++ word, rest⟩ := by
  have bare := exponentDigits_append some digits halts
  simp only [List.mem_cons, List.not_mem_nil, or_false] at signed
  rcases signed with rfl | rfl | rfl
  · cases word with
    | nil => exact absurd rfl some
    | cons c more =>
        have digit : c.isDigit = true := digits c List.mem_cons_self
        simp only [List.nil_append, List.cons_append] at bare ⊢
        rw [exponentTail.eq_3, bare]
        · rintro rest' ⟨⟩
          cases digit
        · rintro rest' ⟨⟩
          cases digit
  · simp only [List.cons_append, List.nil_append, exponentTail, bare, Lexeme.after]
  · simp only [List.cons_append, List.nil_append, exponentTail, bare, Lexeme.after]

theorem exponent_append (h : IsExponent word) (parted : Parted rest) :
    exponent (word ++ rest) = ⟨some .number, word, rest⟩ := by
  have halts : Halts Char.isDigit rest := parted.halts (by decide)
  cases h with
  | none =>
      cases parted with
      | ending => rfl
      | @space c more space =>
          have other : ¬ (c = 'e' ∨ c = 'E') := by
            intro letter
            rcases letter with rfl | rfl <;> cases space
          rw [List.nil_append, exponent, if_neg (by simpa using other)]
  | @some letter sign digits listed signed some all =>
      have isLetter : (letter = 'e' || letter = 'E') = true := by simpa using listed
      rw [List.cons_append, exponent, if_pos isLetter, exponentTail_append signed some all halts]
      rfl

/-- What can follow the leading digits of a numeral is no digit. -/
theorem halts_tail {fraction exponent : List Char} (isFraction : IsFraction fraction)
    (isExponent : IsExponent exponent) (parted : Parted rest) :
    Halts Char.isDigit (fraction ++ exponent ++ rest) := by
  cases isFraction with
  | point => rintro _ ⟨⟩; rfl
  | none =>
      cases isExponent with
      | none => exact parted.halts (by decide)
      | some listed =>
          rintro _ ⟨⟩
          simp only [List.mem_cons, List.not_mem_nil, or_false] at listed
          rcases listed with rfl | rfl <;> rfl

theorem fraction_append {front exponent : List Char} (isFraction : IsFraction front)
    (isExponent : IsExponent exponent) (parted : Parted rest) :
    fraction (front ++ exponent ++ rest) = ⟨some .number, front ++ exponent, rest⟩ := by
  have tail := exponent_append isExponent parted
  cases isFraction with
  | none =>
      rw [List.nil_append, fraction.eq_2, tail]
      intro more same
      cases isExponent with
      | none =>
          cases parted with
          | ending => cases same
          | space space =>
              cases same
              cases space
      | some listed =>
          cases same
          revert listed
          decide
  | @point digits all =>
      have halts := halts_tail .none isExponent parted
      rw [List.nil_append] at halts
      rw [List.append_assoc, List.cons_append, fraction, halts.takeWhile all, halts.dropWhile all,
        tail]
      rfl

theorem startsNumber_append (h : IsNumeral word) (rest : List Char) :
    startsNumber (word ++ rest) = true := by
  cases h with
  | @mk whole fraction exponent digits isFraction _ some =>
      cases whole with
      | cons c more =>
          have digit : c.isDigit = true := digits c List.mem_cons_self
          generalize tail : (more ++ fraction ++ exponent ++ rest) = others
          simp only [List.cons_append, tail]
          cases others <;> simp [startsNumber, digit]
      | nil =>
          cases isFraction with
          | none => simp at some
          | @point places all =>
              cases places with
              | nil => simp at some
              | cons d more =>
                  have digit : d.isDigit = true := all d List.mem_cons_self
                  simp [startsNumber, digit]

theorem read_numeral (h : IsNumeral word) (parted : Parted rest) :
    read (word ++ rest) = ⟨some .number, word, rest⟩ := by
  have starts := startsNumber_append h rest
  have found : number (word ++ rest) = ⟨some .number, word, rest⟩ := by
    cases h with
    | mk digits isFraction isExponent _ =>
        have halts := halts_tail isFraction isExponent parted
        have tail := fraction_append isFraction isExponent parted
        rw [List.append_assoc _ _ (_ : List Char), List.append_assoc, ← List.append_assoc _ _ rest,
          number, halts.takeWhile digits, halts.dropWhile digits, tail]
        simp [Lexeme.after]
  generalize word ++ rest = text at starts found ⊢
  cases text with
  | nil => cases starts
  | cons c more =>
      have notSpace : isSpace c = false := by
        cases more with
        | nil => exact isSpace_eq_false Char.isDigit starts (by decide)
        | cons d more =>
            apply isSpace_eq_false (fun c => c.isDigit || c = '.') _ (by decide)
            simp only [startsNumber] at starts
            grind
      simp only [read, notSpace, starts, found, if_true, Bool.false_eq_true, if_false]

theorem stringTail_append (h : IsStringBody word) (rest : List Char) :
    stringTail (word ++ doubleQuote :: rest) =
      ⟨some .string, word ++ [doubleQuote], rest⟩ := by
  induction h with
  | nil =>
      rw [stringTail.eq_def]
      rfl
  | plain notQuote notSlash notFeed _ ih =>
      rw [stringTail.eq_def]
      simp only [List.cons_append, if_neg notQuote, if_neg notFeed, if_neg notSlash, ih]
      rfl
  | escape known _ ih =>
      rw [stringTail.eq_def]
      simp only [List.cons_append, known, if_true, ih]
      rfl

theorem read_word (h : IsWord word) (parted : Parted rest) :
    read (word ++ rest) =
      ⟨some ((Keyword.ofText? (String.ofList word)).elim .name .keyword), word, rest⟩ := by
  have halts : Halts isNamePart rest := parted.halts (by decide)
  cases h with
  | @mk c more start parts =>
      obtain ⟨notSpace, notDigit, notPoint, notQuote⟩ := isNameStart_apart start
      have part := isNamePart_of_isNameStart start
      have all : ∀ d ∈ c :: more, isNamePart d = true := by
        simpa [part] using parts
      have notNumber : startsNumber (c :: more ++ rest) = false := by
        generalize tail : more ++ rest = others
        rw [List.cons_append, tail]
        cases others <;> simp [startsNumber, notDigit, notPoint]
      have found : name (c :: more ++ rest) =
          ⟨some ((Keyword.ofText? (String.ofList (c :: more))).elim .name .keyword), c :: more,
            rest⟩ := by
        rw [name, halts.takeWhile all, halts.dropWhile all]
      rw [List.cons_append] at notNumber found ⊢
      simp only [read, notSpace, notNumber, notQuote, start, found, if_true, Bool.false_eq_true,
        if_false]

theorem isWord_of_all {c : Char} (start : isNameStart c = true)
    (parts : rest.all isNamePart = true) : IsWord (c :: rest) := .mk start (List.all_eq_true.mp parts)

theorem isWord_keyword (keyword : Keyword) : IsWord keyword.text.toList := by
  cases keyword <;> exact isWord_of_all (by decide) (by decide)

theorem ofText?_text (keyword : Keyword) : Keyword.ofText? keyword.text = some keyword := by
  cases keyword <;> decide

theorem read_punctuator (mark : Punctuator) (parted : Parted rest) :
    read (mark.text.toList ++ rest) = ⟨some (.punctuator mark), mark.text.toList, rest⟩ := by
  cases parted with
  | ending => cases mark <;> rfl
  | space space =>
      have listed := mem_spaces space
      simp only [spaces, List.mem_cons, List.not_mem_nil, or_false] at listed
      rcases listed with rfl | rfl | rfl | rfl | rfl | rfl <;> cases mark <;> rfl

/-- A text of a class that is parted from what follows is read as a token of the class. -/
theorem read_of_spells {kind : TokenKind} (h : kind.Spells word) (parted : Parted rest) :
    read (word ++ rest) = ⟨some kind, word, rest⟩ := by
  cases kind with
  | number => exact read_numeral h parted
  | string =>
      obtain ⟨body, rfl, inside⟩ := h
      have found := stringTail_append inside rest
      have tail : body ++ [doubleQuote] ++ rest = body ++ doubleQuote :: rest := by simp
      have notNumber : startsNumber (doubleQuote :: (body ++ doubleQuote :: rest)) = false := by
        cases body <;> rfl
      rw [List.cons_append, tail, read]
      simp only [notNumber, found, if_true, Bool.false_eq_true, if_false]
      rfl
  | name =>
      obtain ⟨word, free⟩ := h
      rw [read_word word parted, free]
      rfl
  | keyword keyword =>
      obtain rfl : word = keyword.text.toList := h
      rw [read_word (isWord_keyword keyword) parted, String.ofList_toList, ofText?_text]
      rfl
  | punctuator mark =>
      obtain rfl : word = mark.text.toList := h
      exact read_punctuator mark parted
  | endOfFile => cases h
  | comment => cases h
  | whiteSpace => cases h

end Finding

end Lexeme

end StackScript
