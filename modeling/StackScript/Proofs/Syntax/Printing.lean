/-
# Writing programs

Every tree that the language can express has a text. Expressions are written with parentheses only
where an operand binds less tightly than its place asks for, and strings with a backslash only in
front of quotes and backslashes and for line feeds. What is read from the text is the tree that
was written, up to places.

Two trees that the grammar cannot tell apart have to be kept apart by their writer: a conditional
with an alternative is not written around one that ends open, for the `else` would belong to the
inner one.
-/

import StackScript.Proofs.Syntax.Bare
import StackScript.Proofs.Syntax.Completeness

namespace StackScript

open Text (backslash doubleQuote)

namespace StringLiteral

/-- How a character is written between quotes. -/
def escape (c : Char) : List Char :=
  if c = doubleQuote then [backslash, doubleQuote]
  else if c = backslash then [backslash, backslash]
  else if c = '\n' then [backslash, 'n']
  else [c]

/-- How a string is written, quotes included. -/
def quote (text : String) : String :=
  String.ofList (doubleQuote :: (text.toList.flatMap escape ++ [doubleQuote]))

/-- A character is written so that its meaning is the character. -/
theorem unescape_escape (c : Char) (rest : List Char) :
    unescape (escape c ++ rest) = c :: unescape rest := by
  unfold escape
  by_cases quoted : c = doubleQuote
  · rw [if_pos quoted, quoted]
    rfl
  by_cases slash : c = backslash
  · rw [if_neg quoted, if_pos slash, slash]
    rfl
  by_cases feed : c = '\n'
  · rw [if_neg quoted, if_neg slash, if_pos feed, feed]
    rfl
  rw [if_neg quoted, if_neg slash, if_neg feed]
  exact unescape_cons slash rest

theorem unescape_flatMap_escape (text : List Char) : unescape (text.flatMap escape) = text := by
  induction text with
  | nil => rfl
  | cons c rest ih => rw [List.flatMap_cons, unescape_escape, ih]

theorem value_quote (text : String) : value (quote text) = text := by
  rw [value, quote, String.toList_ofList, List.drop_succ_cons, List.drop_zero,
    List.dropLast_concat, unescape_flatMap_escape, String.ofList_toList]

theorem isStringBody_escape (c : Char) {rest : List Char} (h : Lexeme.IsStringBody rest) :
    Lexeme.IsStringBody (escape c ++ rest) := by
  unfold escape
  by_cases quoted : c = doubleQuote
  · rw [if_pos quoted]
    exact .escape rfl h
  by_cases slash : c = backslash
  · rw [if_neg quoted, if_pos slash]
    exact .escape rfl h
  by_cases feed : c = '\n'
  · rw [if_neg quoted, if_neg slash, if_pos feed]
    exact .escape rfl h
  rw [if_neg quoted, if_neg slash, if_neg feed]
  exact .plain quoted slash feed h

theorem isStringBody_flatMap_escape (text : List Char) :
    Lexeme.IsStringBody (text.flatMap escape) := by
  induction text with
  | nil => exact .nil
  | cons c rest ih => exact isStringBody_escape c ih

end StringLiteral

/-- Which numeral a number is written as, which may depend on where it stands. -/
abbrev Spelling : Type := Location → Float → String

/-- How a literal is written. -/
def Literal.word (spell : Spelling) (place : Location) : Literal → Word
  | .null => Keyword.kwNull.word
  | .bool true => Keyword.kwTrue.word
  | .bool false => Keyword.kwFalse.word
  | .number value => (.number, spell place value)
  | .string value => (.string, StringLiteral.quote value)

/-- Lists of words in parentheses, with a comma between any two. -/
def inParentheses (lists : List (List Word)) : List Word :=
  Punctuator.leftParen.word :: List.intercalate [Punctuator.comma.word] lists ++
    [Punctuator.rightParen.word]

section Writing

variable (spell : Spelling)

mutual

/-- How an expression is written where one of some tightness is asked for. -/
def Expr.words : Expr → Nat → List Word
  | .literal place value, _ => [value.word spell place]
  | .reference _ name, _ => [nameWord name]
  | .unary _ op operand, _ => op.mark.word :: operand.words 5
  | .binary _ op left right, asked =>
    let plain := left.words op.tightness ++ op.mark.word :: right.words (op.tightness + 1)
    if op.tightness < asked then
      Punctuator.leftParen.word :: plain ++ [Punctuator.rightParen.word]
    else plain
  | .call _ callee arguments, _ => nameWord callee :: inParentheses (argumentWords arguments)

/-- How arguments are written, one by one. -/
def argumentWords : List Expr → List (List Word)
  | [] => []
  | first :: rest => first.words 1 :: argumentWords rest

end

/-- How a condition is written. -/
def conditionWords (condition : Expr) : List Word := inParentheses [condition.words spell 1]

mutual

/-- How a statement is written. -/
def Stmt.words : Stmt → List Word
  | .expression _ value => value.words spell 1 ++ [Punctuator.semicolon.word]
  | .print _ value => Keyword.kwPrint.word :: value.words spell 1 ++ [Punctuator.semicolon.word]
  | .declare _ name value =>
    Keyword.kwLet.word :: nameWord name :: Punctuator.equal.word :: value.words spell 1 ++
      [Punctuator.semicolon.word]
  | .assign _ name value =>
    nameWord name :: Punctuator.equal.word :: value.words spell 1 ++ [Punctuator.semicolon.word]
  | .block _ body =>
    Punctuator.leftBrace.word :: bodyWords body ++ [Punctuator.rightBrace.word]
  | .ifThen _ condition yes =>
    Keyword.kwIf.word :: conditionWords spell condition ++ yes.words
  | .ifElse _ condition yes no =>
    Keyword.kwIf.word :: conditionWords spell condition ++ yes.words ++
      Keyword.kwElse.word :: no.words
  | .loop _ condition body =>
    Keyword.kwWhile.word :: conditionWords spell condition ++ body.words
  | .function _ name parameters _ body =>
    Keyword.kwFn.word :: nameWord name ::
      inParentheses (parameters.map fun parameter => [nameWord parameter.name]) ++
        Punctuator.leftBrace.word :: bodyWords body ++ [Punctuator.rightBrace.word]
  | .ret _ none => [Keyword.kwReturn.word, Punctuator.semicolon.word]
  | .ret _ (some value) =>
    Keyword.kwReturn.word :: value.words spell 1 ++ [Punctuator.semicolon.word]

/-- How statements are written, one after the other. -/
def bodyWords : List Stmt → List Word
  | [] => []
  | first :: rest => first.words ++ bodyWords rest

end

/-- The text of a program. -/
def written (body : List Stmt) : String := layOut (bodyWords spell body)

/-- Names can be written if they are words and not reserved. -/
def IsName (name : String) : Prop := (nameWord name).Spelled

/-- A number can be written if its spelling is a numeral of that value; other literals always
can. -/
def Literal.Writable (place : Location) : Literal → Prop
  | .number value => TokenKind.number.Spells (spell place value).toList ∧
      (Number.Numeral.ofText (spell place value).toList).value = value
  | _ => True

mutual

/-- The names and numbers of an expression can be written. -/
def Expr.Writable : Expr → Prop
  | .literal place value => value.Writable spell place
  | .reference _ name => IsName name
  | .unary _ _ operand => operand.Writable
  | .binary _ _ left right => left.Writable ∧ right.Writable
  | .call _ callee arguments => IsName callee ∧ argumentsWritable arguments

/-- The names and numbers of arguments can be written. -/
def argumentsWritable : List Expr → Prop
  | [] => True
  | first :: rest => first.Writable ∧ argumentsWritable rest

end

mutual

/-- The names and numbers of a statement can be written, and no `else` is written behind a
statement that ends in a conditional without one. -/
def Stmt.Writable : Stmt → Prop
  | .expression _ value | .print _ value | .ret _ (some value) => value.Writable spell
  | .declare _ name value | .assign _ name value => IsName name ∧ value.Writable spell
  | .block _ body => bodyWritable body
  | .ifThen _ condition yes => condition.Writable spell ∧ yes.Writable
  | .ifElse _ condition yes no =>
    condition.Writable spell ∧ yes.Writable ∧ yes.endsOpen = false ∧ no.Writable
  | .loop _ condition body => condition.Writable spell ∧ body.Writable
  | .function _ name parameters _ body =>
    IsName name ∧ (∀ parameter ∈ parameters, IsName parameter.name) ∧ bodyWritable body
  | .ret _ none => True

/-- The statements of a list can be written. -/
def bodyWritable : List Stmt → Prop
  | [] => True
  | first :: rest => first.Writable ∧ bodyWritable rest

end

section Words

variable {spell : Spelling}

theorem Literal.word_spelled {place : Location} {value : Literal}
    (h : value.Writable spell place) : (value.word spell place).Spelled := by
  cases value with
  | null => exact Keyword.word_spelled .kwNull
  | bool value =>
      cases value with
      | false => exact Keyword.word_spelled .kwFalse
      | true => exact Keyword.word_spelled .kwTrue
  | number value => exact h.1
  | string value =>
      refine ⟨value.toList.flatMap StringLiteral.escape, ?_,
        StringLiteral.isStringBody_flatMap_escape _⟩
      exact String.toList_ofList

theorem inParentheses_spelled {lists : List (List Word)} (h : ∀ words ∈ lists, AllSpelled words) :
    AllSpelled (inParentheses lists) := by
  have inside : AllSpelled (List.intercalate [Punctuator.comma.word] lists) := by
    induction lists with
    | nil => exact allSpelled_nil
    | cons first rest ih =>
        rw [List.forall_mem_cons] at h
        cases rest with
        | nil => simpa using h.1
        | cons second others =>
            rw [List.intercalate_cons_cons]
            simpa using ⟨h.1, ih h.2⟩
  simpa [inParentheses] using inside

mutual

theorem Expr.words_spelled : ∀ (value : Expr) {asked : Nat}, value.Writable spell →
    AllSpelled (value.words spell asked)
  | .literal _ _, _, h => by simpa [Expr.words] using Literal.word_spelled h
  | .reference _ _, _, h => allSpelled_cons.mpr ⟨h, allSpelled_nil⟩
  | .unary _ op operand, _, h => by simpa [Expr.words] using operand.words_spelled h
  | .binary _ op left right, asked, h => by
      have left : AllSpelled (left.words spell op.tightness) := left.words_spelled h.1
      have right : AllSpelled (right.words spell (op.tightness + 1)) := right.words_spelled h.2
      simp only [Expr.words]
      split <;> simp [left, right]
  | .call _ _ arguments, _, h => by
      simpa [Expr.words] using ⟨h.1, inParentheses_spelled (argumentWords_spelled arguments h.2)⟩

theorem argumentWords_spelled : ∀ arguments : List Expr, argumentsWritable spell arguments →
    ∀ words ∈ argumentWords spell arguments, AllSpelled words
  | [], _ => nofun
  | first :: rest, h => by
      rw [argumentWords, List.forall_mem_cons]
      exact ⟨first.words_spelled h.1, argumentWords_spelled rest h.2⟩

end

theorem conditionWords_spelled {condition : Expr} (h : condition.Writable spell) :
    AllSpelled (conditionWords spell condition) :=
  inParentheses_spelled (List.forall_mem_singleton.mpr (condition.words_spelled h))

mutual

/-- A statement that can be written is written in words of their classes. -/
theorem Stmt.words_spelled : ∀ st : Stmt, st.Writable spell → AllSpelled (st.words spell)
  | .expression _ value, h | .print _ value, h | .ret _ (some value), h => by
      simpa [Stmt.words] using value.words_spelled h
  | .declare _ name value, h | .assign _ name value, h => by
      simpa [Stmt.words] using ⟨h.1, value.words_spelled h.2⟩
  | .block _ body, h => by simpa [Stmt.words] using bodyWords_spelled body h
  | .ifThen _ _ yes, h => by
      simpa [Stmt.words] using ⟨conditionWords_spelled h.1, yes.words_spelled h.2⟩
  | .ifElse _ _ yes no, h => by
      simpa [Stmt.words] using
        ⟨conditionWords_spelled h.1, yes.words_spelled h.2.1, no.words_spelled h.2.2.2⟩
  | .loop _ _ body, h => by
      simpa [Stmt.words] using ⟨conditionWords_spelled h.1, body.words_spelled h.2⟩
  | .function _ name parameters _ body, h => by
      have names : ∀ words ∈ parameters.map fun parameter => [nameWord parameter.name],
          AllSpelled words := by
        intro words mem
        obtain ⟨parameter, listed, rfl⟩ := List.mem_map.mp mem
        exact allSpelled_cons.mpr ⟨h.2.1 parameter listed, allSpelled_nil⟩
      simpa [Stmt.words] using
        ⟨h.1, inParentheses_spelled names, bodyWords_spelled body h.2.2⟩
  | .ret _ none, _ => by simp [Stmt.words]

theorem bodyWords_spelled : ∀ body : List Stmt, bodyWritable spell body →
    AllSpelled (bodyWords spell body)
  | [], _ => allSpelled_nil
  | first :: rest, h => by
      rw [bodyWords, allSpelled_append]
      exact ⟨first.words_spelled h.1, bodyWords_spelled rest h.2⟩

end

end Words

end Writing

section Deriving

open Syntax (Derives mem_unaryMarks mem_binaryMarks)

variable {spell : Spelling}

theorem Literal.derives_word {place : Location} {value : Literal} (h : value.Writable spell place) :
    Derives (.operand (.literal default value)) (tokensOf [value.word spell place]) := by
  apply @Derives.literal (value.word spell place).token
  cases value with
  | null => rfl
  | bool value => cases value <;> rfl
  | number value => exact congrArg (fun number => some (Literal.number number)) h.2
  | string value =>
      exact congrArg (fun text => some (Literal.string text)) (StringLiteral.value_quote value)

theorem derives_arguments {values : List Expr} {words : List (List Word)}
    (empty : values = [] → words = [])
    (h : values ≠ [] →
      Derives (.items values) (tokensOf (List.intercalate [Punctuator.comma.word] words))) :
    Derives (.arguments values) (tokensOf (inParentheses words)) := by
  by_cases none : values = []
  · rw [none, empty none]
    exact .noArguments rfl rfl
  · simp only [inParentheses, tokensOf_cons, tokensOf_append, tokensOf_nil]
    exact .arguments rfl (h none) rfl

mutual

/-- What is written for an expression where one of some tightness is asked for is one of that
tightness. -/
theorem Expr.derives_words : ∀ (value : Expr) {asked : Nat}, asked ≤ 5 →
    value.Writable spell → Derives (.layer asked value.bare) (tokensOf (value.words spell asked))
  | .literal _ _, _, le, h => .loosened le (le_refl 5) (Literal.derives_word h)
  | .reference _ name, _, le, _ =>
      .loosened le (le_refl 5) (@Derives.reference (nameWord name).token rfl)
  | .unary _ op operand, _, le, h =>
      .loosened le (le_refl 5) (@Derives.unary op.mark.word.token _ _ _ _ (mem_unaryMarks.mpr rfl)
        rfl (operand.derives_words (le_refl 5) h))
  | .binary _ op left right, asked, le, h => by
      have tight : op.tightness ≤ 4 := by cases op <;> decide
      have plain : Derives (.layer op.tightness (Expr.binary default op left right).bare)
          (tokensOf (left.words spell op.tightness ++ op.mark.word ::
            right.words spell (op.tightness + 1))) := by
        rw [tokensOf_append, tokensOf_cons, Expr.bare, ← left.location_bare]
        exact .binary (mem_binaryMarks.mpr ⟨rfl, rfl⟩) (left.derives_words (by omega) h.1) rfl
          (right.derives_words (by omega) h.2)
      simp only [Expr.words]
      by_cases loose : op.tightness < asked
      · rw [if_pos loose]
        apply Derives.loosened le (le_refl 5)
        rw [List.cons_append, tokensOf_cons, tokensOf_append]
        have positive : 1 ≤ op.tightness := by cases op <;> decide
        exact .parentheses rfl (plain.loosened positive (by omega)) rfl
      · rw [if_neg loose]
        exact plain.loosened (by omega) (by omega)
  | .call _ callee arguments, _, le, h => by
      apply Derives.loosened le (le_refl 5)
      rw [Expr.words, tokensOf_cons]
      apply @Derives.call (nameWord callee).token _ _ rfl
      apply derives_arguments
      · intro none
        cases arguments with
        | nil => rfl
        | cons => cases none
      · exact fun _ => argumentWords_derive arguments h.2 (by rintro rfl; contradiction)

theorem argumentWords_derive : ∀ arguments : List Expr, argumentsWritable spell arguments →
    arguments ≠ [] → Derives (.items (bareArguments arguments))
      (tokensOf (List.intercalate [Punctuator.comma.word] (argumentWords spell arguments)))
  | [], _, filled => absurd rfl filled
  | [last], h, _ => by
      rw [argumentWords, argumentWords, List.intercalate_singleton]
      exact .item (last.derives_words (by decide) h.1)
  | first :: second :: rest, h, _ => by
      rw [argumentWords, argumentWords, List.intercalate_cons_cons, List.append_assoc,
        tokensOf_append, List.singleton_append, tokensOf_cons]
      exact .moreItems (first.derives_words (by decide) h.1) rfl
        (argumentWords_derive (second :: rest) h.2 nofun)

end

theorem names_derive : ∀ listed : List Parameter, listed ≠ [] →
    Derives (.names (listed.map Parameter.bare))
      (tokensOf (List.intercalate [Punctuator.comma.word]
        (listed.map fun parameter => [nameWord parameter.name])))
  | [], filled => absurd rfl filled
  | [last], _ => @Derives.name (nameWord last.name).token rfl
  | first :: second :: rest, _ => by
      simp only [List.map_cons, List.intercalate_cons_cons]
      exact @Derives.moreNames (nameWord first.name).token Punctuator.comma.word.token _ _ rfl rfl
        (names_derive (second :: rest) nofun)

theorem parameters_derive (listed : List Parameter) :
    Derives (.parameters (listed.map Parameter.bare))
      (tokensOf (inParentheses (listed.map fun parameter => [nameWord parameter.name]))) := by
  by_cases none : listed = []
  · rw [none]
    exact @Derives.noParameters Punctuator.leftParen.word.token Punctuator.rightParen.word.token
      rfl rfl
  · simp only [inParentheses, tokensOf_cons, tokensOf_append, tokensOf_nil]
    exact .parameters rfl (names_derive listed none) rfl

theorem conditionWords_eq (condition : Expr) :
    tokensOf (conditionWords spell condition) = Punctuator.leftParen.word.token ::
      tokensOf (condition.words spell 1) ++ [Punctuator.rightParen.word.token] := by
  rw [conditionWords, inParentheses, List.intercalate_singleton]
  simp

mutual

/-- What is written for a statement is the statement, up to places. -/
theorem Stmt.derives_words : ∀ st : Stmt, st.Writable spell →
    Derives (.statement st.bare) (tokensOf (st.words spell))
  | .expression _ value, h => by
      rw [Stmt.words, Stmt.bare, tokensOf_append, ← value.location_bare]
      exact .expression (value.derives_words (by decide) h) rfl
  | .print _ value, h => by
      rw [Stmt.words, tokensOf_append]
      exact @Derives.print Keyword.kwPrint.word.token _ _ _ rfl (value.derives_words (by decide) h)
        rfl
  | .declare _ name value, h => by
      rw [Stmt.words, tokensOf_append]
      exact @Derives.declare Keyword.kwLet.word.token (nameWord name).token _ _ _ _ rfl rfl rfl
        (value.derives_words (by decide) h.2) rfl
  | .assign _ name value, h => by
      rw [Stmt.words, tokensOf_append]
      exact @Derives.assign (nameWord name).token _ _ _ _ rfl rfl
        (value.derives_words (by decide) h.2) rfl
  | .block _ body, h => by
      rw [Stmt.words, tokensOf_append]
      exact @Derives.block Punctuator.leftBrace.word.token _ _ _ rfl (bodyWords_derive body h) rfl
  | .ifThen _ condition yes, h => by
      have test : Derives (.expression condition.bare) (tokensOf (condition.words spell 1)) :=
        condition.derives_words (by decide) h.1
      rw [Stmt.words, List.cons_append, tokensOf_cons, tokensOf_append, conditionWords_eq]
      simpa [Stmt.bare] using @Derives.ifThen Keyword.kwIf.word.token Punctuator.leftParen.word.token
        Punctuator.rightParen.word.token _ _ _ _ rfl rfl test rfl (yes.derives_words h.2)
  | .ifElse _ condition yes no, h => by
      have test : Derives (.expression condition.bare) (tokensOf (condition.words spell 1)) :=
        condition.derives_words (by decide) h.1
      have closed : yes.bare.endsOpen = false := yes.endsOpen_bare.trans h.2.2.1
      rw [Stmt.words, tokensOf_append, List.cons_append, tokensOf_cons, tokensOf_append,
        conditionWords_eq]
      simpa [Stmt.bare] using @Derives.ifElse Keyword.kwIf.word.token Punctuator.leftParen.word.token
        Punctuator.rightParen.word.token Keyword.kwElse.word.token _ _ _ _ _ _ rfl rfl test rfl
        (yes.derives_words h.2.1) closed rfl (no.derives_words h.2.2.2)
  | .loop _ condition body, h => by
      have test : Derives (.expression condition.bare) (tokensOf (condition.words spell 1)) :=
        condition.derives_words (by decide) h.1
      rw [Stmt.words, List.cons_append, tokensOf_cons, tokensOf_append, conditionWords_eq]
      simpa [Stmt.bare] using @Derives.loop Keyword.kwWhile.word.token Punctuator.leftParen.word.token
        Punctuator.rightParen.word.token _ _ _ _ rfl rfl test rfl (body.derives_words h.2)
  | .function _ name parameters _ body, h => by
      rw [Stmt.words]
      simpa [Stmt.bare] using @Derives.function Keyword.kwFn.word.token (nameWord name).token
        Punctuator.leftBrace.word.token Punctuator.rightBrace.word.token _ _ _ _ rfl rfl
        (parameters_derive parameters) rfl (bodyWords_derive body h.2.2) rfl
  | .ret _ none, _ =>
      @Derives.returnNothing Keyword.kwReturn.word.token Punctuator.semicolon.word.token rfl rfl
  | .ret _ (some value), h => by
      rw [Stmt.words, tokensOf_append]
      exact @Derives.returnValue Keyword.kwReturn.word.token _ _ _ rfl
        (value.derives_words (by decide) h) rfl

theorem bodyWords_derive : ∀ body : List Stmt, bodyWritable spell body →
    Derives (.statements (bareBody body)) (tokensOf (bodyWords spell body))
  | [], _ => .nothing
  | first :: rest, h => by
      rw [bodyWords, tokensOf_append]
      exact .statements (first.derives_words h.1) (bodyWords_derive rest h.2)

end

/-- Whatever text has the words of a program, and nothing wrong with it, is read as the program. -/
theorem reads_bodyWords {body : List Stmt} (h : bodyWritable spell body) {stream : TokenStream}
    (fine : stream.problem = none) (same : wordsOf stream.significant = bodyWords spell body)
    {limit : Nat} (deep : (bodyWords spell body).length < limit) :
    ∃ found, Syntax.programOf limit stream = .ok found ∧
      found.map Stmt.bare = body.map Stmt.bare := by
  have alike : Alike stream.significant (tokensOf (bodyWords spell body)) := by
    rw [Alike, same, wordsOf_tokensOf]
  obtain ⟨found, derived, bare⟩ := (bodyWords_derive body h).respelled alike
  rw [bareBody_bare, bareBody_eq, bareBody_eq] at bare
  have length : stream.significant.length = (bodyWords spell body).length := by
    rw [← same, wordsOf, List.length_map]
  obtain ⟨tokens, stop, problem⟩ := stream
  cases fine
  exact ⟨found, Syntax.programOf_of_derives derived (length ▸ deep), bare⟩

/-- What is read from the text of a program is the program, up to places. The limit on nesting
does not matter if it exceeds the number of words. -/
theorem programOf_written (spell : Spelling) (body : List Stmt) (h : bodyWritable spell body)
    (file : String) (limit : Nat) (deep : (bodyWords spell body).length < limit) :
    ∃ found, Syntax.programOf limit (TokenStream.ofText file (written spell body)) = .ok found ∧
      found.map Stmt.bare = body.map Stmt.bare := by
  obtain ⟨fine, same⟩ := TokenStream.ofText_layOut file (bodyWords_spelled body h)
  exact reads_bodyWords h fine same deep

/-- A program whose text needs parentheses on both sides of an operator, a block that keeps an
`else` from an inner conditional, and all the escapes. -/
def intricate : List Stmt :=
  let a : Expr := .reference default "a"
  let b : Expr := .reference default "b"
  let half : Expr := .literal default (.number (Number.Numeral.ofText ".5e+0".toList).value)
  let text : Expr := .literal default (.string "\"\\\n\x00\u00e9")
  [.function default "f" [⟨default, "a"⟩, ⟨default, "b"⟩] default
      [.ret default (some (.binary default .multiply
        (.unary default .negate (.binary default .subtract a (.binary default .subtract b half)))
        (.binary default .add (.binary default .subtract a b) half)))],
    .ifElse default (.binary default .less a (.binary default .equal a b))
      (.block default [.ifThen default (.call default "f" [a, half]) (.assign default "a" half)])
      (.ifThen default (.literal default .null) (.print default text))]

theorem programOf_written_intricate :
    let spell : Spelling := fun _ _ => ".5e+0"
    bodyWritable spell intricate ∧
      ∃ found, Syntax.programOf 500 (TokenStream.ofText "" (written spell intricate)) = .ok found ∧
        found.map Stmt.bare = intricate.map Stmt.bare := by
  intro spell
  have a : IsName "a" := ⟨Lexeme.isWord_of_all (by decide) (by decide), by decide⟩
  have b : IsName "b" := ⟨Lexeme.isWord_of_all (by decide) (by decide), by decide⟩
  have f : IsName "f" := ⟨Lexeme.isWord_of_all (by decide) (by decide), by decide⟩
  have half : Lexeme.IsNumeral ['.', '5', 'e', '+', '0'] :=
    @Lexeme.IsNumeral.mk [] ['.', '5'] ['e', '+', '0'] nofun (.point (by simp [Lexeme.Digits]))
      (@Lexeme.IsExponent.some 'e' ['+'] ['0'] (by decide) (by decide) nofun
        (by simp [Lexeme.Digits]))
      (.inr (le_refl 2))
  have writable : bodyWritable spell intricate := by
    simp [spell, intricate, bodyWritable, Stmt.Writable, Expr.Writable, argumentsWritable,
      Literal.Writable, Stmt.endsOpen, TokenKind.Spells, a, b, f, half]
  exact ⟨writable, programOf_written spell intricate writable "" 500 (by decide)⟩

end Deriving

end StackScript
