/-
# Layouts

How a program is laid out does not matter. The tokens of a text stand at different places, so of
any other text with the same words it can be said where each token of the first one has gone to.
Reading does not look at places, and so both texts are read as the same statements, or neither of
them is read. A layout has the words that are laid out, and what can be said of a program without
its places can be said of these.
-/

import Mathlib
import StackScript.Proofs.Syntax.Bare
import StackScript.Proofs.Syntax.Concatenation
import StackScript.Proofs.Token.Scanning
import StackScript.Proofs.Token.Spacing

namespace StackScript

section Bare

variable (move : Location → Location)

mutual

@[simp] theorem Expr.bare_relocate : ∀ value : Expr, (value.relocate move).bare = value.bare
  | .literal _ _ | .reference _ _ => rfl
  | .unary _ _ operand => by simp [Expr.relocate, Expr.bare, operand.bare_relocate]
  | .binary _ _ left right => by
      simp [Expr.relocate, Expr.bare, left.bare_relocate, right.bare_relocate]
  | .call _ _ arguments => by simp [Expr.relocate, Expr.bare, bareArguments_relocate arguments]

@[simp] theorem bareArguments_relocate : ∀ arguments : List Expr,
    bareArguments (relocateArguments move arguments) = bareArguments arguments
  | [] => rfl
  | first :: rest => by
      simp [relocateArguments, bareArguments, first.bare_relocate, bareArguments_relocate rest]

end

mutual

@[simp] theorem Stmt.bare_relocate : ∀ st : Stmt, (st.relocate move).bare = st.bare
  | .expression _ _ | .print _ _ | .declare _ _ _ | .assign _ _ _ => by
      simp [Stmt.relocate, Stmt.bare]
  | .block _ body => by simp [Stmt.relocate, Stmt.bare, bareBody_relocate body]
  | .ifThen _ _ yes => by simp [Stmt.relocate, Stmt.bare, yes.bare_relocate]
  | .ifElse _ _ yes no => by simp [Stmt.relocate, Stmt.bare, yes.bare_relocate, no.bare_relocate]
  | .loop _ _ body => by simp [Stmt.relocate, Stmt.bare, body.bare_relocate]
  | .function _ _ _ _ body => by
      simp [Stmt.relocate, Stmt.bare, bareBody_relocate body, Function.comp_def, Parameter.relocate,
        Parameter.bare]
  | .ret _ _ => by simp [Stmt.relocate, Stmt.bare, Function.comp_def]

@[simp] theorem bareBody_relocate : ∀ body : List Stmt,
    bareBody (relocateBody move body) = bareBody body
  | [] => rfl
  | first :: rest => by
      simp [relocateBody, bareBody, first.bare_relocate, bareBody_relocate rest]

end

end Bare

section Places

variable {file text : String} {front more : List Char} {tokens tokens' : List Token}
  {scanner : Scanner}

/-- Further on in a text the place is another one. -/
theorem Location.eq_nil_of_behind (h : behind file (front ++ more) = behind file front) :
    more = [] := by
  have ⟨_, line, column⟩ := Location.mk.inj h
  have feeds : more.count '\n' = 0 := by
    rw [List.count_append] at line
    omega
  have sameLine : ∀ c ∈ more.reverse, decide (c ≠ '\n') = true := by
    intro c mem
    have other : c ≠ '\n' := fun feed =>
      List.count_eq_zero.mp feeds (feed ▸ List.mem_reverse.mp mem)
    exact decide_eq_true other
  rw [List.reverse_append, List.takeWhile_append_of_pos sameLine, List.length_append,
    List.length_reverse] at column
  exact List.length_eq_zero_iff.mp (by omega)

/-- Tokens with characters, one behind the other, stand at different places. -/
theorem nodup_locations (filled : ∀ token ∈ tokens, token.text ≠ "")
    (places : ∀ before token after, tokens = before ++ token :: after →
      token.location = .behind file (front ++ charsOf before)) :
    (tokens.map Token.location).Nodup := by
  induction tokens generalizing front with
  | nil => exact List.nodup_nil
  | cons token rest ih =>
      have ⟨first, others⟩ := List.forall_mem_cons.mp filled
      have here := places [] token rest rfl
      have further : ∀ before other after, rest = before ++ other :: after →
          other.location = .behind file (front ++ token.text.toList ++ charsOf before) := by
        intro before other after same
        have behind := places (token :: before) other after (congrArg (token :: ·) same)
        rw [charsOf_cons, ← List.append_assoc] at behind
        exact behind
      rw [List.map_cons]
      apply List.nodup_cons.mpr ⟨_, ih others further⟩
      intro mem
      have ⟨other, listed, same⟩ := List.mem_map.mp mem
      have ⟨before, after, split⟩ := List.append_of_mem listed
      rw [further before other after split, here, charsOf_nil, List.append_nil, List.append_assoc]
        at same
      have ⟨empty, _⟩ := List.append_eq_nil_iff.mp (Location.eq_nil_of_behind same)
      exact first (String.toList_eq_nil_iff.mp empty)

theorem TokenStream.nodup_significant (file text : String) :
    ((ofText file text).significant.map Token.location).Nodup := by
  have ⟨tokens, last, given, ending⟩ := Scanner.exists_gives (.start file) text.toList []
  have covers := Scanner.covers_of_gives given
  have same : (ofText file text).tokens = tokens := by
    rcases ending with ⟨_, split⟩ | ⟨_, _, split⟩ <;>
      exact congrArg TokenStream.tokens split
  have all := @nodup_locations file [] tokens covers.filled covers.places
  rw [← same] at all
  exact all.sublist (List.filter_sublist.map _)

/-- Tokens at different places can be moved to where other tokens with the same words are. -/
theorem exists_relocate (apart : (tokens.map Token.location).Nodup)
    (same : wordsOf tokens' = wordsOf tokens) :
    ∃ move, tokens.map (Token.relocate move) = tokens' := by
  induction tokens generalizing tokens' with
  | nil =>
      have none : tokens' = [] := List.map_eq_nil_iff.mp same
      exact ⟨id, none.symm⟩
  | cons token rest ih =>
      have ⟨elsewhere, apart⟩ := List.nodup_cons.mp apart
      have ⟨token', rest', split, kind, text, same⟩ := Alike.uncons same
      have ⟨move, moved⟩ := ih apart same
      refine ⟨Function.update move token.location token'.location, ?_⟩
      have front : token.relocate (Function.update move token.location token'.location) =
          token' := by
        rw [Token.relocate, Function.update_self, ← kind, ← text]
      have behind : rest.map (Token.relocate (Function.update move token.location
          token'.location)) = rest.map (Token.relocate move) := by
        apply List.map_congr_left
        intro other mem
        have distinct : other.location ≠ token.location := fun same =>
          elsewhere (same ▸ List.mem_map_of_mem mem)
        rw [Token.relocate, Function.update_of_ne distinct, Token.relocate]
      rw [List.map_cons, front, behind, moved, split]

end Places

namespace Syntax

variable {file file' text text' : String} {limit : Nat} {body : List Stmt} {words : List Word}

/-- A text with the same words as a program, and no problem, is the same program at other
places. -/
theorem programOf_of_alike (h : programOf limit (TokenStream.ofText file text) = .ok body)
    (fine : (TokenStream.ofText file' text').problem = none)
    (alike : Alike (TokenStream.ofText file' text').significant
      (TokenStream.ofText file text).significant) :
    ∃ move, programOf limit (TokenStream.ofText file' text') =
      .ok (body.map (Stmt.relocate move)) := by
  have ⟨move, moved⟩ := exists_relocate (TokenStream.nodup_significant file text) alike
  have read := sequence_of_statements (statements_of_programOf h)
  have long := congrArg List.length moved
  rw [List.length_map] at long
  have again := read.join move (Nat.lt_succ_self _) (Nat.le_refl _) (show NoElse [] from nofun) .nil
  rw [List.append_nil, List.append_nil, moved, long] at again
  exact ⟨move, programOf_of_sequence fine again⟩

/-- Whether a text without problems is a program, and which one it is up to places, is a matter of
its words. -/
theorem bare_programOf_of_alike (fine : (TokenStream.ofText file text).problem = none)
    (fine' : (TokenStream.ofText file' text').problem = none)
    (alike : Alike (TokenStream.ofText file' text').significant
      (TokenStream.ofText file text).significant) :
    (programOf limit (TokenStream.ofText file' text')).toOption.map bareBody =
      (programOf limit (TokenStream.ofText file text)).toOption.map bareBody := by
  cases read : programOf limit (TokenStream.ofText file text) with
  | ok body =>
      have ⟨move, again⟩ := programOf_of_alike read fine' alike
      have same : bareBody (body.map (Stmt.relocate move)) = bareBody body := by
        rw [← relocateBody_eq, bareBody_relocate]
      rw [again]
      exact congrArg some same
  | error diagnostic =>
      cases read' : programOf limit (TokenStream.ofText file' text') with
      | error _ => rfl
      | ok body' =>
          have ⟨_, again⟩ := programOf_of_alike read' fine alike.symm
          rw [read] at again
          cases again

/-- The tokens of a text are in the classes of their kinds. In the other direction, of words that
are laid out in a text these are found and no problem, and any two layouts of the words are the same
program, or no program, up to places. -/
theorem layout_of_words (file text : String) :
    (∀ token ∈ (TokenStream.ofText file text).tokens, token.kind.Admits token.text.toList) ∧
      ∀ words, Layout words text.toList →
        (TokenStream.ofText file text).problem = none ∧
          wordsOf (TokenStream.ofText file text).significant = words ∧
            ∀ file' text', Layout words text'.toList → ∀ limit,
              (programOf limit (TokenStream.ofText file' text')).toOption.map bareBody =
                (programOf limit (TokenStream.ofText file text)).toOption.map bareBody := by
  refine ⟨TokenStream.ofText_admits file text, ?_⟩
  intro words layout
  have ⟨fine, found⟩ := TokenStream.ofText_of_layout file layout
  refine ⟨fine, found, ?_⟩
  intro file' text' layout' limit
  have ⟨fine', found'⟩ := TokenStream.ofText_of_layout file' layout'
  exact bare_programOf_of_alike fine fine' (found'.trans found.symm)

set_option maxRecDepth 20000 in
/-- Comments in front of the first word, between words, and behind the last one. -/
theorem layout_of_words_commented :
    let words : List Word := [Keyword.kwPrint.word, (.number, ".5"), Punctuator.semicolon.word]
    Layout words "/***/print\t/*\n*/.5\n; //*".toList ∧ Layout words "print .5 ;".toList ∧
      wordsOf (TokenStream.ofText "t" "/***/print\t/*\n*/.5\n; //*").significant = words ∧
        (programOf 10 (TokenStream.ofText "u" "print .5 ;")).toOption.map bareBody =
          (programOf 10 (TokenStream.ofText "t" "/***/print\t/*\n*/.5\n; //*")).toOption.map
            bareBody := by
  intro words
  have none : Lexeme.Digits [] := nofun
  have five : Lexeme.Digits ['5'] := List.all_eq_true.mp rfl
  have number : Word.Spelled (.number, ".5") := .mk none (.point five) .none (.inr (by decide))
  have print : Keyword.kwPrint.word.Spelled := Keyword.word_spelled .kwPrint
  have stop : Punctuator.semicolon.word.Spelled := Punctuator.word_spelled .semicolon
  have blank : Lexeme.isSpace ' ' = true := rfl
  have tab : Lexeme.isSpace '\t' = true := rfl
  have feed : Lexeme.isSpace '\n' = true := rfl
  have star : ¬ ['*', '/'] <:+: ['*'] := by decide
  have empty : ¬ ['*', '/'] <:+: ['\n'] := by decide
  have sameLine : '\n' ∉ ['*'] := by decide
  have commented : Layout words "/***/print\t/*\n*/.5\n; //*".toList :=
    .mk (.block star .nothing) (.word print (.mk tab (.block empty .nothing))
      (.word number (.mk feed .nothing) (.last stop (.line blank .nothing sameLine))))
  have plain : Layout words "print .5 ;".toList :=
    .mk .nothing (.word print (.mk blank .nothing)
      (.word number (.mk blank .nothing) (.last stop .nothing)))
  have ⟨_, found, same⟩ := (layout_of_words "t" "/***/print\t/*\n*/.5\n; //*").2 words commented
  exact ⟨commented, plain, found, same "u" "print .5 ;" plain 10⟩

end Syntax

end StackScript
