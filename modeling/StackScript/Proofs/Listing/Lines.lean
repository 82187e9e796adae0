/-
# Lines of listings

Every line of a listing can be read back. A reader knows the names of the instructions, but no
pools: it takes the offset up to the colon, the name or the digits of the byte behind that, and the
operands up to the sign that begins a comment. What stands in a comment does not matter, as long as
it has no line end; neither numbers nor quoted texts have one.
-/

import Mathlib
import StackScript.Listing

namespace StackScript

namespace Listing

/-- The value of a hexadecimal digit. -/
def hexValue (c : Char) : Nat :=
  if c.isDigit then c.toNat - '0'.toNat else c.toNat - 'a'.toNat + 10

/-- The byte with these hexadecimal digits. -/
def readByte (digits : List Char) : UInt8 :=
  UInt8.ofNat (digits.foldl (fun value c => 16 * value + hexValue c) 0)

/-- Numbers with commas between them, and blanks anywhere. -/
def readOperands? (text : List Char) : Option (List Int) :=
  let bare := text.filter (· ≠ ' ')
  if bare = [] then some [] else (bare.splitOn ',').mapM fun piece => (String.ofList piece).toInt?

/-- What stands behind the offset: a byte that is no opcode, or a name and operands. -/
def readPiece? (text : List Char) : Option Code.Entry :=
  let word := text.takeWhile (· ≠ ' ')
  let others := (text.dropWhile (· ≠ ' ')).drop 1
  if word = "<unknown".toList then
    some (.unknown (readByte ((others.drop 2).takeWhile (· ≠ '>'))))
  else
    match Opcode.all.find? fun op => op.name.toList = word with
    | none => none
    | some op => (readOperands? (others.takeWhile (· ≠ '#'))).map (.instruction op)

/-- Reads a line of a listing. -/
def readLine? (line : String) : Option (Nat × Code.Entry) := do
  let offset ← (String.ofList (line.toList.takeWhile (· ≠ ':'))).toNat?
  let entry ← readPiece? ((line.toList.dropWhile (· ≠ ':')).drop 2)
  return (offset, entry)

/-- The lines of a text, each of which has an end. -/
def linesOf (text : String) : List String :=
  (text.toList.splitOn '\n').dropLast.map String.ofList

section Until

variable {stop : Char} {front : List Char}

theorem takeWhile_until (h : stop ∉ front) (rest : List Char) :
    (front ++ stop :: rest).takeWhile (· ≠ stop) = front := by
  have others : ∀ c ∈ front, decide (c ≠ stop) = true := by grind
  rw [List.takeWhile_append_of_pos others]
  simp

theorem dropWhile_until (h : stop ∉ front) (rest : List Char) :
    (front ++ stop :: rest).dropWhile (· ≠ stop) = stop :: rest := by
  have others : ∀ c ∈ front, decide (c ≠ stop) = true := by grind
  rw [List.dropWhile_append_of_pos others]
  simp

theorem takeWhile_whole (h : stop ∉ front) : front.takeWhile (· ≠ stop) = front :=
  List.takeWhile_eq_self_iff.mpr (by grind)

theorem dropWhile_whole (h : stop ∉ front) : front.dropWhile (· ≠ stop) = [] :=
  List.dropWhile_eq_nil_iff.mpr (by grind)

end Until

section Characters

/-- A character that is no digit is not in a number. -/
theorem not_mem_repr {c : Char} (other : c.isDigit = false) (n : Nat) : c ∉ n.repr.toList := by
  intro mem
  rw [Nat.toList_repr] at mem
  rw [Nat.isDigit_of_mem_toDigits (by decide) (by decide) mem] at other
  cases other

theorem not_mem_int_repr {c : Char} (other : c.isDigit = false) (noSign : c ≠ '-') (value : Int) :
    c ∉ value.repr.toList := by
  cases value with
  | ofNat n => exact not_mem_repr other n
  | negSucc n =>
      rw [Int.repr, String.toList_append]
      intro mem
      rcases List.mem_append.mp mem with sign | digit
      · exact noSign (by simpa using sign)
      · exact not_mem_repr other _ digit

theorem repr_ne_nil (value : Int) : value.repr.toList ≠ [] := by
  cases value with
  | ofNat n => simp [Int.repr]
  | negSucc n => simp [Int.repr]

theorem feed_not_mem_toDigits {base : Nat} (some : 1 < base) (n : Nat) :
    '\n' ∉ Nat.toDigits base n := by
  have digit (m : Nat) : '\n' ≠ m.digitChar := (Nat.digitChar_ne '\n' rfl).symm
  induction n using Nat.strong_induction_on with
  | _ n ih =>
      rw [Nat.toDigits_eq_if some]
      split
      · simp [digit n]
      · have smaller : n / base < n := Nat.div_lt_self (by omega) some
        rw [List.mem_append, List.mem_singleton]
        exact not_or.mpr ⟨ih _ smaller, digit _⟩

theorem feed_not_mem_leftpad {digits : List Char} (h : '\n' ∉ digits) (width : Nat) :
    '\n' ∉ digits.leftpad width '0' := by
  rw [List.leftpad, List.mem_append, List.mem_replicate]
  exact not_or.mpr ⟨fun pad => absurd pad.2 (by decide), h⟩

theorem feed_not_mem_hexDigits (width n : Nat) : '\n' ∉ Text.hexDigits width n :=
  feed_not_mem_leftpad (feed_not_mem_toDigits (by decide) n) width

/-- A quoted text is on one line, whatever the text is. -/
theorem feed_not_mem_quoted (text : String) : '\n' ∉ (Text.quoted text).toList := by
  have quote : '\n' ≠ Text.quoteFor text.toList := by
    unfold Text.quoteFor
    split <;> decide
  have escaped (c : Char) : '\n' ∉ Text.escapeChar (Text.quoteFor text.toList) c := by
    unfold Text.escapeChar
    have hex := feed_not_mem_hexDigits
    have slash : '\n' ≠ Text.backslash := by decide
    grind
  rw [Text.quoted, String.toList_ofList]
  simp only [List.mem_cons, List.mem_append, List.mem_flatMap, List.not_mem_nil, or_false]
  grind

/-- A number is shown on one line. -/
theorem feed_not_mem_text (value : Float) : '\n' ∉ (Number.text value).toList := by
  have digits := @feed_not_mem_toDigits 10 (by decide)
  have places (width n : Nat) : '\n' ∉ (Number.paddedDigits width n).toList := by
    rw [Number.paddedDigits, String.toList_ofList]
    exact feed_not_mem_leftpad (feed_not_mem_toDigits (by decide) n) width
  unfold Number.text
  split
  · decide
  split
  · split <;> decide
  · rw [Number.Binary.fixed]
    split <;> simp [digits, places]

end Characters

/-- The line of an entry up to the comment. -/
def start (offset : Nat) : Code.Entry → String
  | .unknown byte => toString offset ++ ": <unknown " ++ Text.byteText byte ++ ">"
  | .instruction op operands => toString offset ++ ": " ++ op.name ++ operandText operands

/-- What may stand behind an entry: nothing, or a comment on the same line if the entry is an
instruction. -/
inductive Remark : Code.Entry → String → Prop
  | nothing (entry : Code.Entry) : Remark entry ""
  | comment {op : Opcode} {operands : List Int} {note : String} : '\n' ∉ note.toList →
      Remark (.instruction op operands) (" # " ++ note)

section Reading

variable {op : Opcode} {operands : List Int} {remark : String} {entry : Code.Entry}

/-- Without blanks there are only commas between words. -/
theorem filter_intercalate {words : List (List Char)} (h : ∀ word ∈ words, ' ' ∉ word) :
    ([',', ' '].intercalate words).filter (· ≠ ' ') = [','].intercalate words := by
  have bare {word : List Char} (noBlank : ' ' ∉ word) : word.filter (· ≠ ' ') = word :=
    List.filter_eq_self.mpr (by grind)
  induction words with
  | nil => rfl
  | cons first rest ih =>
      have ⟨noBlank, others⟩ := List.forall_mem_cons.mp h
      cases rest with
      | nil => simpa using bare noBlank
      | cons second rest =>
          rw [List.intercalate_cons_cons, List.intercalate_cons_cons, List.filter_append,
            List.filter_append, bare noBlank, ih others]
          rfl

/-- Whole numbers are read back from their digits. -/
theorem mapM_repr (values : List Int) :
    (values.map fun value => value.repr.toList).mapM
      (fun piece => (String.ofList piece).toInt?) = some values := by
  induction values with
  | nil => rfl
  | cons first rest ih => simp [ih]

theorem toList_operandText (first : Int) (rest : List Int) :
    (operandText (first :: rest)).toList =
      ' ' :: [',', ' '].intercalate ((first :: rest).map fun value => value.repr.toList) := by
  simp [operandText, Function.comp_def]

/-- Operands are read back from their text, whether blanks follow or not. -/
theorem readOperands?_text (operands : List Int) {back : List Char} (blank : ∀ c ∈ back, c = ' ') :
    readOperands? ((operandText operands).toList ++ back) = some operands := by
  have gone : back.filter (· ≠ ' ') = [] := List.filter_eq_nil_iff.mpr (by simpa using blank)
  unfold readOperands?
  rw [List.filter_append, gone, List.append_nil]
  cases operands with
  | nil => rfl
  | cons first rest =>
      have apart {c : Char} (other : c.isDigit = false) (noSign : c ≠ '-') :
          ∀ word ∈ (first :: rest).map fun value => value.repr.toList, c ∉ word := by
        intro word mem
        have ⟨value, _, same⟩ := List.mem_map.mp mem
        exact same ▸ not_mem_int_repr other noSign value
      have bare : (operandText (first :: rest)).toList.filter (· ≠ ' ') =
          [','].intercalate ((first :: rest).map fun value => value.repr.toList) := by
        rw [toList_operandText, List.filter_cons_of_neg (by decide),
          filter_intercalate (apart rfl (by decide))]
      have split := List.splitOn_intercalate ',' (apart rfl (by decide)) (List.cons_ne_nil _ _)
      have filled :
          [','].intercalate ((first :: rest).map fun value => value.repr.toList) ≠ [] := by
        intro empty
        rw [empty] at split
        have ⟨same, _⟩ := List.cons.inj split
        exact repr_ne_nil first same.symm
      dsimp only
      rw [bare, if_neg filled, split, mapM_repr]

theorem readByte_hexDigits (byte : UInt8) : readByte (Text.hexDigits 2 byte.toNat) = byte := by
  have all : ∀ n < 256,
      (Text.hexDigits 2 n).foldl (fun value c => 16 * value + hexValue c) 0 = n := by
    decide +kernel
  rw [readByte, all _ byte.toNat_lt, UInt8.ofNat_toNat]

theorem not_mem_hexDigits (byte : UInt8) : '>' ∉ Text.hexDigits 2 byte.toNat := by
  have all : ∀ n < 256, '>' ∉ Text.hexDigits 2 n := by decide +kernel
  exact all _ byte.toNat_lt

/-- An opcode is found by its name, which is one word. -/
theorem find?_name (op : Opcode) :
    (Opcode.all.find? fun other => other.name.toList = op.name.toList) = some op := by
  cases op <;> rfl

theorem blank_not_mem_name (op : Opcode) : ' ' ∉ op.name.toList := by
  cases op <;> decide

theorem name_ne_unknown (op : Opcode) : op.name.toList ≠ "<unknown".toList := by
  cases op <;> decide

theorem readOperands?_cons_blank (text : List Char) :
    readOperands? (' ' :: text) = readOperands? text := by
  simp [readOperands?]

/-- Behind a name there is a blank, if there is anything. -/
theorem starts_blank (h : Remark (.instruction op operands) remark) :
    (operandText operands ++ remark).toList = [] ∨
      ∃ rest, (operandText operands ++ remark).toList = ' ' :: rest := by
  cases operands with
  | nil =>
      cases h with
      | nothing => exact .inl rfl
      | comment _ => exact .inr ⟨_, by simp [operandText]; rfl⟩
  | cons first rest => exact .inr ⟨_, by simp [operandText]; rfl⟩

theorem not_mem_operandText {c : Char} (other : c.isDigit = false) (noSign : c ∉ "-, ".toList)
    (operands : List Int) : c ∉ (operandText operands).toList := by
  have ⟨minus, comma, blank⟩ : c ≠ '-' ∧ c ≠ ',' ∧ c ≠ ' ' := by simpa using noSign
  have joined : ∀ words : List (List Char), (∀ word ∈ words, c ∉ word) →
      c ∉ [',', ' '].intercalate words := by
    intro words apart
    induction words with
    | nil => exact List.not_mem_nil
    | cons first rest ih =>
        have ⟨notFirst, others⟩ := List.forall_mem_cons.mp apart
        cases rest with
        | nil => simpa using notFirst
        | cons second rest =>
            rw [List.intercalate_cons_cons]
            simp [notFirst, comma, blank, ih others]
  cases operands with
  | nil => exact List.not_mem_nil
  | cons first rest =>
      rw [toList_operandText]
      intro mem
      rcases List.mem_cons.mp mem with same | mem
      · exact blank same
      · apply joined _ _ mem
        intro word listed
        have ⟨value, _, same⟩ := List.mem_map.mp listed
        exact same ▸ not_mem_int_repr other minus value

/-- The operands of an instruction are read back, whatever the comment says. -/
theorem readOperands?_line (h : Remark (.instruction op operands) remark) :
    readOperands? (((operandText operands ++ remark).toList.drop 1).takeWhile (· ≠ '#')) =
      some operands := by
  have apart := not_mem_operandText (c := '#') rfl (by decide) operands
  have front : readOperands? ((operandText operands ++ remark).toList.takeWhile (· ≠ '#')) =
      some operands := by
    rw [String.toList_append]
    cases h with
    | nothing =>
        have read := @readOperands?_text operands [] nofun
        rw [List.append_nil] at read
        rw [String.toList_empty, List.append_nil, takeWhile_whole apart, read]
    | @comment _ _ note _ =>
        have noHash : '#' ∉ (operandText operands).toList ++ [' '] := by simp [apart]
        have whole : (operandText operands).toList ++ (" # " ++ note).toList =
            (operandText operands).toList ++ [' '] ++ '#' :: ' ' :: note.toList := by simp
        rw [whole, takeWhile_until noHash]
        exact readOperands?_text operands (by simp)
  rw [← front]
  rcases starts_blank h with empty | ⟨rest, same⟩
  · rw [empty]
    rfl
  · rw [same, List.drop_succ_cons, List.drop_zero, List.takeWhile_cons_of_pos (by decide),
      readOperands?_cons_blank]

theorem readPiece?_unknown (byte : UInt8) :
    readPiece? ("<unknown " ++ Text.byteText byte ++ ">").toList = some (.unknown byte) := by
  have text : ("<unknown " ++ Text.byteText byte ++ ">").toList =
      "<unknown".toList ++ ' ' :: '0' :: 'x' :: (Text.hexDigits 2 byte.toNat ++ ['>']) := by
    simp [Text.byteText]
  have word : ' ' ∉ "<unknown".toList := by decide
  rw [readPiece?, text, takeWhile_until word, dropWhile_until word]
  simp only [if_true, List.drop_succ_cons, List.drop_zero]
  rw [takeWhile_until (not_mem_hexDigits byte), readByte_hexDigits]

theorem readPiece?_instruction (h : Remark (.instruction op operands) remark) :
    readPiece? (op.name ++ (operandText operands ++ remark)).toList =
      some (.instruction op operands) := by
  have word := blank_not_mem_name op
  have parts : ((op.name ++ (operandText operands ++ remark)).toList.takeWhile (· ≠ ' ') =
        op.name.toList) ∧
      ((op.name ++ (operandText operands ++ remark)).toList.dropWhile (· ≠ ' ') =
        (operandText operands ++ remark).toList) := by
    rw [String.toList_append]
    rcases starts_blank h with empty | ⟨rest, same⟩
    · rw [empty, List.append_nil]
      exact ⟨takeWhile_whole word, dropWhile_whole word⟩
    · rw [same]
      exact ⟨takeWhile_until word rest, dropWhile_until word rest⟩
  rw [readPiece?, parts.1, parts.2, if_neg (name_ne_unknown op), find?_name, readOperands?_line h]
  rfl

/-- A line is read back as the offset and the entry that it was made of, whatever the comment
says. -/
theorem readLine?_start (offset : Nat) (h : Remark entry remark) :
    readLine? (start offset entry ++ remark) = some (offset, entry) := by
  have line (body : String) : readLine? (toString offset ++ ": " ++ body) =
      (readPiece? body.toList).map fun entry => (offset, entry) := by
    have noColon : ':' ∉ offset.repr.toList := not_mem_repr rfl offset
    have text : (toString offset ++ ": " ++ body).toList =
        offset.repr.toList ++ ':' :: ' ' :: body.toList := by simp
    rw [readLine?, text, takeWhile_until noColon, dropWhile_until noColon, String.ofList_toList,
      Nat.toNat?_repr, List.drop_succ_cons, List.drop_succ_cons, List.drop_zero]
    cases readPiece? body.toList <;> rfl
  cases entry with
  | unknown byte =>
      cases h with
      | nothing =>
          have whole : start offset (.unknown byte) ++ "" =
              toString offset ++ ": " ++ ("<unknown " ++ Text.byteText byte ++ ">") := by
            simp [start, ← String.toList_inj]
          rw [whole, line, readPiece?_unknown]
          rfl
  | instruction op operands =>
      have whole : start offset (.instruction op operands) ++ remark =
          toString offset ++ ": " ++ (op.name ++ (operandText operands ++ remark)) := by
        simp [start, ← String.toList_inj]
      rw [whole, line, readPiece?_instruction h]
      rfl

/-- There is no line end in a line. -/
theorem feed_not_mem_line (offset : Nat) (h : Remark entry remark) :
    '\n' ∉ (start offset entry ++ remark).toList := by
  have digits : '\n' ∉ offset.repr.toList := not_mem_repr rfl offset
  have noFeed : '\n' ∉ remark.toList := by
    cases h with
    | nothing => exact List.not_mem_nil
    | comment noFeed => simpa using noFeed
  cases entry with
  | unknown byte =>
      have byte := feed_not_mem_hexDigits 2 byte.toNat
      simp only [start, Text.byteText, String.toList_append, Nat.toString_eq_repr]
      simp [-Nat.toList_repr, digits, byte, noFeed]
  | instruction op operands =>
      have name : '\n' ∉ op.name.toList := by cases op <;> decide
      have listed : '\n' ∉ (operandText operands).toList :=
        not_mem_operandText rfl (by decide) operands
      simp only [start, String.toList_append, Nat.toString_eq_repr]
      simp [-Nat.toList_repr, digits, name, listed, noFeed]

end Reading

end Listing

end StackScript
