/-
# Whole listings

The text of a listing tells what the code is. Its lines are those of the decoded pieces, one for
each and in their order, and the pieces that are read back from them come to the bytes of the code
again. A listing breaks off exactly where an instruction is incomplete or refers to an entry that
its pool does not have, with all the lines before it; in the code of a program it never does.
-/

import Mathlib
import StackScript.Proofs.Code.Tiling
import StackScript.Proofs.Listing.Lines
import StackScript.Proofs.Machine.Safety

namespace StackScript

namespace Listing

/-- The code that a listing shows. -/
def codeOf? (text : String) : Option Code :=
  ((linesOf text).mapM readLine?).bind fun pieces =>
    (Code.empty.addAll (pieces.map Prod.snd)).toOption

/-- What stands behind an entry, if its pool has what it refers to. -/
def remark? (chunk : Chunk) (offset : Nat) : Code.Entry → Option String
  | .unknown _ => some ""
  | .instruction op operands => comment? chunk (meaning offset op operands)

/-- The complete line of a decoded piece. -/
def line? (chunk : Chunk) (piece : Nat × Code.Entry) : Option String :=
  (remark? chunk piece.1 piece.2).map fun remark => start piece.1 piece.2 ++ remark

/-- A complete line of a piece, from which the piece can be read back. -/
structure LineOf (chunk : Chunk) (line : String) (piece : Nat × Code.Entry) : Prop where
  complete : line? chunk piece = some line
  back : readLine? line = some piece

/-- Does an entry refer to something behind the end of its pool? -/
inductive RefersPast (chunk : Chunk) : Code.Entry → Prop
  | constant {id : Int} {others : List Int} : chunk.constants.size ≤ id →
      RefersPast chunk (.instruction .const (id :: others))
  | string {op : Opcode} {id : Int} {others : List Int} :
      op ∈ [.str, .setGlobal, .getGlobal, .func, .invoke] → chunk.strings.size ≤ id →
        RefersPast chunk (.instruction op (id :: others))

variable {chunk : Chunk} {offset : Nat} {entry : Code.Entry} {remark : String}
  {pieces : List (Nat × Code.Entry)} {lines : List String}

theorem remark_of_remark? (h : remark? chunk offset entry = some remark) : Remark entry remark := by
  cases entry with
  | unknown byte =>
      cases h
      exact .nothing _
  | instruction op operands =>
      rw [remark?] at h
      cases found : meaning offset op operands with
      | plain =>
          rw [found] at h
          cases h
          exact .nothing _
      | constant id =>
          rw [found] at h
          have ⟨value, _, same⟩ := Option.map_eq_some_iff.mp h
          exact same ▸ .comment (feed_not_mem_text value)
      | string id =>
          rw [found] at h
          have ⟨value, _, same⟩ := Option.map_eq_some_iff.mp h
          exact same ▸ .comment (feed_not_mem_quoted value)
      | target target =>
          rw [found] at h
          have same : " # " ++ ("-> " ++ toString target) = remark := by
            rw [← Option.some.inj h, ← String.append_assoc]
            rfl
          have noFeed : '\n' ∉ target.repr.toList := not_mem_int_repr rfl (by decide) target
          exact same ▸ .comment (by simpa using noFeed)

theorem lineOf_of_line? {line : String} {piece : Nat × Code.Entry}
    (h : line? chunk piece = some line) : LineOf chunk line piece ∧ '\n' ∉ line.toList := by
  have ⟨remark, found, same⟩ := Option.map_eq_some_iff.mp h
  have isRemark := remark_of_remark? found
  subst same
  exact ⟨⟨h, readLine?_start piece.1 isRemark⟩, feed_not_mem_line piece.1 isRemark⟩

/-- Lines that end are found in their text, whether another one has been begun or not. -/
theorem linesOf_text (h : ∀ line ∈ lines, '\n' ∉ line.toList) {last : String}
    (noFeed : '\n' ∉ last.toList) :
    linesOf (String.join (lines.map fun line => line ++ "\n") ++ last) = lines := by
  unfold linesOf
  induction lines with
  | nil => simp [List.splitOn_eq_singleton noFeed]
  | cons first rest ih =>
      have ⟨apart, others⟩ := List.forall_mem_cons.mp h
      have text : (String.join ((first :: rest).map fun line => line ++ "\n") ++ last).toList =
          first.toList ++ '\n' ::
            (String.join (rest.map fun line => line ++ "\n") ++ last).toList := by simp
      rw [text, List.splitOn_append_cons_self_of_not_mem apart,
        List.dropLast_cons_of_ne_nil (List.splitOn_ne_nil _ _), List.map_cons, ih others,
        String.ofList_toList]

/-- How a listing comes about: lines for the pieces up to the end, or up to one that refers to
nothing. -/
theorem ofEntries_spec (chunk : Chunk) (truncated : Bool) (pieces : List (Nat × Code.Entry)) :
    ∃ front rest, pieces = front ++ rest ∧
      List.Forall₂ (fun line piece => line? chunk piece = some line)
        (ofEntries chunk truncated pieces).lines front ∧
      (rest = [] ∧ (ofEntries chunk truncated pieces).unfinished = "" ∧
          (ofEntries chunk truncated pieces).failure =
            (if truncated then some .truncated else none) ∨
        ∃ piece more, rest = piece :: more ∧ remark? chunk piece.1 piece.2 = none ∧
          (ofEntries chunk truncated pieces).unfinished = start piece.1 piece.2 ∧
            (ofEntries chunk truncated pieces).failure = some .entryNotFound) := by
  induction pieces with
  | nil => exact ⟨[], [], rfl, .nil, .inl ⟨rfl, rfl, rfl⟩⟩
  | cons piece pieces ih =>
      have ⟨offset, entry⟩ := piece
      cases found : remark? chunk offset entry with
      | none =>
          cases entry with
          | unknown byte => cases found
          | instruction op operands =>
              have shown :
                  ofEntries chunk truncated ((offset, .instruction op operands) :: pieces) =
                    ⟨[], start offset (.instruction op operands), some .entryNotFound⟩ := by
                rw [ofEntries, show comment? chunk (meaning offset op operands) = none from found]
                rfl
              rw [shown]
              exact ⟨[], _, rfl, .nil, .inr ⟨_, pieces, rfl, found, rfl, rfl⟩⟩
      | some remark =>
          have shown : ofEntries chunk truncated ((offset, entry) :: pieces) =
              (ofEntries chunk truncated pieces).after (start offset entry ++ remark) := by
            cases entry with
            | unknown byte =>
                cases found
                rw [ofEntries, String.append_empty]
                rfl
            | instruction op operands =>
                rw [ofEntries,
                  show comment? chunk (meaning offset op operands) = some remark from found]
                rfl
          have ⟨front, rest, split, lines, ending⟩ := ih
          have line : line? chunk (offset, entry) = some (start offset entry ++ remark) := by
            rw [line?, found]
            rfl
          rw [shown]
          exact ⟨(offset, entry) :: front, rest, congrArg _ split, .cons line lines, ending⟩

theorem get?_eq_none {α : Type} {pool : Pool α} {id : Int} (natural : 0 ≤ id) :
    pool.get? id = none ↔ pool.size ≤ id := by
  rw [Pool.get?, if_pos natural, Array.getElem?_eq_none_iff, Pool.size]
  omega

/-- Where a single byte tells which entry it is, it is none before the first one. -/
theorem natural_of_fits {op : Opcode} {id : Int} {others : List Int} {kinds : List OperandKind}
    (fits : Code.Fits op (id :: others)) (byte : op.operands = .u8 :: kinds) : 0 ≤ id := by
  have written := fits.2
  rw [byte] at written
  have ⟨bytes, first, _, _⟩ := Code.operandsBytes_cons written
  have ⟨value, _, same⟩ := Code.operandBytes_u8 first
  omega

/-- There is no line for an entry exactly if it refers to nothing. -/
theorem remark?_eq_none (fits : entry.Fits) :
    remark? chunk offset entry = none ↔ RefersPast chunk entry := by
  cases entry with
  | unknown byte => exact ⟨nofun, nofun⟩
  | instruction op operands =>
      cases operands with
      | nil =>
          have plain : remark? chunk offset (.instruction op []) = some "" := by cases op <;> rfl
          rw [plain]
          exact ⟨nofun, nofun⟩
      | cons id others =>
          by_cases constant : op = .const
          · subst constant
            have shown : remark? chunk offset (.instruction .const (id :: others)) =
                (chunk.constants.get? id).map fun value => " # " ++ Number.text value := rfl
            rw [shown, Option.map_eq_none_iff, get?_eq_none (natural_of_fits fits rfl)]
            constructor
            · exact .constant
            · intro past
              cases past with
              | constant past => exact past
              | string listed => exact absurd listed (by decide)
          by_cases string : op ∈ [.str, .setGlobal, .getGlobal, .func, .invoke]
          · have natural : 0 ≤ id := by
              cases op <;> first | exact natural_of_fits fits rfl | exact absurd string (by decide)
            have shown : remark? chunk offset (.instruction op (id :: others)) =
                (chunk.strings.get? id).map fun value => " # " ++ Text.quoted value := by
              cases op <;> first | rfl | exact absurd string (by decide)
            rw [shown, Option.map_eq_none_iff, get?_eq_none natural]
            constructor
            · exact .string string
            · intro past
              cases past with
              | constant => exact absurd rfl constant
              | string _ past => exact past
          · have shown : remark? chunk offset (.instruction op (id :: others)) ≠ none := by
              cases op <;> first
                | exact Option.some_ne_none _
                | exact absurd rfl constant
                | exact absurd (by decide) string
            apply iff_of_false shown
            intro past
            cases past with
            | constant => exact constant rfl
            | string listed => exact string listed

/-- What the text of a listing tells about a chunk. -/
structure Tells (chunk : Chunk) (listing : Listing) : Prop where
  /-- A listing that does not break off has a line for every piece, and shows all of the code. -/
  whole : listing.failure = none → listing.unfinished = "" ∧
    List.Forall₂ (LineOf chunk) (linesOf listing.text) (chunk.code.decode 0).entries ∧
      codeOf? listing.text = some chunk.code
  /-- One that breaks off has lines for the pieces in front, and begins another one at most. -/
  broken : listing.failure ≠ none → ∃ front rest, (chunk.code.decode 0).entries = front ++ rest ∧
    List.Forall₂ (LineOf chunk) (linesOf listing.text) front ∧
      (rest = [] ∧ (chunk.code.decode 0).truncated = true ∧ listing.unfinished = "" ∨
        ∃ piece more, rest = piece :: more ∧ RefersPast chunk piece.2 ∧
          listing.unfinished = start piece.1 piece.2)
  /-- It breaks off exactly for one of these reasons. -/
  breaks : listing.failure ≠ none ↔ (chunk.code.decode 0).truncated = true ∨
    ∃ piece ∈ (chunk.code.decode 0).entries, RefersPast chunk piece.2

theorem mapM_readLine? (h : List.Forall₂ (LineOf chunk) lines pieces) :
    lines.mapM readLine? = some pieces := by
  induction h with
  | nil => rfl
  | cons line _ ih => simp [line.back, ih]

/-- The lines of a listing, as they are found in its text. -/
theorem linesOf_listing {listing : Listing}
    (shown : List.Forall₂ (fun line piece => line? chunk piece = some line) listing.lines pieces)
    (unfinished : '\n' ∉ listing.unfinished.toList) :
    List.Forall₂ (LineOf chunk) (linesOf listing.text) pieces := by
  have clean : ∀ line ∈ listing.lines, '\n' ∉ line.toList := by
    intro line mem
    have ⟨piece, _, found⟩ := Chunk.exists_counterpart shown mem
    exact (lineOf_of_line? found).2
  rw [text, linesOf_text clean unfinished]
  exact shown.imp fun _ _ found => (lineOf_of_line? found).1

/-- The pieces that code is decoded to are found again in their bytes. -/
theorem fits_of_mem {code : Code} {piece : Nat × Code.Entry}
    (mem : piece ∈ (code.decode 0).entries) : piece.2.Fits := by
  obtain ⟨bytes, _, _, spells, _⟩ := Code.decodeBytes_splits 0 (code.bytes.toList.drop 0)
  obtain ⟨front, more, split⟩ := List.append_of_mem mem
  rw [← Code.decode, split] at spells
  obtain ⟨_, _, _, _, fits, _⟩ := spells.split
  exact fits

/-- Code that decoding gets to the end of comes about again from its pieces. -/
theorem addAll_of_decode {code : Code} (complete : (code.decode 0).truncated = false) :
    Code.empty.addAll ((code.decode 0).entries.map Prod.snd) = .ok code := by
  have ⟨bytes, tail, whole, spells, ending⟩ := Code.decodeBytes_splits 0 (code.bytes.toList.drop 0)
  rw [← Code.decode] at spells ending
  rw [complete] at ending
  have none : tail = [] := ending
  rw [none, List.append_nil, List.drop_zero] at whole
  rw [spells.addAll, whole]
  simp [Code.empty]

theorem tells_ofChunk (chunk : Chunk) : Tells chunk (ofChunk chunk) := by
  have ⟨front, rest, split, shown, ending⟩ :=
    ofEntries_spec chunk (chunk.code.decode 0).truncated (chunk.code.decode 0).entries
  rw [← ofChunk.eq_1] at shown ending
  rcases ending with ⟨none, unfinished, failure⟩ | ⟨piece, more, same, lacking, unfinished, failure⟩
  · have lines := linesOf_listing shown (by rw [unfinished]; exact List.not_mem_nil)
    rw [none, List.append_nil] at split
    have intact : ∀ piece ∈ (chunk.code.decode 0).entries, ¬ RefersPast chunk piece.2 := by
      intro piece mem past
      rw [split] at mem
      have ⟨line, _, found⟩ := Chunk.exists_counterpart shown.flip mem
      rw [line?, (remark?_eq_none (fits_of_mem (split ▸ mem))).mpr past] at found
      cases found
    cases truncated : (chunk.code.decode 0).truncated with
    | false =>
        rw [truncated] at failure
        have fine : (ofChunk chunk).failure = Option.none := failure
        refine ⟨fun _ => ⟨unfinished, split ▸ lines, ?_⟩, fun broken => absurd fine broken, ?_⟩
        · rw [codeOf?, mapM_readLine? lines, Option.bind_some, ← split,
            addAll_of_decode truncated]
          rfl
        · rw [truncated]
          exact iff_of_false (not_not.mpr fine) (not_or.mpr ⟨nofun, fun ⟨piece, mem, past⟩ =>
            intact piece mem past⟩)
    | true =>
        rw [truncated] at failure
        have broken : (ofChunk chunk).failure ≠ Option.none := by
          rw [failure]
          exact Option.some_ne_none _
        exact ⟨fun fine => absurd fine broken,
          fun _ => ⟨front, [], by rw [split, List.append_nil], lines,
            .inl ⟨rfl, truncated, unfinished⟩⟩,
          iff_of_true broken (.inl truncated)⟩
  · have noFeed := feed_not_mem_line piece.1 (.nothing piece.2)
    rw [String.append_empty, ← unfinished] at noFeed
    have lines := linesOf_listing shown noFeed
    have mem : piece ∈ (chunk.code.decode 0).entries := by
      rw [split, same]
      exact List.mem_append_right _ List.mem_cons_self
    have past := (remark?_eq_none (fits_of_mem mem)).mp lacking
    have broken : (ofChunk chunk).failure ≠ none := by
      rw [failure]
      exact Option.some_ne_none _
    exact ⟨fun fine => absurd fine broken,
      fun _ => ⟨front, rest, split, lines, .inr ⟨piece, more, same, past, unfinished⟩⟩,
      iff_of_true broken (.inr ⟨piece, mem, past⟩)⟩

/-- The listing of a draft does not break off. -/
theorem failure_of_assembled {lines : List Line} (h : chunk.Assembled lines) :
    (ofChunk chunk).failure = none := by
  by_contra broken
  rcases (tells_ofChunk chunk).breaks.mp broken with truncated | ⟨⟨offset, entry⟩, mem, past⟩
  · rw [h.complete] at truncated
    cases truncated
  · have ⟨line, _, operands, same, resolves⟩ := h.line_of_mem mem
    have instruction : entry = .instruction line.instr.op operands := same
    rw [instruction] at past
    generalize named : line.instr.op = op at past
    cases past with
    | constant past =>
        have ⟨id, listed, small⟩ := Chunk.Assembled.names_constant named resolves
        cases listed
        omega
    | string naming past =>
        have ⟨id, others, listed, small⟩ :=
          Chunk.Assembled.names_string (named ▸ naming) resolves
        cases listed
        omega

/-- The disassembly determines the code. Every listing has a line for each piece up to its end or
to the piece that it breaks off at, it breaks off only for a reason, and what a whole listing shows
is the code of the chunk. The listing of a program is whole. -/
theorem ofChunk_determines :
    (∀ chunk, Tells chunk (ofChunk chunk)) ∧
      ∀ poolSize chunk ranges limit program whole bytes, poolSize ≤ Chunk.maxPoolSize →
        Chunk.Built poolSize chunk ranges →
          chunk.addProgram limit program = (whole, .ok bytes) →
            (ofChunk whole).failure = none := by
  refine ⟨tells_ofChunk, ?_⟩
  intro poolSize chunk ranges limit program whole bytes small built added
  have ⟨body, _, assembled, _⟩ := built.whole small added
  exact failure_of_assembled assembled

/-- A string with a line end and the beginning of another line in it, a byte that is no opcode, and
a jump; and the call of a function. -/
theorem ofChunk_determines_feigned :
    let chunk : Chunk :=
      ⟨⟨#[13, 0, 200, 22, 255, 253]⟩, .empty 1, ⟨1, #["# ,\n0: EXIT"]⟩, []⟩
    (ofChunk chunk).failure = none ∧ codeOf? (ofChunk chunk).text = some chunk.code ∧
      ∃ whole, (Chunk.empty 256).addProgram 10 Node.callIdentity = (whole, .ok 16) ∧
        (ofChunk whole).failure = none := by
  intro chunk
  have fine : (ofChunk chunk).failure = none := by decide +kernel
  have added : (Chunk.empty 256).addProgram 10 Node.callIdentity =
      (((Chunk.empty 256).addProgram 10 Node.callIdentity).1, .ok 16) :=
    Chunk.eq_ok_of_bytes (by decide +kernel)
  have ⟨_, _, back⟩ := (ofChunk_determines.1 chunk).whole fine
  exact ⟨fine, back, _, added,
    ofChunk_determines.2 256 _ _ 10 _ _ 16 (by decide) .empty added⟩

end Listing

end StackScript
