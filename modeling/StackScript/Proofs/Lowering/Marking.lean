/-
# Marks

Every instruction that a statement is lowered to is marked with the place of a node of that
statement, in whatever chunk and whatever came before. What is known on the way is which pieces the
code has got and that there is a mark for each of them. Patching a jump that has been written on the
way changes the distance in a piece and neither the offsets nor the marks.
-/

import Mathlib
import StackScript.Lowering.Lowerer
import StackScript.Proofs.Code.Patching
import StackScript.Proofs.Draft.Patch
import StackScript.Proofs.Lowering.History
import StackScript.Proofs.Syntax.Beginnings

namespace StackScript

namespace Code

variable {start offset : Nat} {distance : Int} {pieces : List (Nat × Entry)} {bytes : List UInt8}
  {op : Opcode} {operands : List Int}

/-- A jump whose operand can be written has one distance, which is in range. -/
theorem distance_of_fits (jump : op.isJump) (h : Fits op operands) :
    ∃ old, operands = [old] ∧ OperandKind.i16.Holds old := by
  have ⟨count, written⟩ := h
  rw [operands_of_isJump jump] at count written
  have ⟨old, single⟩ := List.length_eq_one_iff.mp count
  rw [single] at written
  have ⟨bytes, found, _⟩ := operandsBytes_cons written
  refine ⟨old, single, (isWord_iff old).mp ?_⟩
  by_contra wide
  rw [operandBytes, if_neg wide] at found
  cases found

/-- A new distance does not move anything. -/
theorem map_fst_redirect (pieces : List (Nat × Entry)) :
    (pieces.map (redirect offset distance)).map Prod.fst = pieces.map Prod.fst := by
  rw [List.map_map]
  apply List.map_congr_left
  intro piece _
  have ⟨place, entry⟩ := piece
  cases entry <;> rfl

/-- A patched jump is the same piece among others with another distance. -/
theorem Spells.patch {code later : Code} {front : List UInt8} (h : Spells start pieces bytes)
    (whole : code.bytes.toList = front ++ bytes) (begins : front.length = start)
    (mem : (offset, .instruction op operands) ∈ pieces) (jump : op.isJump)
    (patched : code.patch offset distance = .ok later) :
    ∃ bytes', later.bytes.toList = front ++ bytes' ∧
      Spells start (pieces.map (redirect offset distance)) bytes' := by
  have ⟨left, right, split⟩ := List.append_of_mem mem
  rw [split] at h
  have ⟨before, behind, same, place, fits, spellsLeft, spellsRight⟩ := h.split
  have ⟨old, single, held⟩ := distance_of_fits jump fits
  rw [single, Entry.bytes] at same
  rw [same, ← List.append_assoc] at whole
  have there : offset = (front ++ before).length := by rw [List.length_append, begins, place]
  rw [there, patch_jump jump held whole] at patched
  by_cases fits : OperandKind.i16.Holds distance
  · rw [if_pos fits] at patched
    cases patched
    rw [split, single]
    exact ⟨_, List.append_assoc _ _ _, spellsLeft.redirected spellsRight place jump fits⟩
  · rw [if_neg fits] at patched
    cases patched

end Code

/-- What has been added to a chunk: pieces at its end, each with a mark of its own, and only places
that are allowed. -/
structure Chunk.Gains (allowed : Location → Prop) (before later : Chunk)
    (pieces : List (Nat × Code.Entry)) : Prop where
  code : ∃ bytes, later.code.bytes.toList = before.code.bytes.toList ++ bytes ∧
    Code.Spells before.size pieces bytes
  places : ∃ marks, later.places = marks ++ before.places ∧
    marks.map Prod.fst = (pieces.map Prod.fst).reverse ∧ ∀ mark ∈ marks, allowed mark.2

namespace Lower

/-- Is there a jump at an offset among pieces? -/
def JumpAt (pieces : List (Nat × Code.Entry)) (offset : Nat) : Prop :=
  ∃ op operands, (offset, .instruction op operands) ∈ pieces ∧ op.isJump

/-- A lowering has added pieces with marks to a chunk, with jumps at the given offsets. -/
def Marked (allowed : Location → Prop) (before : Chunk) (jumps : List Nat) (s : Lowering) : Prop :=
  ∃ pieces, before.Gains allowed s.chunk pieces ∧ ∀ offset ∈ jumps, JumpAt pieces offset

/-- What holds after a step that has not failed, if something holds before it. -/
def Yields {α : Type} (pre : Lowering → Prop) (x : Lower α) (post : α → Lowering → Prop) : Prop :=
  ∀ s value later, pre s → x s = .ok value later → post value later

/-- A step that keeps to this: what it adds is marked, and the jumps stay where they are. -/
def Marks {α : Type} (allowed : Location → Prop) (before : Chunk) (jumps : List Nat)
    (x : Lower α) : Prop :=
  Yields (Marked allowed before jumps) x fun _ => Marked allowed before jumps

/-- A step that keeps to this and gives the offset of a further jump. -/
def Leads (allowed : Location → Prop) (before : Chunk) (jumps : List Nat) (x : Lower Nat) : Prop :=
  Yields (Marked allowed before jumps) x fun offset => Marked allowed before (offset :: jumps)

variable {α β : Type} {allowed : Location → Prop} {before : Chunk} {jumps : List Nat} {x : Lower α}
  {f : α → Lower β} {s : Lowering} {place : Location} {offset : Nat}

theorem Yields.bind {pre : Lowering → Prop} {mid : α → Lowering → Prop} {post : β → Lowering → Prop}
    (first : Yields pre x mid) (next : ∀ value, Yields (mid value) (f value) post) :
    Yields pre (x >>= f) post := by
  intro s value later holds ran
  rw [show (x >>= f) s = EStateM.bind x f s from rfl, EStateM.bind] at ran
  cases found : x s with
  | ok between after =>
      rw [found] at ran
      exact next between after value later (first s between after holds found) ran
  | error failure after =>
      rw [found] at ran
      cases ran

theorem Marks.bind (first : Marks allowed before jumps x)
    (next : ∀ value, Marks allowed before jumps (f value)) : Marks allowed before jumps (x >>= f) :=
  Yields.bind first next

theorem Yields.throw {pre : Lowering → Prop} {post : α → Lowering → Prop}
    (failure : Chunk.Failure) : Yields pre (throw failure) post := nofun

theorem Yields.refuse {pre : Lowering → Prop} {post : α → Lowering → Prop} (place : Location)
    (cause : Diagnostic.Cause) : Yields pre (Lower.refuse place cause) post := .throw _

/-- A step in front of which there may be a refusal. -/
theorem Yields.unless {pre : Lowering → Prop} {post : β → Lowering → Prop} {y : Lower β}
    (condition : Prop) [Decidable condition] (place : Location) (cause : Diagnostic.Cause)
    (next : Yields pre y post) :
    Yields pre (if condition then Lower.refuse place cause >>= fun _ : α => y else y) post := by
  split
  · exact (Yields.refuse place cause : Yields pre _ fun _ _ => False).bind nofun
  · exact next

/-- What comes in front of the jump. -/
theorem Marks.leads {f : α → Lower Nat} (first : Marks allowed before jumps x)
    (next : ∀ value, Leads allowed before jumps (f value)) : Leads allowed before jumps (x >>= f) :=
  Yields.bind first next

theorem Marked.tail (h : Marked allowed before (offset :: jumps) s) :
    Marked allowed before jumps s :=
  have ⟨pieces, gains, known⟩ := h
  ⟨pieces, gains, (List.forall_mem_cons.mp known).2⟩

/-- What follows a jump knows where it is. -/
theorem Leads.bind {x : Lower Nat} {f : Nat → Lower β} (first : Leads allowed before jumps x)
    (next : ∀ offset, Marks allowed before (offset :: jumps) (f offset)) :
    Marks allowed before jumps (x >>= f) :=
  Yields.bind first fun offset s value later marked ran =>
    (next offset s value later marked ran).tail

/-- Something may follow before the offset is given. -/
theorem Leads.keeping {x : Lower Nat} {f : Nat → Lower Unit} (first : Leads allowed before jumps x)
    (next : ∀ offset, Marks allowed before (offset :: jumps) (f offset)) :
    Leads allowed before jumps (do
      let offset ← x
      f offset
      return offset) :=
  Yields.bind first fun offset => Yields.bind (next offset) fun _ _ _ _ marked ran => by
    cases ran
    exact marked

theorem Marks.pure (value : α) : Marks allowed before jumps (Pure.pure value) := by
  intro s value' later marked ran
  cases ran
  exact marked

/-- A step that adds nothing to the code. -/
theorem Marks.of_code (h : ∀ s value later, x s = .ok value later →
      later.chunk.code = s.chunk.code ∧ later.chunk.places = s.chunk.places) :
    Marks allowed before jumps x := by
  intro s value later marked ran
  have ⟨pieces, gains, known⟩ := marked
  have ⟨code, places⟩ := h s value later ran
  exact ⟨pieces, ⟨code ▸ gains.code, places ▸ gains.places⟩, known⟩

theorem Marks.get : Marks allowed before jumps (MonadState.get : Lower Lowering) := by
  intro s value later marked ran
  cases ran
  exact marked

/-- A step that changes the scope only. -/
theorem Marks.modify (change : Lowering → Option Scope) :
    Marks allowed before jumps (modify fun s => { s with scope := change s }) := by
  apply Marks.of_code
  intro s value later ran
  cases ran
  exact ⟨rfl, rfl⟩

theorem Marks.here : Marks allowed before jumps Lower.here := Marks.get.bind fun _ => .pure _

theorem Marks.slot? (name : String) : Marks allowed before jumps (Lower.slot? name) :=
  Marks.get.bind fun _ => .pure _

theorem Marks.localCount : Marks allowed before jumps Lower.localCount :=
  Marks.get.bind fun _ => .pure _

theorem Marks.deeper (depth : Depth) : Marks allowed before jumps depth.deeper := by
  unfold Depth.deeper
  split
  · exact .refuse _ _
  · exact .pure _

theorem Marks.string (place : Location) (value : String) :
    Marks allowed before jumps (Lower.string place value) := by
  apply Marks.of_code
  intro s id later ran
  unfold Lower.string Chunk.internString at ran
  split at ran
  · rename_i found
    split at found
    · cases found
    · cases found
      cases ran
      exact ⟨rfl, rfl⟩
  · cases ran

theorem Marks.constant (place : Location) (value : Float) :
    Marks allowed before jumps (Lower.constant place value) := by
  apply Marks.of_code
  intro s id later ran
  unfold Lower.constant Chunk.internConstant at ran
  split at ran
  · rename_i found
    split at found
    · cases found
    · cases found
      cases ran
      exact ⟨rfl, rfl⟩
  · cases ran

/-- An instruction is a further piece, and its mark stands in front of the others. -/
theorem gains_append {chunk later : Chunk} {pieces : List (Nat × Code.Entry)} {op : Opcode}
    {operands : List Int} (here : allowed place) (h : before.Gains allowed chunk pieces)
    (appended : chunk.append (some place) op operands = (later, .ok offset)) :
    before.Gains allowed later (pieces ++ [(offset, .instruction op operands)]) := by
  have ⟨fits, same, grown⟩ := Chunk.append_eq_ok.mp appended
  have ⟨bytes, whole, spells⟩ := h.code
  have ⟨marks, places, starts, all⟩ := h.places
  have size : offset = before.size + bytes.length := by
    rw [same, Chunk.size, Code.size, ← Array.length_toList, whole, List.length_append,
      Array.length_toList]
    rfl
  have last : Code.Spells (before.size + bytes.length) [(offset, .instruction op operands)]
      (Code.instructionBytes op operands) := by
    have entry : (Code.Entry.instruction op operands).Fits := fits
    have one := Code.Spells.cons entry (.nil (offset + op.size))
    rw [List.append_nil] at one
    exact size ▸ one
  constructor
  · refine ⟨bytes ++ Code.instructionBytes op operands, ?_, spells.append last⟩
    rw [grown, ← List.append_assoc, ← whole]
    simp
  · refine ⟨(offset, place) :: marks, ?_, ?_, List.forall_mem_cons.mpr ⟨here, all⟩⟩
    · rw [grown, places, same]
      rfl
    · simp [starts]

theorem JumpAt.append {pieces more : List (Nat × Code.Entry)} (h : JumpAt pieces offset) :
    JumpAt (pieces ++ more) offset :=
  have ⟨op, operands, mem, jump⟩ := h
  ⟨op, operands, List.mem_append_left _ mem, jump⟩

theorem chunk_of_append {op : Opcode} {operands : List Int} {later : Lowering}
    (ran : Lower.append place op operands s = .ok offset later) :
    s.chunk.append (some place) op operands = (later.chunk, .ok offset) := by
  have ⟨chunk, scope⟩ := s
  rw [Lower.append] at ran
  cases appended : chunk.append (some place) op operands with
  | mk grown outcome =>
      rw [appended] at ran
      cases outcome with
      | error fault => cases ran
      | ok found =>
          cases ran
          rfl

theorem Marks.append (here : allowed place) (op : Opcode) (operands : List Int) :
    Marks allowed before jumps (Lower.append place op operands) := by
  intro s offset later marked ran
  have ⟨pieces, gains, known⟩ := marked
  exact ⟨_, gains_append here gains (chunk_of_append ran),
    fun offset mem => (known offset mem).append⟩

theorem Marks.emit (here : allowed place) (op : Opcode) (operands : List Int) :
    Marks allowed before jumps (Lower.emit place op operands) :=
  (Marks.append here op operands).bind fun _ => .pure ()

theorem Leads.jump (here : allowed place) {op : Opcode} (jump : op.isJump) :
    Leads allowed before jumps (Lower.jump place op) := by
  intro s offset later marked ran
  have ⟨pieces, gains, known⟩ := marked
  have written : JumpAt (pieces ++ [(offset, .instruction op [Lower.unknownDistance])]) offset :=
    ⟨op, _, List.mem_append_right _ List.mem_cons_self, jump⟩
  exact ⟨_, gains_append here gains (chunk_of_append ran),
    List.forall_mem_cons.mpr ⟨written, fun offset mem => (known offset mem).append⟩⟩

theorem JumpAt.redirect {pieces : List (Nat × Code.Entry)} (h : JumpAt pieces offset)
    (other : Nat) (distance : Int) : JumpAt (pieces.map (Code.redirect other distance)) offset :=
  have ⟨op, _, mem, jump⟩ := h
  ⟨op, _, List.mem_map_of_mem mem, jump⟩

theorem gains_patch {chunk later : Chunk} {pieces : List (Nat × Code.Entry)} {distance : Int}
    {reported : Option Location} (h : before.Gains allowed chunk pieces)
    (given : JumpAt pieces offset) (patched : chunk.patch reported offset distance = .ok later) :
    before.Gains allowed later (pieces.map (Code.redirect offset distance)) := by
  have ⟨op, operands, mem, jump⟩ := given
  have ⟨bytes, whole, spells⟩ := h.code
  have ⟨marks, places, starts, all⟩ := h.places
  rw [Chunk.patch] at patched
  split at patched
  · rename_i code written
    cases patched
    exact ⟨spells.patch whole (Array.length_toList) mem jump written, marks, places,
      starts.trans (congrArg List.reverse (Code.map_fst_redirect pieces).symm), all⟩
  · cases patched
  · cases patched

/-- The distance of a jump that has been written is settled without any change to the marks. -/
theorem Marks.settle (given : offset ∈ jumps) (place : Location) (target : Nat) :
    Marks allowed before jumps (Lower.settle place offset target) := by
  intro s value later marked ran
  have ⟨pieces, gains, known⟩ := marked
  rw [Lower.settle] at ran
  split at ran
  · rename_i chunk patched
    cases ran
    exact ⟨_, gains_patch gains (known offset given) patched,
      fun offset mem => (known offset mem).redirect _ _⟩
  · cases ran

theorem Marks.emitTimes (here : allowed place) (op : Opcode) (count : Nat) :
    Marks allowed before jumps (Lower.emitTimes place op count) := by
  induction count with
  | zero => exact .pure ()
  | succ count ih => exact (Marks.emit here op []).bind fun _ => ih

theorem Marks.declare (here : allowed place) (name : String) :
    Marks allowed before jumps (Lower.declare place name) := by
  apply Marks.get.bind
  intro s
  split
  · exact (Marks.string place name).bind fun _ => .emit here _ _
  · split
    · exact .throw _
    · exact .modify _

theorem Marks.block (here : allowed place) {content : Lower Unit}
    (inner : Marks allowed before jumps content) :
    Marks allowed before jumps (Lower.block place content) := by
  apply Marks.localCount.bind
  intro count
  apply (Marks.modify fun s => s.scope.map .enter).bind
  intro _
  apply inner.bind
  intro _
  apply Marks.localCount.bind
  intro count'
  exact (Marks.emitTimes here _ _).bind fun _ => .modify fun s => s.scope.map .leave

theorem Marks.forM {γ : Type} {items : List γ} {step : γ → Lower Unit}
    (h : ∀ item ∈ items, Marks allowed before jumps (step item)) :
    Marks allowed before jumps (items.forM step) := by
  induction items with
  | nil => exact .pure ()
  | cons first rest ih =>
      have ⟨here, others⟩ := List.forall_mem_cons.mp h
      exact here.bind fun _ => ih others

theorem Marks.enterFunction {parameters : List Parameter}
    (h : ∀ named ∈ parameters, allowed named.location) :
    Marks allowed before jumps (Lower.enterFunction parameters) :=
  (Marks.modify fun _ => _).bind fun _ => .forM fun named mem => .declare (h named mem) _

end Lower

namespace Lowering

open Lower (Marks Leads Yields)

variable {α : Type} {allowed : Location → Prop} {before : Chunk} {jumps : List Nat}
  {place : Location}

/-- The nodes of a tree are at places that are allowed. -/
def Allows (allowed : Location → Prop) (parts : List Part) : Prop :=
  ∀ part ∈ parts, allowed part.place

theorem allows_cons {part : Part} {parts : List Part} :
    Allows allowed (part :: parts) ↔ allowed part.place ∧ Allows allowed parts :=
  List.forall_mem_cons

theorem allows_append {parts others : List Part} :
    Allows allowed (parts ++ others) ↔ Allows allowed parts ∧ Allows allowed others :=
  List.forall_mem_append

theorem literal_marks (here : allowed place) (value : Literal) :
    Marks allowed before jumps (literal place value) := by
  cases value with
  | null => exact .emit here _ _
  | bool value => cases value <;> exact .emit here _ _
  | number value => exact (Marks.constant place value).bind fun _ => .emit here _ _
  | string value => exact (Marks.string place value).bind fun _ => .emit here _ _

theorem reference_marks (here : allowed place) (name : String) :
    Marks allowed before jumps (reference place name) := by
  apply (Marks.slot? name).bind
  intro slot
  cases slot with
  | some slot => exact .emit here _ _
  | none => exact (Marks.string place name).bind fun _ => .emit here _ _

mutual

theorem expression_marks (jumps : List Nat) : ∀ (value : Expr) (depth : Depth),
    Allows allowed value.parts → Marks allowed before jumps (expression depth value)
  | .literal place value, depth, h => by
      rw [expression]
      exact literal_marks (h _ List.mem_cons_self) value
  | .reference place name, depth, h => by
      rw [expression]
      exact reference_marks (h _ List.mem_cons_self) name
  | .unary place op operand, depth, h => by
      rw [Expr.parts, allows_cons] at h
      have ⟨here, inner⟩ := h
      rw [expression]
      apply (Marks.deeper depth).bind
      intro deeper
      exact (expression_marks jumps operand deeper inner).bind fun _ => .emit here _ _
  | .binary place op left right, depth, h => by
      rw [Expr.parts, allows_cons, allows_append] at h
      have ⟨here, inner, inner'⟩ := h
      rw [expression]
      apply (Marks.deeper depth).bind
      intro deeper
      apply (expression_marks jumps left deeper inner).bind
      intro _
      have behind (depth : Depth) : Marks allowed before jumps (do
          expression depth right
          op.opcodes.forM fun opcode => Lower.emit place opcode []) :=
        (expression_marks jumps right depth inner').bind fun _ => .forM fun _ _ => .emit here _ _
      split
      · exact (Marks.pure depth).bind behind
      · exact (Marks.deeper depth).bind behind
  | .call place callee arguments, depth, h => by
      rw [Expr.parts, allows_cons] at h
      have ⟨here, inner⟩ := h
      rw [expression]
      split
      · exact .refuse _ _
      · apply (argumentList_marks jumps arguments depth inner).bind
        intro _
        exact (Marks.string place callee).bind fun _ => .emit here _ _

theorem argumentList_marks (jumps : List Nat) : ∀ (arguments : List Expr) (depth : Depth),
    Allows allowed (argumentParts arguments) →
      Marks allowed before jumps (argumentList depth arguments)
  | [], depth, _ => by
      rw [argumentList]
      exact .pure ()
  | first :: rest, depth, h => by
      rw [argumentParts, allows_append] at h
      have ⟨inner, others⟩ := h
      rw [argumentList]
      apply (Marks.deeper depth).bind
      intro deeper
      apply (expression_marks jumps first deeper inner).bind
      intro _
      exact argumentList_marks jumps rest depth others

end

/-- The head of a function gives the offset of the jump around the body. -/
theorem functionHead_leads {parameters : List Parameter} (here : allowed place)
    (named : ∀ parameter ∈ parameters, allowed parameter.location) (name : String) :
    Leads allowed before jumps (functionHead place name parameters) := by
  unfold functionHead
  apply Marks.get.leads
  intro s
  apply Yields.unless
  split
  · exact .refuse _ _
  · apply (Marks.string place name).leads
    intro id
    apply Marks.here.leads
    intro start
    apply Yields.unless
    apply (Marks.emit here _ _).leads
    intro _
    exact (Leads.jump here rfl).keeping fun _ => .enterFunction named

theorem functionEnd_marks {skip : Nat} (given : skip ∈ jumps) {bodyPlace : Location}
    (here : allowed bodyPlace) (returned : Bool) :
    Marks allowed before jumps (functionEnd place bodyPlace skip returned) := by
  have ending : Marks allowed before jumps (do
      Lower.leaveFunction
      Lower.settle place skip (← Lower.here)) :=
    (Marks.modify fun _ => none).bind fun _ => Marks.here.bind fun target =>
      .settle given place target
  unfold functionEnd
  cases returned with
  | true => exact ending
  | false => exact (Marks.emit here _ _).bind fun _ => (Marks.emit here _ _).bind fun _ => ending

/-- A branch is a block one level further down. -/
theorem branch_marks (here : allowed place) (depth : Depth) {st : Stmt}
    (inner : ∀ depth, Marks allowed before jumps (statement depth st)) :
    Marks allowed before jumps (Lower.block place (do statement (← depth.deeper) st)) :=
  .block here ((Marks.deeper depth).bind inner)

mutual

theorem statement_marks (jumps : List Nat) : ∀ (st : Stmt) (depth : Depth),
    Allows allowed st.parts → Marks allowed before jumps (statement depth st)
  | .expression place value, depth, h => by
      rw [Stmt.parts, allows_cons] at h
      rw [statement]
      exact (expression_marks jumps value depth h.2).bind fun _ => .emit h.1 _ _
  | .print place value, depth, h => by
      rw [Stmt.parts, allows_cons] at h
      rw [statement]
      exact (expression_marks jumps value depth h.2).bind fun _ => .emit h.1 _ _
  | .declare place name value, depth, h => by
      rw [Stmt.parts, allows_cons] at h
      rw [statement]
      exact (expression_marks jumps value depth h.2).bind fun _ => .declare h.1 name
  | .assign place name value, depth, h => by
      rw [Stmt.parts, allows_cons] at h
      have ⟨here, inner⟩ := h
      rw [statement]
      apply (expression_marks jumps value depth inner).bind
      intro _
      apply (Marks.slot? name).bind
      intro slot
      cases slot with
      | some slot => exact .emit here _ _
      | none => exact (Marks.string place name).bind fun _ => .emit here _ _
  | .block place body, depth, h => by
      rw [Stmt.parts, allows_cons] at h
      rw [statement]
      exact .block h.1 (statementList_marks jumps body depth h.2)
  | .ifThen place condition yes, depth, h => by
      rw [Stmt.parts, allows_cons, allows_append] at h
      have ⟨here, test, inner⟩ := h
      rw [statement]
      apply (expression_marks jumps condition depth test).bind
      intro _
      apply (Leads.jump here rfl).bind
      intro skip
      apply (branch_marks here depth fun depth =>
        statement_marks (skip :: jumps) yes depth inner).bind
      intro _
      apply Marks.here.bind
      intro target
      exact .settle List.mem_cons_self place target
  | .ifElse place condition yes no, depth, h => by
      rw [Stmt.parts, allows_cons, allows_append, allows_append] at h
      have ⟨here, test, inner, inner'⟩ := h
      rw [statement]
      apply (expression_marks jumps condition depth test).bind
      intro _
      apply (Leads.jump here rfl).bind
      intro skip
      apply (branch_marks here depth fun depth =>
        statement_marks (skip :: jumps) yes depth inner).bind
      intro _
      apply (Leads.jump here rfl).bind
      intro leave
      apply Marks.here.bind
      intro target
      apply (Marks.settle (List.mem_cons_of_mem _ List.mem_cons_self) place target).bind
      intro _
      apply (branch_marks here depth fun depth =>
        statement_marks (leave :: skip :: jumps) no depth inner').bind
      intro _
      apply Marks.here.bind
      intro target'
      exact .settle List.mem_cons_self place target'
  | .loop place condition body, depth, h => by
      rw [Stmt.parts, allows_cons, allows_append] at h
      have ⟨here, test, inner⟩ := h
      rw [statement]
      apply Marks.here.bind
      intro start
      apply (expression_marks jumps condition depth test).bind
      intro _
      apply (Leads.jump here rfl).bind
      intro leave
      apply (branch_marks here depth fun depth =>
        statement_marks (leave :: jumps) body depth inner).bind
      intro _
      apply (Leads.jump here rfl).bind
      intro again
      apply (Marks.settle List.mem_cons_self place start).bind
      intro _
      apply Marks.here.bind
      intro target
      exact .settle (List.mem_cons_of_mem _ List.mem_cons_self) place target
  | .function place name parameters bodyPlace body, depth, h => by
      rw [Stmt.parts, allows_cons, allows_append, allows_cons] at h
      have ⟨here, named, ending, inner⟩ := h
      have listed : ∀ parameter ∈ parameters, allowed parameter.location :=
        fun parameter mem => named _ (List.mem_map_of_mem mem)
      rw [statement]
      apply (functionHead_leads here listed name).bind
      intro skip
      apply (functionBody_marks (skip :: jumps) body depth inner).bind
      intro returned
      exact functionEnd_marks List.mem_cons_self ending returned
  | .ret place none, depth, h => by
      have here : allowed place := h _ List.mem_cons_self
      have result : Marks allowed before jumps (do
          Lower.emit place .null []
          Lower.emit place .ret []) :=
        (Marks.emit here _ _).bind fun _ => .emit here _ _
      rw [statement]
      exact Marks.get.bind fun s => .unless _ _ _ result
  | .ret place (some value), depth, h => by
      rw [Stmt.parts, allows_cons] at h
      have ⟨here, inner⟩ := h
      have result : Marks allowed before jumps (do
          expression depth value
          Lower.emit place .ret []) :=
        (expression_marks jumps value depth inner).bind fun _ => .emit here _ _
      rw [statement]
      exact Marks.get.bind fun s => .unless _ _ _ result

theorem statementList_marks (jumps : List Nat) : ∀ (body : List Stmt) (depth : Depth),
    Allows allowed (bodyParts body) → Marks allowed before jumps (statementList depth body)
  | [], depth, _ => by
      rw [statementList]
      exact .pure ()
  | first :: rest, depth, h => by
      rw [bodyParts, allows_append] at h
      have ⟨inner, others⟩ := h
      rw [statementList]
      apply (Marks.deeper depth).bind
      intro deeper
      apply (statement_marks jumps first deeper inner).bind
      intro _
      exact statementList_marks jumps rest depth others

theorem functionBody_marks (jumps : List Nat) : ∀ (body : List Stmt) (depth : Depth),
    Allows allowed (bodyParts body) → Marks allowed before jumps (functionBody depth body)
  | [], depth, _ => by
      rw [functionBody]
      exact .pure false
  | first :: rest, depth, h => by
      rw [bodyParts, allows_append] at h
      have ⟨inner, others⟩ := h
      rw [functionBody]
      apply (Marks.deeper depth).bind
      intro deeper
      apply (statement_marks jumps first deeper inner).bind
      intro _
      split
      · exact .pure true
      · exact functionBody_marks jumps rest depth others

end

end Lowering

section Added

variable {allowed : Location → Prop} {chunk later : Chunk} {pieces : List (Nat × Code.Entry)}

/-- Decoding finds the pieces that have been added. -/
theorem Chunk.Gains.decode_eq (h : chunk.Gains allowed later pieces) :
    later.code.decode chunk.size = ⟨pieces, false⟩ := by
  have ⟨bytes, whole, spells⟩ := h.code
  have behind : later.code.bytes.toList.drop chunk.size = bytes := by
    rw [whole]
    exact List.drop_left' (Array.length_toList)
  rw [Code.decode, behind, spells.decodeBytes]

/-- The mark of a piece is found, whatever marks there have been before. -/
theorem Chunk.Gains.locate_mem (h : chunk.Gains allowed later pieces) {offset : Nat}
    {entry : Code.Entry} (mem : (offset, entry) ∈ pieces) :
    ∃ place, later.locate offset = some place ∧ allowed place := by
  have ⟨marks, places, starts, all⟩ := h.places
  have marked : offset ∈ marks.map Prod.fst := by
    rw [starts, List.mem_reverse]
    exact List.mem_map_of_mem mem
  have ⟨mark, listed, same⟩ := List.mem_map.mp marked
  have met : (marks.find? fun mark => (mark.1 : Int) == offset).isSome :=
    List.find?_isSome.mpr ⟨mark, listed, by rw [same]; exact beq_self_eq_true _⟩
  have ⟨found, first⟩ := Option.isSome_iff_exists.mp met
  refine ⟨found.2, ?_, all found (List.mem_of_find?_eq_some first)⟩
  rw [locate, places, List.find?_append, first]
  rfl

/-- What adding a statement adds is marked with places of its nodes. -/
theorem Lowerer.gains_of_add {lowerer next : Lowerer} {limit bytes : Nat} {st : Stmt}
    (added : lowerer.add limit chunk st = (next, later, .ok bytes)) :
    ∃ pieces, chunk.Gains (fun place => ∃ part ∈ st.parts, part.place = place) later pieces := by
  rw [add] at added
  split at added
  · rename_i state ran
    cases added
    have start : Lower.Marked (fun place => ∃ part ∈ st.parts, part.place = place) chunk []
        ⟨chunk, lowerer.scope⟩ := by
      refine ⟨[], ⟨⟨[], (List.append_nil _).symm, .nil _⟩, [], rfl, rfl, nofun⟩, nofun⟩
    have own : Lowering.Allows (fun place => ∃ part ∈ st.parts, part.place = place) st.parts :=
      fun part mem => ⟨part, mem, rfl⟩
    have ⟨pieces, gains, _⟩ := Lowering.statement_marks [] st _ own _ _ _ start ran
    exact ⟨pieces, gains⟩
  · cases added
  · cases added

/-- Nothing is left behind the length that a chunk is cut back to. -/
theorem Chunk.decode_truncate (chunk : Chunk) (length : Nat) :
    (chunk.truncate length).code.decode length = ⟨[], false⟩ := by
  have behind : (chunk.truncate length).code.bytes.toList.drop length = [] := by
    simp [truncate, Code.truncate]
  rw [Code.decode, behind, Code.decodeBytes]

/-- The code of a statement is whole and has marks, and that of a refused one is gone. -/
theorem Lowerer.decode_of_add {lowerer next : Lowerer} {limit : Nat} {st : Stmt}
    {outcome : Except Chunk.Failure Nat}
    (added : lowerer.add limit chunk st = (next, later, outcome))
    (sound : ∀ fault, outcome ≠ .error (.malformed fault)) :
    ∃ pieces, later.code.decode chunk.size = ⟨pieces, false⟩ ∧
      ∀ offset entry, (offset, entry) ∈ pieces →
        ∃ place, later.locate offset = some place ∧ ∃ part ∈ st.parts, part.place = place := by
  cases outcome with
  | ok bytes =>
      have ⟨pieces, gains⟩ := gains_of_add added
      exact ⟨pieces, gains.decode_eq, fun _ _ mem => gains.locate_mem mem⟩
  | error failure =>
      rw [add] at added
      split at added
      · cases added
      · cases added
        exact ⟨[], Chunk.decode_truncate _ _, nofun⟩
      · rename_i unlike _
        cases added
        cases failure with
        | refused diagnostic => exact absurd rfl (unlike diagnostic)
        | malformed fault => exact absurd rfl (sound fault)

end Added

open Syntax in
/-- Every node of a program is at the place of its first token that is no opening parenthesis, and
every instruction that comes of one of its statements is marked with the place of a node of that
statement, whatever lowerer and whatever chunk the statement is given to. A statement that is refused
leaves no instruction; left out are chunks with more in a pool than identifiers can tell apart, where
lowering may break off within an instruction. -/
theorem Syntax.program_located {limit : Nat} {file text : String} {program : List Stmt}
    (read : programOf limit (TokenStream.ofText file text) = .ok program) :
    (∀ part ∈ bodyParts program, Points (TokenStream.ofText file text).significant part) ∧
      ∀ st ∈ program, ∀ (lowerer next : Lowerer) (levels : Nat) (chunk later : Chunk) outcome,
        lowerer.add levels chunk st = (next, later, outcome) →
          (∀ fault, outcome ≠ .error (.malformed fault)) →
            (later.code.decode chunk.size).truncated = false ∧
              ∀ offset entry, (offset, entry) ∈ (later.code.decode chunk.size).entries →
                ∃ part ∈ st.parts, later.locate offset = some part.place := by
  refine ⟨points_of_programOf read, ?_⟩
  intro st _ lowerer next levels chunk later outcome added sound
  have ⟨pieces, decoded, marked⟩ := Lowerer.decode_of_add added sound
  rw [decoded]
  refine ⟨rfl, ?_⟩
  intro offset entry mem
  have ⟨place, found, part, listed, same⟩ := marked offset entry mem
  exact ⟨part, listed, found.trans (congrArg some same.symm)⟩

/-- A sum that begins with parentheses, and a sign in them. -/
def Stmt.signedSum : Stmt :=
  .expression ⟨"t", 1, 2⟩ (.binary ⟨"t", 1, 2⟩ .add
    (.unary ⟨"t", 1, 2⟩ .negate (.reference ⟨"t", 1, 3⟩ "a")) (.reference ⟨"t", 1, 6⟩ "b"))

open Syntax in
set_option maxRecDepth 20000 in
theorem Syntax.program_located_signedSum :
    programOf 10 (TokenStream.ofText "t" "(-a)+b;") = .ok [.signedSum] ∧
      (∀ part ∈ Stmt.signedSum.parts,
        Points (TokenStream.ofText "t" "(-a)+b;").significant part) ∧
        ∃ next later, ({} : Lowerer).add 10 (.empty 256) .signedSum = (next, later, .ok 7) ∧
          ∃ part ∈ Stmt.signedSum.parts, later.locate 5 = some part.place := by
  have read : programOf 10 (TokenStream.ofText "t" "(-a)+b;") = .ok [.signedSum] := by cbv
  have bytes : (({} : Lowerer).add 10 (.empty 256) .signedSum).2 =
      ((({} : Lowerer).add 10 (.empty 256) .signedSum).2.1, .ok 7) :=
    Chunk.eq_ok_of_bytes (by decide +kernel)
  have added : ({} : Lowerer).add 10 (.empty 256) .signedSum =
      ((({} : Lowerer).add 10 (.empty 256) .signedSum).1,
        (({} : Lowerer).add 10 (.empty 256) .signedSum).2.1, .ok 7) := Prod.ext rfl bytes
  obtain ⟨pointed, placed⟩ := program_located read
  have sound (fault : Code.Fault) :
      (Except.ok 7 : Except Chunk.Failure Nat) ≠ .error (.malformed fault) := by simp
  have marked := (placed _ List.mem_cons_self _ _ _ _ _ _ added sound).2
  have listed : (5, Code.Entry.instruction .add []) ∈
      ((({} : Lowerer).add 10 (.empty 256) .signedSum).2.1.code.decode 0).entries := by
    decide +kernel
  refine ⟨read, ?_, _, _, added, marked 5 _ listed⟩
  intro part mem
  exact pointed part (List.mem_append_left _ mem)

end StackScript
