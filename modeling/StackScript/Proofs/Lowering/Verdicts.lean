/-
# Verdicts on lowering

What comes of a step of a lowering, in any chunk. Either nothing is wrong with its part of the
program, and a given condition holds after it. Or it is refused, for the first thing that is wrong
with its part or because a limit stands in the way. Steps that follow each other have what is wrong
with the first before what is wrong with the second, since the first to be refused ends them all.
-/

import StackScript.Proofs.Draft.Patch
import StackScript.Proofs.Lowering.Scoping
import StackScript.Proofs.Lowering.Sizes

namespace StackScript

/-- Is a cause a limit of the code format or of the nesting, and nothing wrong with the names of a
program? -/
def Diagnostic.Cause.isLimit : Diagnostic.Cause → Bool
  | constantPoolTooLarge | stringPoolTooLarge | jumpTooLarge | functionTooFar _
  | nestingTooDeep => true
  | _ => false

/-- The limits that a lowering may come upon. Jumps reach too far or functions start too late only
under given conditions. -/
inductive Lower.Stops (overlong late : Prop) : Chunk.Failure → Prop
  | malformed (fault : Code.Fault) : Stops overlong late (.malformed fault)
  | constants (place : Option Location) :
      Stops overlong late (.refused ⟨place, .constantPoolTooLarge⟩)
  | strings (place : Option Location) :
      Stops overlong late (.refused ⟨place, .stringPoolTooLarge⟩)
  | nesting (place : Option Location) : Stops overlong late (.refused ⟨place, .nestingTooDeep⟩)
  | jump (place : Option Location) : overlong →
      Stops overlong late (.refused ⟨place, .jumpTooLarge⟩)
  | start (place : Option Location) (name : String) : late →
      Stops overlong late (.refused ⟨place, .functionTooFar name⟩)

/-- What can come of a step if the given things are wrong with its part of the program. -/
def Lower.Comes {α : Type} (overlong late : Prop) (faults : List Diagnostic)
    (post : α → Lowering → Prop) : EStateM.Result Chunk.Failure Lowering α → Prop
  | .ok value later => faults = [] ∧ post value later
  | .error failure _ => Lower.Stops overlong late failure ∨
      ∃ diagnostic, faults.head? = some diagnostic ∧ failure = .refused diagnostic ∧
        diagnostic.cause.isLimit = false

/-- The verdict on a step that starts in a given state. -/
structure Lower.Judged {α : Type} (overlong late : Prop) (x : Lower α) (s : Lowering)
    (faults : List Diagnostic) (post : α → Lowering → Prop) : Prop where
  outcome : Lower.Comes overlong late faults post (x s)

namespace Lower.Judged

variable {α β : Type} {overlong late : Prop} {x : Lower α} {s : Lowering}
  {faults more : List Diagnostic} {post : α → Lowering → Prop}

theorem pure {value : α} (h : post value s) : Judged overlong late (pure value) s [] post :=
  ⟨rfl, h⟩

/-- Steps that follow each other. -/
theorem bind {mid : α → Lowering → Prop} {f : α → Lower β} {post : β → Lowering → Prop}
    (first : Judged overlong late x s faults mid)
    (next : ∀ value later, mid value later → Judged overlong late (f value) later more post) :
    Judged overlong late (x >>= f) s (faults ++ more) post := by
  constructor
  have outcome := first.outcome
  rw [show (x >>= f) s = EStateM.bind x f s from rfl, EStateM.bind]
  cases found : x s with
  | ok value later =>
      rw [found] at outcome
      obtain ⟨rfl, done⟩ := outcome
      exact (next value later done).outcome
  | error failure later =>
      rw [found] at outcome
      rcases outcome with stops | ⟨diagnostic, head, refused⟩
      · exact .inl stops
      · refine .inr ⟨diagnostic, ?_, refused⟩
        rw [List.head?_append, head, Option.some_or]

/-- A step whose part has nothing wrong, before another. -/
theorem proceed {mid : α → Lowering → Prop} {f : α → Lower β} {post : β → Lowering → Prop}
    (first : Judged overlong late x s [] mid)
    (next : ∀ value later, mid value later → Judged overlong late (f value) later faults post) :
    Judged overlong late (x >>= f) s faults post := bind first next

/-- A step whose part has nothing wrong, after another. -/
theorem finish {mid : α → Lowering → Prop} {f : α → Lower β} {post : β → Lowering → Prop}
    (first : Judged overlong late x s faults mid)
    (next : ∀ value later, mid value later → Judged overlong late (f value) later [] post) :
    Judged overlong late (x >>= f) s faults post := List.append_nil faults ▸ bind first next

/-- A step whose outcome is known can be passed over. -/
theorem after (value : α) (later : Lowering) {f : α → Lower β} {post : β → Lowering → Prop}
    (known : x s = .ok value later) (next : Judged overlong late (f value) later faults post) :
    Judged overlong late (x >>= f) s faults post := by
  constructor
  rw [show (x >>= f) s = EStateM.bind x f s from rfl, EStateM.bind, known]
  exact next.outcome

/-- Asking for the next offset changes nothing. -/
theorem here {f : Nat → Lower β} {post : β → Lowering → Prop}
    (next : Judged overlong late (f s.chunk.size) s faults post) :
    Judged overlong late (Lower.here >>= f) s faults post := after s.chunk.size s rfl next

theorem mono {weaker : α → Lowering → Prop} (h : Judged overlong late x s faults post)
    (weaken : ∀ value later, post value later → weaker value later) :
    Judged overlong late x s faults weaker := by
  constructor
  have outcome := h.outcome
  cases found : x s with
  | ok value later =>
      rw [found] at outcome
      exact ⟨outcome.1, weaken value later outcome.2⟩
  | error failure later =>
      rw [found] at outcome
      exact outcome

/-- A step is refused for the first thing that is wrong. -/
theorem refuse {place : Location} {cause : Diagnostic.Cause}
    (head : faults.head? = some ⟨some place, cause⟩) (proper : cause.isLimit = false) :
    Judged overlong late (Lower.refuse place cause) s faults post :=
  ⟨.inr ⟨_, head, rfl, proper⟩⟩

/-- A step is refused because of a limit. -/
theorem stop {place : Location} {cause : Diagnostic.Cause}
    (stops : Stops overlong late (.refused ⟨some place, cause⟩)) :
    Judged overlong late (Lower.refuse place cause) s faults post := ⟨.inl stops⟩

/-- Nothing comes after a refusal. -/
theorem refuseBind {place : Location} {cause : Diagnostic.Cause} {f : α → Lower β}
    {post : β → Lowering → Prop} (head : faults.head? = some ⟨some place, cause⟩)
    (proper : cause.isLimit = false) :
    Judged overlong late (Lower.refuse place cause >>= f) s faults post :=
  ⟨.inr ⟨_, head, rfl, proper⟩⟩

theorem stopBind {place : Location} {cause : Diagnostic.Cause} {f : α → Lower β}
    {post : β → Lowering → Prop} (stops : Stops overlong late (.refused ⟨some place, cause⟩)) :
    Judged overlong late (Lower.refuse place cause >>= f) s faults post := ⟨.inl stops⟩

theorem deeper {depth : Depth} :
    Judged overlong late depth.deeper s [] fun _ later => later = s := by
  unfold Depth.deeper
  split
  · exact stop (.nesting _)
  · exact pure rfl

end Lower.Judged

/-- Is a scope what it has to be for the given blocks? Outside of functions there is neither. -/
inductive Scope.Visible : Option Scope → Option Blocks → Prop
  | outside : Visible none none
  | inside {scope : Scope} {blocks : Blocks} : scope.Shows blocks →
      scope.capacity = Scope.maxVariables → Visible (some scope) (some blocks)

/-- How far a lowering has come: so many bytes, among so many blocks. -/
structure Standing (size : Nat) (blocks : Option Blocks) (s : Lowering) : Prop where
  size_eq : s.chunk.size = size
  visible : Scope.Visible s.scope blocks

namespace Lower

variable {overlong late : Prop} {size : Nat} {blocks : Option Blocks} {s : Lowering}
  {place : Location}

theorem append_judged (h : Standing size blocks s) (op : Opcode) (operands : List Int) :
    Judged overlong late (append place op operands) s [] fun offset later =>
      offset = size ∧ Standing (size + op.size) blocks later := by
  constructor
  obtain ⟨chunk, scope⟩ := s
  obtain ⟨rfl, visible⟩ := h
  unfold append
  rcases written : chunk.append (some place) op operands with ⟨later, _ | offset⟩
  · simp only [written]
    exact .inl (.malformed _)
  · simp only [written]
    obtain ⟨fits, rfl, rfl⟩ := Chunk.append_eq_ok.mp written
    refine ⟨rfl, rfl, ?_, visible⟩
    show (chunk.code.bytes ++ Code.instructionBytes op operands).size = _
    rw [← Array.length_toList, Array.toList_appendList, List.length_append,
      Code.length_instructionBytes fits]
    rfl

theorem emit_judged (h : Standing size blocks s) (op : Opcode) (operands : List Int) :
    Judged overlong late (emit place op operands) s [] fun _ later =>
      Standing (size + op.size) blocks later :=
  .proceed (append_judged h op operands) fun _ _ done => .pure done.2

theorem jump_judged (h : Standing size blocks s) (op : Opcode) :
    Judged overlong late (jump place op) s [] fun offset later =>
      offset = size ∧ Standing (size + op.size) blocks later := append_judged h op _

/-- Pools are apart from the code. -/
theorem string_judged (h : Standing size blocks s) (name : String) :
    Judged overlong late (string place name) s [] fun _ later => Standing size blocks later := by
  constructor
  unfold string Chunk.internString
  cases s.chunk.strings.intern? name with
  | none => exact .inl (.strings _)
  | some result => exact ⟨rfl, h.size_eq, h.visible⟩

theorem constant_judged (h : Standing size blocks s) (value : Float) :
    Judged overlong late (constant place value) s [] fun _ later =>
      Standing size blocks later := by
  constructor
  unfold constant Chunk.internConstant
  cases s.chunk.constants.intern? value with
  | none => exact .inl (.constants _)
  | some result => exact ⟨rfl, h.size_eq, h.visible⟩

theorem emit_named_judged (h : Standing size blocks s) (op : Opcode) (name : String) :
    Judged overlong late (do emit place op [(← string place name : Nat)]) s [] fun _ later =>
      Standing (size + op.size) blocks later :=
  .proceed (string_judged h name) fun _ _ named => emit_judged named op _

/-- A variable is declared if its block does not have it and there is room for it. -/
theorem declare_judged (h : Standing size blocks s) (name : String) :
    Judged overlong late (declare place name) s
      (blocks.elim [] (Blocks.declarationFaults place name)) fun _ later =>
        Standing (size + if blocks.isSome then 0 else 2) (blocks.map (Blocks.declare name))
          later := by
  unfold declare
  refine .after s s rfl ?_
  obtain ⟨size_eq, visible⟩ := h
  cases found : s.scope with
  | none =>
      rw [found] at visible
      cases visible
      exact emit_named_judged ⟨size_eq, found ▸ .outside⟩ .setGlobal name
  | some scope =>
      rw [found] at visible
      cases visible with
      | @inside _ blocks shows capacity =>
          cases blocks with
          | nil => cases shows.starts
          | cons inner outer =>
              dsimp only [Option.elim_some, Blocks.declarationFaults, Scope.declare]
              rw [shows.innermost_eq, shows.size_eq, ← capacity]
              constructor
              split
              · exact .inr ⟨_, rfl, rfl, rfl⟩
              · split
                · exact .inr ⟨_, rfl, rfl, rfl⟩
                · rename_i room
                  refine ⟨rfl, size_eq, .inside (shows.push ?_ name) capacity⟩
                  rw [shows.size_eq]
                  omega

theorem emitTimes_judged (h : Standing size blocks s) (count : Nat) :
    Judged overlong late (emitTimes place .pop count) s [] fun _ later =>
      Standing (size + count) blocks later := by
  induction count generalizing s size with
  | zero => exact .pure h
  | succ count ih =>
      refine .proceed (emit_judged h .pop []) fun _ mid standing => ?_
      rw [Nat.add_comm count, ← Nat.add_assoc]
      exact ih standing

theorem localCount_eq (h : Standing size blocks s) :
    s.scope.elim 0 Scope.size = blocks.elim 0 Blocks.size := by
  obtain ⟨chunk, scope⟩ := s
  cases h.visible with
  | outside => rfl
  | inside shows => exact shows.size_eq

end Lower

/-- Patching fails for the distance alone, unless there is no jump to patch. -/
theorem Chunk.patch_eq_error {chunk : Chunk} {place : Option Location} {offset : Nat}
    {distance : Int} {failure : Failure} (h : chunk.patch place offset distance = .error failure) :
    (∃ fault, failure = .malformed fault) ∨
      failure = .refused ⟨place, .jumpTooLarge⟩ ∧ Code.isWord distance = false := by
  unfold patch at h
  split at h
  · cases h
  · rename_i found
    refine .inr ⟨(Except.error.inj h).symm, ?_⟩
    unfold Code.patch at found
    split at found
    · cases found
    · split at found
      · cases found
      · split at found
        · simpa using ‹(!Code.isWord distance) = true›
        · cases found
  · exact .inl ⟨_, (Except.error.inj h).symm⟩

namespace Lower

variable {overlong late : Prop} {size : Nat} {blocks : Option Blocks} {s : Lowering}
  {place : Location}

/-- A jump is settled if its distance can be written. -/
theorem settle_judged (h : Standing size blocks s) {offset target : Nat}
    (within : offset + 3 ≤ size) (distance : Int)
    (reaches : (target : Int) = (offset + 3 : Nat) + distance)
    (far : Code.isWord distance = false → overlong) :
    Judged overlong late (settle place offset target) s [] fun _ later =>
      Standing size blocks later ∧ Code.isWord distance := by
  have same : (target : Int) - (offset + Opcode.jmp.size : Nat) = distance := by
    rw [show Opcode.jmp.size = 3 from rfl]
    omega
  constructor
  unfold settle
  simp only [same]
  cases patched : s.chunk.patch (some place) offset distance with
  | ok later =>
      obtain ⟨word, rfl⟩ := Chunk.patch_eq_ok patched
      refine ⟨rfl, ⟨?_, h.visible⟩, word⟩
      have length : s.chunk.code.bytes.size = size := h.size_eq
      show (s.chunk.code.bytes.extract 0 (offset + 1) ++ Code.wordBytes distance ++
        s.chunk.code.bytes.extract (offset + 3) s.chunk.code.bytes.size).size = size
      rw [Array.size_append, ← Array.length_toList, Array.toList_appendList, List.length_append,
        Array.length_toList, Array.size_extract, Array.size_extract, length]
      simp only [Code.wordBytes, List.length_cons, List.length_nil]
      omega
  | error failure =>
      refine .inl ?_
      obtain ⟨fault, rfl⟩ | ⟨rfl, wide⟩ := Chunk.patch_eq_error patched
      · exact .malformed fault
      · exact .jump _ (far wide)

/-- A jump to the end of the code is settled if what it skips is not too long. -/
theorem settle_forward (h : Standing size blocks s) {offset : Nat} (skipped : Nat)
    (reaches : size = offset + 3 + skipped) (far : maxDistance < skipped → overlong) :
    Judged overlong late (settle place offset size) s [] fun _ later =>
      Standing size blocks later ∧ ¬ maxDistance < skipped := by
  refine Judged.mono (settle_judged h (by omega) skipped (by omega) ?_) ?_
  · intro wide
    refine far ?_
    simp only [Code.isWord, Bool.and_eq_false_iff, decide_eq_false_iff_not, maxDistance] at wide ⊢
    omega
  · rintro _ later ⟨standing, word⟩
    refine ⟨standing, ?_⟩
    simp only [Code.isWord, Bool.and_eq_true, decide_eq_true_eq, maxDistance] at word ⊢
    omega

/-- A jump back is settled if what it repeats, itself included, is not too long. -/
theorem settle_back (h : Standing size blocks s) {offset target : Nat} (repeated : Nat)
    (reaches : offset + 3 = target + repeated) (within : offset + 3 ≤ size)
    (far : maxDistance + 1 < repeated → overlong) :
    Judged overlong late (settle place offset target) s [] fun _ later =>
      Standing size blocks later ∧ ¬ maxDistance + 1 < repeated := by
  refine Judged.mono (settle_judged h within (-(repeated : Int)) (by omega) ?_) ?_
  · intro wide
    refine far ?_
    simp only [Code.isWord, Bool.and_eq_false_iff, decide_eq_false_iff_not, maxDistance] at wide ⊢
    omega
  · rintro _ later ⟨standing, word⟩
    refine ⟨standing, ?_⟩
    simp only [Code.isWord, Bool.and_eq_true, decide_eq_true_eq, maxDistance] at word ⊢
    omega

/-- A block takes one byte for every name that it has declared, and gives back the blocks around
it. -/
theorem block_judged {content : Lower Unit} {faults : List Diagnostic} {filled slots : Nat}
    {fine : Prop} (names : List String) (h : Standing size blocks s)
    (count : slots = if blocks.isSome then names.length else 0)
    (within : ∀ start, Standing size (blocks.map ([] :: ·)) start →
      Judged overlong late content start faults fun _ later =>
        Standing filled (blocks.map (names :: ·)) later ∧ fine) :
    Judged overlong late (block place content) s faults fun _ later =>
      Standing (filled + slots) blocks later ∧ fine := by
  have entered : Standing size (blocks.map ([] :: ·)) { s with scope := s.scope.map .enter } := by
    refine ⟨h.size_eq, ?_⟩
    obtain ⟨chunk, scope⟩ := s
    cases h.visible with
    | outside => exact .outside
    | inside shows capacity => exact .inside shows.enter capacity
  unfold block
  refine .after (s.scope.elim 0 Scope.size) s rfl ?_
  refine .after () { s with scope := s.scope.map .enter } rfl ?_
  refine .finish (within _ entered) ?_
  rintro _ later ⟨standing, legal⟩
  refine .after (later.scope.elim 0 Scope.size) later rfl ?_
  have taken : later.scope.elim 0 Scope.size - s.scope.elim 0 Scope.size = slots := by
    rw [localCount_eq standing, localCount_eq h, count]
    cases blocks <;> simp
  rw [taken]
  refine .proceed (emitTimes_judged standing slots) ?_
  intro _ closed done
  refine ⟨rfl, ⟨done.size_eq, ?_⟩, legal⟩
  obtain ⟨chunk, scope⟩ := s
  obtain ⟨chunk', scope'⟩ := closed
  cases h.visible with
  | outside =>
      cases done.visible
      exact .outside
  | @inside _ around shows capacity =>
      have around : around ≠ [] := by
        rintro rfl
        cases shows.starts
      cases done.visible with
      | @inside last _ shows' capacity' =>
          refine .inside (shows'.leave around) (Eq.trans ?_ capacity')
          unfold Scope.leave
          split <;> rfl

theorem parameters_judged (parameters : List Parameter) {inner : List String} {outer : Blocks}
    (h : Standing size (some (inner :: outer)) s) :
    Judged overlong late
      (parameters.forM fun parameter => declare parameter.location parameter.name) s
      (Blocks.parameterFaults (inner :: outer) parameters) fun _ later =>
        Standing size (some (((parameters.map Parameter.name).reverse ++ inner) :: outer))
          later := by
  induction parameters generalizing inner s with
  | nil => exact .pure h
  | cons first rest ih =>
      refine .bind (declare_judged h first.name) fun _ mid standing => ?_
      refine Judged.mono (ih standing) fun _ later done => ?_
      simpa using done

/-- The parameters of a function are its first variables. -/
theorem enterFunction_judged (parameters : List Parameter) (h : Standing size none s) :
    Judged overlong late (enterFunction parameters) s (Blocks.parameterFaults [[]] parameters)
      fun _ later => Standing size (some (.ofBody parameters)) later := by
  refine .after () { s with scope := some { capacity := Scope.maxVariables } } rfl ?_
  have entered : Standing size (some [[]])
      { s with scope := some { capacity := Scope.maxVariables } } :=
    ⟨h.size_eq, .inside (.initial _) rfl⟩
  refine Judged.mono (parameters_judged parameters entered) fun _ later done => ?_
  simpa [Blocks.ofBody] using done

end Lower

end StackScript
