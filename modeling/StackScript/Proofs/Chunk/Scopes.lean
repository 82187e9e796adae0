/-
# Scopes are lexical

A scope has one row of names and one boundary, whatever blocks are open. Seen from outside it is a
stack of blocks, each with its declarations and the slots that they were given: a name means the
last declaration of it that is still in scope, only the innermost block keeps a name from being
declared again, and the end of a block brings back the scope from before it.

The stack is told from the calls and their answers alone. It says everything about the scope, so
that a scope is restored when its stack is.
-/

import Mathlib.Data.List.Nodup
import Mathlib.Data.List.Range
import StackScript.Proofs.Chunk.Blocks

namespace StackScript.Scope

/-- Declares a variable if that is possible. A scope that refuses a name stays as it is. -/
def attempt (scope : Scope) (place : Location) (name : String) : Scope × Except Diagnostic Nat :=
  match scope.declare place name with
  | .ok (later, slot) => (later, .ok slot)
  | .error diagnostic => (scope, .error diagnostic)

/-- A call that may change a scope, and what a declaration was answered. Blocks are left in one way,
be it at their end or because something in them is refused. -/
inductive Call where
  | declare (place : Location) (name : String) (answer : Except Diagnostic Nat)
  | enter
  | leave

/-- The blocks that are open, the innermost first. Each has its declarations, the last one first,
with the slots that they were given. -/
abbrev Declared : Type := List (List (String × Nat))

namespace Declared

/-- The open blocks after a call. -/
def after (blocks : Declared) : Call → Declared
  | .declare _ name (.ok slot) => blocks.modifyHead ((name, slot) :: ·)
  | .declare _ _ (.error _) => blocks
  | .enter => [] :: blocks
  | .leave => blocks.tail

/-- The open blocks after some calls. At the beginning there is one, without declarations. -/
def ofCalls (calls : List Call) : Declared := calls.foldl after [[]]

/-- The names that the innermost block has declared. -/
def innermost (blocks : Declared) : List String := (blocks.headD []).map Prod.fst

/-- The blocks without the slots. -/
def names (blocks : Declared) : Blocks := blocks.map (List.map Prod.fst)

theorem ofCalls_concat (calls : List Call) (call : Call) :
    ofCalls (calls ++ [call]) = (ofCalls calls).after call := by
  rw [ofCalls, List.foldl_append]
  rfl

theorem names_flatten (blocks : Declared) :
    blocks.names.flatten = blocks.flatten.map Prod.fst := List.map_flatten.symm

theorem names_modifyHead (blocks : Declared) (name : String) (slot : Nat) :
    names (blocks.modifyHead ((name, slot) :: ·)) = blocks.names.declare name := by
  cases blocks <;> rfl

/-- Slots that count down to zero do so from any of them on. -/
theorem slots_of_suffix {front back : List Nat} {count : Nat}
    (h : front ++ back = (List.range count).reverse) :
    back = (List.range back.length).reverse := by
  have whole : back.reverse ++ front.reverse = List.range count := by
    rw [← List.reverse_append, h, List.reverse_reverse]
  have le : back.length ≤ count := by
    have length := congrArg List.length h
    rw [List.length_append, List.length_reverse, List.length_range] at length
    omega
  have taken : back.reverse = List.range back.length := by
    calc
      back.reverse = (List.range count).take back.length := by
        rw [← whole, ← List.length_reverse, List.take_left]
      _ = List.range back.length := by rw [List.take_range, Nat.min_eq_left le]
  rw [← taken, List.reverse_reverse]

/-- Where slots count the declarations, the declaration of a name that was made last is told from
the names alone. -/
theorem lookup_eq {entries : List (String × Nat)} {count : Nat}
    (slots : entries.map Prod.snd = (List.range count).reverse) (name : String) :
    entries.lookup name =
      ((entries.map Prod.fst).findIdx? (· == name)).map fun index => count - 1 - index := by
  induction entries generalizing count with
  | nil => rfl
  | cons entry rest ih =>
      obtain ⟨other, slot⟩ := entry
      cases count with
      | zero => cases slots
      | succ count =>
          rw [List.range_succ, List.reverse_append, List.map_cons] at slots
          obtain ⟨rfl, slots⟩ := List.cons.inj slots
          rw [List.lookup_cons, List.map_cons, List.findIdx?_cons, ih slots]
          by_cases same : other = name
          · simp [same]
          · have same' : (name == other) = false := by simpa using Ne.symm same
            simp only [same', beq_eq_false_iff_ne.mpr same, Bool.false_eq_true, if_false,
              Option.map_map]
            congr 1
            funext index
            simp only [Function.comp_apply]
            omega

end Declared

/-- Calls in their order and the scope that they lead to, from a new one with the given room. A
block is left only if one has been entered and not left yet. -/
inductive History (room : Nat) : List Call → Scope → Prop
  | new : History room [] { capacity := room }
  | declare {calls : List Call} {scope : Scope} (place : Location) (name : String) :
      History room calls scope →
        History room (calls ++ [.declare place name (scope.attempt place name).2])
          (scope.attempt place name).1
  | enter {calls : List Call} {scope : Scope} : History room calls scope →
      History room (calls ++ [.enter]) scope.enter
  | leave {calls : List Call} {scope : Scope} : History room calls scope →
      1 < (Declared.ofCalls calls).length → History room (calls ++ [.leave]) scope.leave

/-- Calls that leave the blocks that they enter, and no others. -/
inductive Balanced : List Call → Prop
  | nothing : Balanced []
  | declare {place : Location} {name : String} {answer : Except Diagnostic Nat}
      {calls : List Call} : Balanced calls → Balanced (.declare place name answer :: calls)
  | block {inner calls : List Call} : Balanced inner → Balanced calls →
      Balanced (.enter :: inner ++ .leave :: calls)

/-- A scope is what it has to be for the declarations in the open blocks. -/
structure Matches (room : Nat) (blocks : Declared) (scope : Scope) : Prop where
  shows : scope.Shows blocks.names
  capacity : scope.capacity = room
  slots : blocks.flatten.map Prod.snd = (List.range scope.size).reverse
  distinct : ∀ block ∈ blocks.names, block.Nodup

namespace Matches

variable {room : Nat} {blocks : Declared} {scope other : Scope} {place : Location} {name : String}

theorem size_le (h : Matches room blocks scope) : scope.size ≤ room := h.capacity ▸ h.shows.room

theorem innermost_eq (h : Matches room blocks scope) : scope.innermost = blocks.innermost := by
  cases blocks with
  | nil => cases h.shows.starts
  | cons inner outer => exact h.shows.innermost_eq

theorem declare_of_known (h : Matches room blocks scope) (known : name ∈ blocks.innermost) :
    scope.declare place name = .error ⟨some place, .localVariableExists name⟩ :=
  if_pos (h.innermost_eq ▸ known)

theorem declare_of_full (h : Matches room blocks scope) (new : name ∉ blocks.innermost)
    (full : scope.size = room) :
    scope.declare place name = .error ⟨some place, .tooManyLocalVariables⟩ := by
  rw [declare, h.innermost_eq, if_neg new, if_pos]
  rw [h.capacity, full]

theorem declare_of_room (h : Matches room blocks scope) (new : name ∉ blocks.innermost)
    (less : scope.size < room) :
    scope.declare place name = .ok ({ scope with names := name :: scope.names }, scope.size) := by
  rw [declare, h.innermost_eq, if_neg new, if_neg]
  rw [h.capacity]
  exact Nat.not_le.mpr less

/-- The three ways in which a declaration can end. -/
theorem attempt_cases (h : Matches room blocks scope) (place : Location) (name : String) :
    (name ∈ blocks.innermost ∧
      scope.attempt place name = (scope, .error ⟨some place, .localVariableExists name⟩)) ∨
    (name ∉ blocks.innermost ∧ scope.size = room ∧
      scope.attempt place name = (scope, .error ⟨some place, .tooManyLocalVariables⟩)) ∨
    (name ∉ blocks.innermost ∧ scope.size < room ∧ scope.attempt place name =
      ({ scope with names := name :: scope.names }, .ok scope.size)) := by
  unfold attempt
  by_cases known : name ∈ blocks.innermost
  · rw [h.declare_of_known known]
    exact .inl ⟨known, rfl⟩
  · rcases h.size_le.eq_or_lt with full | less
    · rw [h.declare_of_full known full]
      exact .inr (.inl ⟨known, full, rfl⟩)
    · rw [h.declare_of_room known less]
      exact .inr (.inr ⟨known, less, rfl⟩)

theorem find?_eq (h : Matches room blocks scope) (name : String) :
    scope.find? name = blocks.flatten.lookup name := by
  rw [Declared.lookup_eq h.slots, ← Declared.names_flatten, ← h.shows.names, find?]

theorem new (room : Nat) : Matches room [[]] { capacity := room } where
  shows := .initial room
  capacity := rfl
  slots := rfl
  distinct := by simp [Declared.names]

theorem push (h : Matches room blocks scope) (unknown : name ∉ blocks.innermost)
    (less : scope.size < room) :
    Matches room (blocks.modifyHead ((name, scope.size) :: ·))
      { scope with names := name :: scope.names } := by
  cases blocks with
  | nil => cases h.shows.starts
  | cons inner outer =>
      refine ⟨?_, h.capacity, ?_, ?_⟩
      · rw [Declared.names_modifyHead]
        exact h.shows.push (h.capacity ▸ less) name
      · show scope.size :: (inner :: outer).flatten.map Prod.snd =
          (List.range (scope.size + 1)).reverse
        rw [h.slots, List.range_succ, List.reverse_append]
        rfl
      · rw [Declared.names_modifyHead]
        obtain ⟨first, rest⟩ := List.forall_mem_cons.mp h.distinct
        exact List.forall_mem_cons.mpr ⟨List.nodup_cons.mpr ⟨unknown, first⟩, rest⟩

/-- A declaration adds to the innermost block, or changes nothing. -/
theorem declare (h : Matches room blocks scope) (place : Location) (name : String) :
    Matches room (blocks.after (.declare place name (scope.attempt place name).2))
      (scope.attempt place name).1 := by
  rcases h.attempt_cases place name with
    ⟨-, refused⟩ | ⟨-, -, refused⟩ | ⟨unknown, less, given⟩
  · rw [refused]
    exact h
  · rw [refused]
    exact h
  · rw [given]
    exact h.push unknown less

theorem enter (h : Matches room blocks scope) : Matches room ([] :: blocks) scope.enter where
  shows := h.shows.enter
  capacity := h.capacity
  slots := h.slots
  distinct := List.forall_mem_cons.mpr ⟨List.nodup_nil, h.distinct⟩

theorem leave (h : Matches room blocks scope) (within : 1 < blocks.length) :
    Matches room blocks.tail scope.leave := by
  cases blocks with
  | nil => cases h.shows.starts
  | cons inner outer =>
      have around : Declared.names outer ≠ [] := by
        intro none
        rw [List.map_eq_nil_iff.mp none] at within
        exact absurd within (Nat.lt_irrefl 1)
      have shows : scope.leave.Shows (Declared.names outer) := h.shows.leave around
      have kept : scope.leave.capacity = scope.capacity := by
        unfold Scope.leave
        split <;> rfl
      refine ⟨shows, kept.trans h.capacity, ?_, (List.forall_mem_cons.mp h.distinct).2⟩
      have count : (outer.flatten.map Prod.snd).length = scope.leave.size := by
        rw [shows.size_eq, Blocks.size, Declared.names_flatten, List.length_map, List.length_map]
      have whole : inner.map Prod.snd ++ outer.flatten.map Prod.snd =
          (List.range scope.size).reverse := by
        rw [← h.slots, ← List.map_append]
        rfl
      rw [← count]
      exact Declared.slots_of_suffix whole

/-- The declarations in the open blocks say everything about a scope. -/
theorem unique (h : Matches room blocks scope) (h' : Matches room blocks other) :
    other = scope := by
  obtain ⟨capacity, names, base, outer⟩ := scope
  obtain ⟨capacity', names', base', outer'⟩ := other
  obtain rfl : capacity = room := h.capacity
  obtain rfl : capacity' = capacity := h'.capacity
  obtain rfl : names' = names := h'.shows.names.trans h.shows.names.symm
  obtain ⟨rfl, rfl⟩ := List.cons.inj (h'.shows.starts.trans h.shows.starts.symm)
  rfl

end Matches

variable {room : Nat} {calls : List Call} {scope : Scope}

theorem History.matches (h : History room calls scope) :
    Matches room (.ofCalls calls) scope := by
  induction h with
  | new => exact .new room
  | declare place name _ ih =>
      rw [Declared.ofCalls_concat]
      exact ih.declare place name
  | enter _ ih =>
      rw [Declared.ofCalls_concat]
      exact ih.enter
  | leave _ within ih =>
      rw [Declared.ofCalls_concat]
      exact ih.leave within

/-- Balanced calls add to the innermost block only. -/
theorem Balanced.foldl_eq (h : Balanced calls) (block : List (String × Nat)) (outer : Declared) :
    ∃ filled, calls.foldl Declared.after (block :: outer) = filled :: outer := by
  induction h generalizing block outer with
  | nothing => exact ⟨block, rfl⟩
  | @declare _ name answer _ _ ih =>
      cases answer with
      | error diagnostic => exact ih block outer
      | ok slot => exact ih ((name, slot) :: block) outer
  | block _ _ ih ih' =>
      obtain ⟨filled, inside⟩ := ih [] (block :: outer)
      obtain ⟨filled', behind⟩ := ih' block outer
      refine ⟨filled', ?_⟩
      rw [List.foldl_append]
      show List.foldl Declared.after
        (Declared.after (List.foldl Declared.after ([] :: block :: outer) _) .leave) _ = _
      rw [inside]
      exact behind

theorem Balanced.ofCalls_block {inner : List Call} (h : Balanced inner) (calls : List Call) :
    Declared.ofCalls (calls ++ .enter :: inner ++ [.leave]) = .ofCalls calls := by
  obtain ⟨filled, inside⟩ := h.foldl_eq [] (.ofCalls calls)
  rw [Declared.ofCalls_concat, Declared.ofCalls, List.foldl_append]
  show Declared.after (List.foldl Declared.after ([] :: Declared.ofCalls calls) inner) .leave = _
  rw [inside]
  rfl

/-- A scope does what lexical scoping asks of it, given the declarations in the open blocks. -/
structure Lexical (room : Nat) (blocks : Declared) (scope : Scope) : Prop where
  distinct : ∀ block ∈ blocks, (block.map Prod.fst).Nodup
  slots : (blocks.flatten.map Prod.snd).reverse = List.range scope.size
  fits : scope.size ≤ room
  found : ∀ name, scope.find? name = blocks.flatten.lookup name
  known : ∀ place name, (scope.attempt place name).2 =
    .error ⟨some place, .localVariableExists name⟩ ↔ name ∈ blocks.innermost
  full : ∀ place name, (scope.attempt place name).2 =
    .error ⟨some place, .tooManyLocalVariables⟩ ↔ name ∉ blocks.innermost ∧ scope.size = room
  given : ∀ place name slot, (scope.attempt place name).2 = .ok slot ↔
    name ∉ blocks.innermost ∧ scope.size < room ∧ slot = scope.size
  unchanged : ∀ place name diagnostic, (scope.attempt place name).2 = .error diagnostic →
    (scope.attempt place name).1 = scope

theorem Matches.toLexical {blocks : Declared} (h : Matches room blocks scope) :
    Lexical room blocks scope where
  distinct := fun block mem => h.distinct _ (List.mem_map_of_mem mem)
  slots := by rw [h.slots, List.reverse_reverse]
  fits := h.size_le
  found := h.find?_eq
  known := fun place name => by
    rcases h.attempt_cases place name with ⟨known, same⟩ | ⟨new, -, same⟩ | ⟨new, -, same⟩
    · simp [same, known]
    · simp [same, new]
    · simp [same, new]
  full := fun place name => by
    rcases h.attempt_cases place name with ⟨known, same⟩ | ⟨new, full, same⟩ | ⟨new, less, same⟩
    · simp [same, known]
    · simp [same, new, full]
    · simp [same, less.ne]
  given := fun place name slot => by
    rcases h.attempt_cases place name with ⟨known, same⟩ | ⟨new, full, same⟩ | ⟨new, less, same⟩
    · simp [same, known]
    · simp [same, full]
    · simp [same, new, less, eq_comm]
  unchanged := fun place name diagnostic refused => by
    rcases h.attempt_cases place name with ⟨-, same⟩ | ⟨-, -, same⟩ | ⟨-, -, same⟩
    · rw [same]
    · rw [same]
    · rw [same] at refused
      cases refused

/-- Whatever calls have been made, a scope is the stack of blocks that they tell of. A block that
is entered and left leaves nothing behind. -/
theorem History.lexical (h : History room calls scope) :
    Lexical room (.ofCalls calls) scope ∧ ∀ inner later, Balanced inner →
      History room (calls ++ .enter :: inner ++ [.leave]) later → later = scope := by
  refine ⟨h.matches.toLexical, fun inner later balanced h' => ?_⟩
  have after := h'.matches
  rw [balanced.ofCalls_block] at after
  exact h.matches.unique after

/-- In a block a name hides the one around it. A second name is refused, for there is room for two
variables only, and at the end of the block the name means the outer variable again. -/
theorem lexical_hiding :
    let calls : List Call := [.declare default "a" (.ok 0)]
    let inner : List Call := [.declare default "a" (.ok 1),
      .declare default "b" (.error ⟨some default, .tooManyLocalVariables⟩)]
    ∃ scope inside later, History 2 calls scope ∧ Balanced inner ∧
      History 2 (calls ++ .enter :: inner) inside ∧
      History 2 (calls ++ .enter :: inner ++ [.leave]) later ∧
      scope.find? "a" = some 0 ∧ inside.find? "a" = some 1 ∧ later = scope := by
  intro calls inner
  have outside : History 2 calls { capacity := 2, names := ["a"] } := .declare default "a" .new
  have first : History 2 (calls ++ [.enter] ++ [.declare default "a" (.ok 1)])
      { capacity := 2, names := ["a", "a"], base := 1, outer := [0] } :=
    .declare default "a" outside.enter
  have inside : History 2 (calls ++ .enter :: inner)
      { capacity := 2, names := ["a", "a"], base := 1, outer := [0] } :=
    .declare default "b" first
  have after := inside.leave (by decide)
  have balanced : Balanced inner := .declare (.declare .nothing)
  refine ⟨_, _, _, outside, balanced, inside, after, ?_, ?_, ?_⟩
  · exact outside.lexical.1.found "a"
  · exact inside.lexical.1.found "a"
  · exact outside.lexical.2 inner _ balanced after

end StackScript.Scope
