/-
# Lowerings side by side

Two lowerings that do the same but for the names in their scopes. At any time they have made the
same chunk, and the variables in scope have the same slots. A step that does not look at the scope
does the same in both. Nothing is said where one of the two is refused.
-/

import StackScript.Proofs.Draft.Patch
import StackScript.Proofs.Lowering.Alike

namespace StackScript

/-- Two steps side by side: if both succeed, they give the same value, and a given condition holds
of the two states that they leave behind. -/
structure Lower.Mirrors {α : Type} (x y : Lower α) (s t : Lowering)
    (post : α → Lowering → Lowering → Prop) : Prop where
  outcome : ∀ value s' other t', x s = .ok value s' → y t = .ok other t' →
    other = value ∧ post value s' t'

namespace Lower.Mirrors

variable {α β : Type} {x y : Lower α} {s t : Lowering} {post : α → Lowering → Lowering → Prop}

theorem pure {value : α} (h : post value s t) :
    Mirrors (Pure.pure value) (Pure.pure value) s t post := by
  constructor
  rintro _ _ _ _ ⟨⟩ ⟨⟩
  exact ⟨rfl, h⟩

/-- Steps that follow each other hand over a condition. -/
theorem bind {mid : α → Lowering → Lowering → Prop} {f g : α → Lower β}
    {post : β → Lowering → Lowering → Prop} (first : Mirrors x y s t mid)
    (next : ∀ value s' t', mid value s' t' → Mirrors (f value) (g value) s' t' post) :
    Mirrors (x >>= f) (y >>= g) s t post := by
  constructor
  intro value s' other t' ran ran'
  rw [show (x >>= f) s = EStateM.bind x f s from rfl, EStateM.bind] at ran
  rw [show (y >>= g) t = EStateM.bind y g t from rfl, EStateM.bind] at ran'
  cases found : x s with
  | error failure later => simp [found] at ran
  | ok middle later =>
      cases found' : y t with
      | error failure later => simp [found'] at ran'
      | ok middle' later' =>
          obtain ⟨rfl, done⟩ := first.outcome _ _ _ _ found found'
          rw [found] at ran
          rw [found'] at ran'
          exact (next _ _ _ done).outcome _ _ _ _ ran ran'

/-- Steps whose outcomes are known can be passed over. -/
theorem after (value value' : α) (s' t' : Lowering) {f g : α → Lower β}
    {post : β → Lowering → Lowering → Prop} (known : x s = .ok value s')
    (known' : y t = .ok value' t') (next : Mirrors (f value) (g value') s' t' post) :
    Mirrors (x >>= f) (y >>= g) s t post := by
  constructor
  intro result later result' later' ran ran'
  rw [show (x >>= f) s = EStateM.bind x f s from rfl, EStateM.bind, known] at ran
  rw [show (y >>= g) t = EStateM.bind y g t from rfl, EStateM.bind, known'] at ran'
  exact next.outcome _ _ _ _ ran ran'

theorem mono {stronger : α → Lowering → Lowering → Prop} (h : Mirrors x y s t stronger)
    (weaken : ∀ value s' t', stronger value s' t' → post value s' t') : Mirrors x y s t post := by
  constructor
  intro value s' other t' ran ran'
  obtain ⟨same, done⟩ := h.outcome _ _ _ _ ran ran'
  exact ⟨same, weaken _ _ _ done⟩

/-- Where the first step is refused there is nothing to show. -/
theorem refuse {place : Location} {cause : Diagnostic.Cause} :
    Mirrors (Lower.refuse place cause) y s t post := ⟨nofun⟩

theorem refuseBind {place : Location} {cause : Diagnostic.Cause} {f : α → Lower β}
    {z : Lower β} {post : β → Lowering → Lowering → Prop} :
    Mirrors (Lower.refuse place cause >>= f) z s t post := ⟨nofun⟩

theorem deeper {depth : Depth} :
    Mirrors depth.deeper depth.deeper s t fun _ s' t' => s' = s ∧ t' = t := by
  unfold Depth.deeper
  split
  · exact refuse
  · exact pure ⟨rfl, rfl⟩

end Lower.Mirrors

/-- A step that does not look at the scope, and whose names are of a given kind. -/
structure Lower.Blind {α : Type} (names : String → Prop) (x : Lower α) : Prop where
  same : ∀ chunk scope scope' value later, x ⟨chunk, scope⟩ = .ok value later →
    later.scope = scope ∧ x ⟨chunk, scope'⟩ = .ok value ⟨later.chunk, scope'⟩ ∧
      ∀ name ∈ later.chunk.strings.entries.toList,
        name ∈ chunk.strings.entries.toList ∨ names name

namespace Lower.Blind

variable {names : String → Prop}

theorem append (place : Location) (op : Opcode) (operands : List Int) :
    Blind names (append place op operands) := by
  constructor
  intro chunk scope scope' value later ran
  unfold Lower.append at ran ⊢
  rcases written : chunk.append (some place) op operands with ⟨grown, _ | offset⟩
  · simp only [written] at ran
    cases ran
  · simp only [written] at ran ⊢
    cases ran
    obtain ⟨-, -, rfl⟩ := Chunk.append_eq_ok.mp written
    exact ⟨rfl, rfl, fun _ => .inl⟩

theorem string (place : Location) {value : String} (named : names value) :
    Blind names (string place value) := by
  constructor
  intro chunk scope scope' id later ran
  unfold Lower.string Chunk.internString at ran ⊢
  cases interned : chunk.strings.intern? value with
  | none =>
      simp only [interned] at ran
      cases ran
  | some result =>
      simp only [interned] at ran ⊢
      cases ran
      refine ⟨rfl, rfl, fun name mem => ?_⟩
      rcases Pool.mem_of_intern? interned name mem with old | rfl
      · exact .inl old
      · exact .inr named

theorem constant (place : Location) (value : Float) : Blind names (constant place value) := by
  constructor
  intro chunk scope scope' id later ran
  unfold Lower.constant Chunk.internConstant at ran ⊢
  cases interned : chunk.constants.intern? value with
  | none =>
      simp only [interned] at ran
      cases ran
  | some result =>
      simp only [interned] at ran ⊢
      cases ran
      exact ⟨rfl, rfl, fun _ => .inl⟩

theorem settle (place : Location) (offset target : Nat) :
    Blind names (settle place offset target) := by
  constructor
  intro chunk scope scope' value later ran
  unfold Lower.settle at ran ⊢
  dsimp only at ran ⊢
  split at ran
  · rename_i patchedChunk patched
    cases ran
    obtain ⟨-, rfl⟩ := Chunk.patch_eq_ok patched
    exact ⟨rfl, rfl, fun _ => .inl⟩
  · cases ran

end Lower.Blind

/-- Two lowerings have made the same chunk. Its strings are those that were there at the start and
some that both may mention. Their scopes are known. -/
structure Twin (start : Chunk) (shared : String → Prop) (scope scope' : Option Scope)
    (s t : Lowering) : Prop where
  chunk : t.chunk = s.chunk
  strings : ∀ name ∈ s.chunk.strings.entries.toList,
    name ∈ start.strings.entries.toList ∨ shared name
  first : s.scope = scope
  second : t.scope = scope'

namespace Lower

variable {start : Chunk} {shared : String → Prop} {scope scope' : Option Scope} {s t : Lowering}
  {place : Location}

/-- What does not look at the scope does the same in both lowerings. -/
theorem Blind.mirrors {α : Type} {x : Lower α} (blind : Blind shared x)
    (h : Twin start shared scope scope' s t) :
    Mirrors x x s t fun _ s' t' => Twin start shared scope scope' s' t' := by
  obtain ⟨chunk, _⟩ := s
  obtain ⟨_, _⟩ := t
  obtain ⟨rfl, strings, rfl, rfl⟩ := h
  constructor
  intro value s' other t' ran ran'
  obtain ⟨kept, same, names⟩ := blind.same _ _ _ _ _ ran
  cases ran'.symm.trans same
  refine ⟨rfl, rfl, fun name mem => ?_, kept, rfl⟩
  rcases names name mem with old | new
  · exact strings name old
  · exact .inr new

theorem emit_mirrors (h : Twin start shared scope scope' s t) (op : Opcode)
    (operands : List Int) :
    Mirrors (emit place op operands) (emit place op operands) s t fun _ s' t' =>
      Twin start shared scope scope' s' t' :=
  .bind ((Blind.append place op operands).mirrors h) fun _ _ _ done => .pure done

theorem here_mirrors (h : Twin start shared scope scope' s t) {α : Type} {f g : Nat → Lower α}
    {post : α → Lowering → Lowering → Prop}
    (next : Mirrors (f s.chunk.size) (g s.chunk.size) s t post) :
    Mirrors (here >>= f) (here >>= g) s t post :=
  .after s.chunk.size s.chunk.size s t rfl
    (congrArg (fun chunk : Chunk => EStateM.Result.ok chunk.size t) h.chunk) next

theorem emit_named_mirrors (h : Twin start shared scope scope' s t) (op : Opcode) {name : String}
    (mentioned : shared name) :
    Mirrors (do emit place op [(← string place name : Nat)])
      (do emit place op [(← string place name : Nat)]) s t fun _ s' t' =>
        Twin start shared scope scope' s' t' :=
  .bind ((Blind.string place mentioned).mirrors h) fun _ _ _ named => emit_mirrors named op _

theorem emitTimes_mirrors (h : Twin start shared scope scope' s t) (count : Nat) :
    Mirrors (emitTimes place .pop count) (emitTimes place .pop count) s t fun _ s' t' =>
      Twin start shared scope scope' s' t' := by
  induction count generalizing s t with
  | zero => exact .pure h
  | succ count ih => exact .bind (emit_mirrors h .pop []) fun _ _ _ done => ih done

end Lower

/-- The scope of a function in which the given names are declared. -/
def Scope.within (base : Nat) (outer : List Nat) (names : List String) : Option Scope :=
  some ⟨Scope.maxVariables, names, base, outer⟩

/-- Two lowerings are at the same place in two functions, where the given variables are in scope. -/
abbrev Paired (start : Chunk) (shared : String → Prop) (base : Nat) (outer : List Nat)
    (pairs : Pairs) (s t : Lowering) : Prop :=
  Twin start shared (Scope.within base outer (pairs.map Prod.fst))
    (Scope.within base outer (pairs.map Prod.snd)) s t

/-- The slot of a name is told from where it was declared last. -/
theorem Scope.find?_within (base : Nat) (outer : List Nat) (pairs : Pairs)
    (side : String × String → String) (name : String) :
    ((within base outer (pairs.map side)).bind fun scope => scope.find? name) =
      (pairs.findIdx? (side · == name)).map fun index => pairs.length - 1 - index := by
  simp [within, find?, size, List.findIdx?_map, Function.comp_def]

namespace Lower

variable {start : Chunk} {shared : String → Prop} {base : Nat} {outer : List Nat}
  {pairs : Pairs} {s t : Lowering} {place : Location}

/-- A declaration in a function that succeeds adds the name. -/
theorem eq_of_declare {scope : Scope} {name : String} {later : Lowering}
    (inside : s.scope = some scope) (ran : declare place name s = .ok () later) :
    later = { s with scope := some { scope with names := name :: scope.names } } := by
  obtain ⟨chunk, _⟩ := s
  obtain rfl := inside
  have looked :
      (get : Lower Lowering) ⟨chunk, some scope⟩ = .ok ⟨chunk, some scope⟩ ⟨chunk, some scope⟩ :=
    rfl
  unfold declare at ran
  simp only [bind, EStateM.bind, looked] at ran
  cases declared : scope.declare place name with
  | error diagnostic =>
      simp only [declared] at ran
      cases ran
  | ok result =>
      simp only [declared] at ran
      cases ran
      unfold Scope.declare at declared
      split at declared
      · cases declared
      · split at declared
        · cases declared
        · cases declared
          rfl

theorem declare_mirrors (h : Paired start shared base outer pairs s t) (place place' : Location)
    (name name' : String) :
    Mirrors (declare place name) (declare place' name') s t fun _ s' t' =>
      Paired start shared base outer ((name, name') :: pairs) s' t' := by
  constructor
  rintro _ s' _ t' ran ran'
  obtain rfl := eq_of_declare h.first ran
  obtain rfl := eq_of_declare h.second ran'
  exact ⟨rfl, h.chunk, h.strings, rfl, rfl⟩

/-- A block pops the same number of variables in both functions. -/
theorem block_mirrors {content content' : Lower Unit}
    (h : Paired start shared base outer pairs s t)
    (within : ∀ s' t', Paired start shared pairs.length (base :: outer) pairs s' t' →
      Mirrors content content' s' t' fun _ s'' t'' => ∃ added,
        Paired start shared pairs.length (base :: outer) (added ++ pairs) s'' t'') :
    Mirrors (block place content) (block place content') s t fun _ s' t' =>
      Paired start shared base outer pairs s' t' := by
  obtain ⟨chunk, _⟩ := s
  obtain ⟨_, _⟩ := t
  obtain ⟨rfl, strings, rfl, rfl⟩ := h
  unfold block
  refine .after (pairs.map Prod.fst).length (pairs.map Prod.snd).length _ _ rfl rfl ?_
  refine .after () () _ _ rfl rfl ?_
  rw [List.length_map, List.length_map]
  refine .bind (within _ _ ⟨rfl, strings, ?_, ?_⟩) ?_
  · simp [Scope.within, Scope.enter, Scope.size]
  · simp [Scope.within, Scope.enter, Scope.size]
  rintro _ s' t' ⟨added, filled⟩
  have count {side : String × String → String} {state : Lowering}
      (scope : state.scope =
        Scope.within pairs.length (base :: outer) ((added ++ pairs).map side)) :
      localCount state = .ok (added.length + pairs.length) state := by
    show EStateM.Result.ok (state.scope.elim 0 Scope.size) state = _
    simp [scope, Scope.within, Scope.size]
  refine .after _ _ _ _ (count filled.first) (count filled.second) ?_
  refine .bind (emitTimes_mirrors filled _) fun _ s'' t'' closed => ?_
  constructor
  rintro _ _ _ _ ⟨⟩ ⟨⟩
  refine ⟨rfl, closed.chunk, closed.strings, ?_, ?_⟩
  · simp [closed.first, Scope.within, Scope.leave, Scope.size]
  · simp [closed.second, Scope.within, Scope.leave, Scope.size]

end Lower

end StackScript
