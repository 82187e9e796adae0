/-
# Heights

How many values lie above the start of the innermost frame depends on nothing but the place in
the code that the machine has come to, whatever way it has come there. Where a statement begins,
it is the number of parameters and local variables in scope, so that a slot leads to the variable
that it was made for; and behind it, only a declaration has left something on the stack.
-/

import StackScript.Proofs.Lowering.Parts
import StackScript.Proofs.Machine.Safety

namespace StackScript

open Line (extent placed Part Reaches)

namespace Chunk

/-- The chunks that come about by adding statements to an empty one, with those that were
accepted. Each of these is kept with what the chunk was before. -/
inductive Logged (poolSize : Nat) : Chunk → List (Chunk × Stmt) → Prop
  | empty : Logged poolSize (.empty poolSize) []
  | accepted {chunk later : Chunk} {log : List (Chunk × Stmt)} {limit bytes : Nat} {st : Stmt} :
      Logged poolSize chunk log → chunk.addStatement limit st = (later, .ok bytes) →
        Logged poolSize later (log ++ [(chunk, st)])
  | refused {chunk later : Chunk} {log : List (Chunk × Stmt)} {limit : Nat} {st : Stmt}
      {failure : Failure} :
      Logged poolSize chunk log → chunk.addStatement limit st = (later, .error failure) →
        Logged poolSize later log

/-- The statements of a program that is accepted, each with what the chunk is before it. -/
def additions (limit : Nat) (chunk : Chunk) : List Node → List (Chunk × Stmt)
  | .statement st :: rest =>
    (chunk, st) :: additions limit (chunk.addStatement limit st).1 rest
  | _ => []

variable {poolSize limit bytes : Nat} {chunk later : Chunk} {log : List (Chunk × Stmt)}

theorem Logged.addNodes {nodes : List Node} (logged : chunk.Logged poolSize log)
    (added : chunk.addNodes limit nodes = (later, .ok bytes)) :
    later.Logged poolSize (log ++ chunk.additions limit nodes) := by
  induction nodes generalizing chunk log bytes with
  | nil =>
      obtain ⟨rfl, -⟩ := Prod.mk.inj added
      rw [additions, List.append_nil]
      · exact logged
      · nofun
  | cons node rest ih =>
      rw [Chunk.addNodes] at added
      split at added
      · cases (Prod.mk.inj added).2
      · rename_i next count first
        split at added
        · cases (Prod.mk.inj added).2
        · rename_i final more others
          obtain ⟨rfl, -⟩ := Prod.mk.inj added
          cases node with
          | statement st =>
              have first : chunk.addStatement limit st = (next, .ok count) := first
              have whole := ih (logged.accepted first) others
              rw [List.append_assoc, List.singleton_append] at whole
              rw [additions, first]
              exact whole
          | _ => cases (Prod.mk.inj first).2

/-- The code of a chunk is the draft of what it has accepted, each statement behind those before
it. -/
theorem Logged.assembled (small : poolSize ≤ maxPoolSize) (logged : chunk.Logged poolSize log) :
    ∃ body : List Stmt, listLegal false body ∧ chunk.Assembled (listCode 0 .top body) ∧
      ∀ entry ∈ log, entry.1.Roomy ∧ ∃ front back, body = front ++ entry.2 :: back ∧
        entry.1.size = extent (listCode 0 .top front) := by
  induction logged with
  | empty => exact ⟨[], trivial, assembled_empty small, by simp⟩
  | @accepted chunk later log limit bytes st _ added ih =>
      obtain ⟨body, legal, assembled, entries⟩ := ih
      obtain ⟨legal', whole, -⟩ := assembled.accepted legal added
      refine ⟨body ++ [st], legal', whole, fun entry mem => ?_⟩
      rcases List.mem_append.mp mem with mem | mem
      · obtain ⟨roomy, front, back, rfl, size⟩ := entries entry mem
        exact ⟨roomy, front, back ++ [st], by simp, size⟩
      · obtain rfl := List.mem_singleton.mp mem
        exact ⟨assembled.roomy, body, [], rfl, assembled.size_eq⟩
  | refused _ added ih =>
      obtain ⟨body, legal, assembled, entries⟩ := ih
      exact ⟨body, legal, assembled.refused added, entries⟩

theorem Logged.visits_self (logged : chunk.Logged poolSize log) {entry : Chunk × Stmt}
    (mem : entry ∈ log) :
    ∃ stop, entry.2.Visits entry.1 ⟨.statement entry.2, ⟨entry.1, none⟩, stop⟩ := by
  induction logged with
  | empty => cases mem
  | accepted _ added ih =>
      rcases List.mem_append.mp mem with mem | mem
      · exact ih mem
      · obtain rfl := List.mem_singleton.mp mem
        exact Stmt.visits_self added
  | refused _ _ ih => exact ih mem

/-- A statement that has been accepted stands in the finished program. -/
theorem stands_of_log {front back : List Stmt} {st : Stmt} {place : Option Location}
    (legal : listLegal false (front ++ st :: back)) (roomy : chunk.Roomy)
    (size : chunk.size = extent (listCode 0 .top front)) :
    (Piece.statement st).Stands (listCode 0 .top (front ++ st :: back) ++ [exitLine place])
      ⟨chunk, none⟩ .top 0 := by
  obtain ⟨-, legal, legalBack⟩ := (listLegal_append false front (st :: back)).mp legal
  have same : listCode 0 .top (front ++ st :: back) ++ [exitLine place] =
      listCode 0 .top front ++ (st.code chunk.size .top ++
        (listCode (chunk.size + extent (st.code chunk.size .top)) .top back ++
          [exitLine place])) := by
    simp [listCode_append, listCode, size]
  refine ⟨⟨roomy, rfl, rfl⟩, ⟨_, _, same, by simp [size]⟩, Context.fair_top, ⟨rfl, legal⟩,
    fun _ => ?_⟩
  have rest : Part 0 (listCode 0 .top (front ++ st :: back) ++ [exitLine place])
      (chunk.size + extent (st.code chunk.size .top))
      (listCode (chunk.size + extent (st.code chunk.size .top)) .top back ++ [exitLine place]) :=
    ⟨listCode 0 .top front ++ st.code chunk.size .top, [], by simp [same], by simp [size]⟩
  have opens := listCode_opens Context.fair_top
    (chunk.size + extent (st.code chunk.size .top)) legalBack
  rw [Context.afterAll_top] at opens
  have ends : Line.Opens (Context.top.mark 0) (Context.top.mark 0)
      (listCode (chunk.size + extent (st.code chunk.size .top)) .top back ++ [exitLine place]) :=
    opens.append rfl
  have behind := rest.reaches ends (by simp)
  simpa [Piece.after, Piece.code] using behind

end Chunk

section Height

variable {lines : List Line} {offset : Nat} {mark : Mark}

/-- The number of values above the start of the frame when control is at an offset. -/
def Line.heightAt (lines : List Line) (offset : Nat) : Nat :=
  ((placed 0 lines).find? fun p => p.1 == offset).elim 0 fun p => p.2.mark.height

theorem Line.heightAt_eq (h : Reaches lines offset mark) :
    Line.heightAt lines offset = mark.height := by
  obtain ⟨line, mem, rfl⟩ := h
  have found : ((placed 0 lines).find? fun p => p.1 == offset).isSome := by
    rw [List.find?_isSome]
    exact ⟨_, mem, beq_self_eq_true _⟩
  obtain ⟨⟨start, other⟩, found⟩ := Option.isSome_iff_exists.mp found
  obtain rfl : start = offset :=
    eq_of_beq (List.find?_some (p := fun p : Nat × Line => p.1 == offset) found)
  obtain rfl := Line.placed_unique mem (List.mem_of_find?_eq_some found)
  rw [Line.heightAt, found, Option.elim_some]

/-- From the start of a program on, the stack is as high as the mark says, above the frame. -/
theorem Stacked.length_eq {stack : List Value} {frames : List Nat}
    (h : Stacked lines .ground mark stack frames) :
    stack.length = frames.getLast?.getD 0 + mark.height := by
  cases h with
  | base => simp [Floor.ground]
  | call => simp [Nat.add_assoc, Nat.add_comm 1]

end Height

namespace Lowering

/-- The name of the variable in a slot. -/
def nameAt? (s : Lowering) (slot : Nat) : Option String :=
  s.scope.bind fun scope => scope.names.reverse[slot]?

end Lowering

/-- What the heights of a program say where a statement has been lowered. -/
structure Stmt.Level (st : Stmt) (whole : Chunk) (height : Nat → Nat) (start stop : Lowering) :
    Prop where
  /-- Nothing but variables is above the start of the frame. -/
  before : height start.chunk.size = start.localCount
  behind : st.isReturn = false → height stop.chunk.size = stop.localCount
  /-- Only a declaration changes what is in scope. -/
  scope : (∀ place name value, st ≠ .declare place name value) → stop.scope = start.scope
  /-- The slot of a new variable is where its value has come to lie. -/
  declares : ∀ place name value, st = .declare place name value → start.scope.isSome →
    stop.slotOf? name = some (height start.chunk.size) ∧ stop.localCount = start.localCount + 1
  /-- An assignment writes to the slot of the variable that it names. -/
  assigns : ∀ place name value slot, st = .assign place name value →
    start.slotOf? name = some slot →
      whole.Has (stop.chunk.size - Opcode.deepSet.size) .deepSet [(slot : Int)] ∧
        start.nameAt? slot = some name ∧ slot < height start.chunk.size

/-- What the heights of a program say where an expression has been lowered. -/
structure Expr.Level (e : Expr) (whole : Chunk) (height : Nat → Nat) (start stop : Lowering) :
    Prop where
  above : start.localCount ≤ height start.chunk.size
  grows : height stop.chunk.size = height start.chunk.size + 1
  scope : stop.scope = start.scope
  /-- A reference reads the slot of the variable that it names. -/
  fetches : ∀ place name slot, e = .reference place name → start.slotOf? name = some slot →
    whole.Has start.chunk.size .deepGet [(slot : Int)] ∧ start.nameAt? slot = some name ∧
      slot < height start.chunk.size

/-- What the heights of a program say about a visit. -/
def Visit.Level (visit : Visit) (whole : Chunk) (height : Nat → Nat) : Prop :=
  match visit.piece with
  | .statement st => st.Level whole height visit.start visit.stop
  | .expression e => e.Level whole height visit.start visit.stop

/-- A scope in which nothing has been declared is the same. -/
theorem Scope.Deepens.eq_of_size {scope later : Option Scope} (h : Scope.Deepens scope later)
    (same : scope.elim 0 Scope.size = later.elim 0 Scope.size) : later = scope := by
  cases scope with
  | none => exact h
  | some scope =>
      obtain ⟨declared, rfl⟩ := h
      have none_declared : declared = [] := by simpa [Scope.size] using same
      rw [none_declared, List.nil_append]

section Levels

variable {whole : Chunk} {lines : List Line} {start stop : Lowering} {ctx : Context}
  {extra : Nat} {depth : Depth}

/-- A statement that returns has code. -/
theorem Stmt.goesOn_of_code {st : Stmt} {offset : Nat} (empty : st.code offset ctx = []) :
    st.isReturn = false := by
  cases st with
  | ret place value => cases value <;> simp [Stmt.code] at empty
  | _ => rfl

/-- The mark of a piece holds where it begins. -/
theorem Piece.Stands.reaches {p : Piece} (h : p.Stands lines start ctx extra) :
    Reaches lines start.chunk.size (ctx.mark extra) := by
  cases p with
  | statement st =>
      obtain ⟨rfl, legal⟩ := h.legal
      have opens : Line.Opens (ctx.mark 0) ((ctx.after st).mark 0) (st.code start.chunk.size ctx) :=
        .of_carries _ fun _ => st.carries h.fair start.chunk.size legal
      exact h.part.reaches opens fun empty => h.behind (Stmt.goesOn_of_code empty)
  | expression e => exact h.part.reaches (e.opens h.fair extra) fun _ => h.behind rfl

/-- A line of the draft of a piece is found in the finished program. -/
theorem Piece.Stands.has {p : Piece} (h : p.Stands lines start ctx extra)
    (assembled : whole.Assembled lines) (front : List Line) {line : Line} {operands : List Int}
    (same : p.code start.chunk.size ctx extra = front ++ [line])
    (means : ∀ found, whole.Resolves line.instr found → found = operands) :
    whole.Has (start.chunk.size + extent front) line.instr.op operands := by
  have mem : (start.chunk.size + extent front, line) ∈
      placed start.chunk.size (p.code start.chunk.size ctx extra) := by
    simp [same]
  obtain ⟨found, has, resolves⟩ := assembled.mem_of_line (h.part.mem mem)
  exact means found resolves ▸ has

/-- The slot of a name holds the variable of that name. -/
theorem Drafting.nameAt?_eq {name : String} {slot : Nat} {base : Chunk} {code : List Line}
    (h : Drafting base code ctx start) (found : start.slotOf? name = some slot) :
    ctx.slot? name = some slot ∧ start.nameAt? slot = some name := by
  have inside := (h.slot? name).symm.trans found
  refine ⟨inside, ?_⟩
  have described := h.described
  rw [Context.slot?, Option.map_eq_some_iff] at inside
  obtain ⟨index, within, rfl⟩ := inside
  obtain ⟨bound, same, -⟩ := List.findIdx?_eq_some_iff_getElem.mp within
  unfold Lowering.nameAt?
  cases outside : start.scope with
  | none =>
      rw [outside] at described
      obtain rfl := described
      simp [Context.top] at bound
  | some scope =>
      rw [outside] at described
      have back : ctx.names.length - 1 - (ctx.names.length - 1 - index) = index := by omega
      rw [Option.bind_some, described.2.1, List.getElem?_reverse (by omega), back,
        List.getElem?_eq_getElem bound, eq_of_beq same]

/-- The height at a statement counts the variables in scope, before and behind it. -/
theorem Piece.Stands.stmt_level {st : Stmt} (h : (Piece.statement st).Stands lines start ctx extra)
    (assembled : whole.Assembled lines) (runs : Lowering.statement depth st start = .ok () stop) :
    st.Level whole (Line.heightAt lines) start stop := by
  obtain ⟨rfl, legal⟩ := h.legal
  obtain ⟨drafted, deeper, -⟩ :=
    (Lowering.statement_follows start.chunk st h.drafted depth).of_ok runs
  rw [List.nil_append, Line.extent_nil, Nat.add_zero] at drafted
  have before : Line.heightAt lines start.chunk.size = start.localCount :=
    (Line.heightAt_eq h.reaches).trans h.drafted.localCount.symm
  have counted : start.localCount = ctx.names.length := h.drafted.localCount
  have counted' : stop.localCount = (ctx.after st).names.length := drafted.localCount
  refine ⟨before, fun goesOn => ?_, fun neutral => ?_, ?_, ?_⟩
  · rw [drafted.size_eq]
    exact (Line.heightAt_eq (h.behind goesOn)).trans counted'.symm
  · refine deeper.eq_of_size (counted.trans (Eq.trans ?_ counted'.symm))
    cases st with
    | declare place name value => exact absurd rfl (neutral place name value)
    | _ => rfl
  · rintro place name value rfl inside
    rw [← h.drafted.home_isSome] at inside
    have names : ctx.after (.declare place name value) =
        { ctx with names := name :: ctx.names } := by
      rw [Context.after, Context.declare, if_pos inside]
    rw [names] at drafted counted'
    refine ⟨?_, by rw [counted', counted]; rfl⟩
    rw [before, counted]
    refine (drafted.slot? name).trans ?_
    simp [Context.slot?, List.findIdx?_cons]
  · rintro place name value slot rfl found
    obtain ⟨inside, names⟩ := h.drafted.nameAt?_eq found
    have store : ctx.store name = .deepSet slot := by rw [Context.store, inside]
    have has := h.has assembled (value.code ctx 0) rfl fun found resolves =>
      show found = [(slot : Int)] by rwa [Context.line_instr, store] at resolves
    refine ⟨?_, names, ?_⟩
    · rw [Context.line_instr, store] at has
      rw [drafted.size_eq, Stmt.code, store]
      simpa [Instr.op, ← Nat.add_assoc] using has
    · rw [before, counted]
      exact (h.fair.slot? inside).2

/-- An expression leaves one more value on the stack than there was. -/
theorem Piece.Stands.expr_level {e : Expr} (h : (Piece.expression e).Stands lines start ctx extra)
    (assembled : whole.Assembled lines) (runs : Lowering.expression depth e start = .ok () stop) :
    e.Level whole (Line.heightAt lines) start stop := by
  obtain ⟨drafted, scope⟩ := (Lowering.expression_ensures e h.drafted depth extra).of_ok runs
  have before := Line.heightAt_eq h.reaches
  have counted : start.localCount = ctx.names.length := h.drafted.localCount
  have above : start.localCount ≤ Line.heightAt lines start.chunk.size := by
    rw [before, counted]
    exact Nat.le_add_right _ _
  refine ⟨above, ?_, scope, ?_⟩
  · rw [drafted.size_eq, List.nil_append, before]
    exact Line.heightAt_eq (h.behind rfl)
  · rintro place name slot rfl found
    obtain ⟨inside, names⟩ := h.drafted.nameAt?_eq found
    have fetch : ctx.fetch name = .deepGet slot := by rw [Context.fetch, inside]
    have has := h.has assembled [] rfl fun found resolves =>
      show found = [(slot : Int)] by rwa [Context.line_instr, fetch] at resolves
    rw [Context.line_instr, fetch] at has
    refine ⟨has, names, Nat.lt_of_lt_of_le ?_ above⟩
    rw [counted]
    exact (h.fair.slot? inside).2

theorem Piece.Stands.level {visit : Visit} (h : visit.piece.Stands lines visit.start ctx extra)
    (assembled : whole.Assembled lines)
    (runs : visit.piece.lower depth visit.start = .ok () visit.stop) :
    visit.Level whole (Line.heightAt lines) := by
  obtain ⟨piece, start, stop⟩ := visit
  cases piece with
  | statement st => exact h.stmt_level assembled runs
  | expression e => exact h.expr_level assembled runs

end Levels

/-- In the code of a program the height of the stack above the innermost frame is a function of
the place in the code, whatever limits the machine has and however it has come there. Every
statement of the program has been lowered, with all that is part of it, and where that was, the
height is the number of variables in scope there. -/
theorem Chunk.Logged.heights {poolSize limit bytes : Nat} {chunk whole : Chunk}
    {log : List (Chunk × Stmt)} {program : List Node} (small : poolSize ≤ Chunk.maxPoolSize)
    (logged : chunk.Logged poolSize log)
    (added : chunk.addProgram limit program = (whole, .ok bytes)) :
    ∃ height : Nat → Nat,
      (∀ stackLimit frameLimit steps (m : Machine) (offset : Nat),
        m = ((Machine.new stackLimit frameLimit).load whole).after steps → m.halted = false →
          m.ip = offset → m.stack.size = m.frames.back?.getD 0 + height offset) ∧
      ∀ entry ∈ log ++ chunk.additions limit program,
        (∃ stop, entry.2.Visits entry.1 ⟨.statement entry.2, ⟨entry.1, none⟩, stop⟩) ∧
        ∀ visit, entry.2.Visits entry.1 visit → visit.Level whole height ∧
          ∀ part, visit.piece.HasPart part →
            ∃ start stop, entry.2.Visits entry.1 ⟨part, start, stop⟩ := by
  rw [Chunk.addProgram] at added
  split at added
  · cases (Prod.mk.inj added).2
  rename_i filled count accepted
  obtain ⟨body, legal, assembled, entries⟩ := (logged.addNodes accepted).assembled small
  generalize program.getLast?.bind Node.location? = place at added
  split at added
  · cases (Prod.mk.inj added).2
  rename_i final offset appended
  obtain ⟨rfl, -⟩ := Prod.mk.inj added
  have line : filled.addLines [exitLine place] = some final := by
    rw [addLines_singleton, addLine]
    simp only [exitLine, identify, Instr.op, appended]
  have runs := Runs.of_assembled legal (assembled.addLines line)
  refine ⟨Line.heightAt (listCode 0 .top body ++ [exitLine place]), ?_, ?_⟩
  · rintro stackLimit frameLimit steps m offset reached running ip
    have steady := (Machine.steady_load runs stackLimit frameLimit).after runs rfl steps
    rw [← reached] at steady
    rcases steady with halted | ⟨start, line, sound⟩
    · simp [halted] at running
    · obtain rfl : start = offset := Int.natCast_inj.mp (sound.ip.symm.trans ip)
      rw [Line.heightAt_eq ⟨line, sound.listed, rfl⟩, ← Array.getLast?_toList]
      exact sound.stacked.length_eq
  · intro entry mem
    refine ⟨(logged.addNodes accepted).visits_self mem, fun visit visits => ⟨?_, fun part is => ?_⟩⟩
    · obtain ⟨roomy, front, back, rfl, size⟩ := entries entry mem
      obtain ⟨ctx, extra, stands⟩ := visits.comes.stands (stands_of_log legal roomy size)
      obtain ⟨depth, ends⟩ := visits.ends
      exact stands.level runs.assembled ends
    · obtain ⟨start, stop, -, next⟩ := visits.part is
      exact ⟨start, stop, next⟩

/-- In the body of the function there is its argument, and above it when the body is done. -/
theorem Chunk.heights_identity :
    ∃ whole, ∃ height : Nat → Nat,
      (Chunk.empty 256).addProgram 10 Node.callIdentity = (whole, .ok 16) ∧
      (∀ stackLimit frameLimit steps (m : Machine) (offset : Nat),
        m = ((Machine.new stackLimit frameLimit).load whole).after steps → m.halted = false →
          m.ip = offset → m.stack.size = m.frames.back?.getD 0 + height offset) ∧
      height 7 = 1 := by
  have added : (Chunk.empty 256).addProgram 10 Node.callIdentity =
      (((Chunk.empty 256).addProgram 10 Node.callIdentity).1, .ok 16) :=
    Chunk.eq_ok_of_bytes (by decide +kernel)
  obtain ⟨height, heights, levels⟩ := Chunk.Logged.heights (by decide) .empty added
  refine ⟨_, height, added, heights, ?_⟩
  let start : Lowering := ⟨empty 256, none⟩
  let body : Stmt := .ret default (some (.reference default "x"))
  have inner : (((Lowering.functionHead default "same" [⟨default, "x"⟩]).ending? start).bind
      fun entered => ((Lowering.statement ⟨default, 10⟩ body).ending? entered).map fun _ =>
        (entered.chunk.size, entered.localCount)) = some (7, 1) := by decide +kernel
  obtain ⟨entered, heads, rest⟩ := Option.bind_eq_some_iff.mp inner
  obtain ⟨stop, returns, counts⟩ := Option.map_eq_some_iff.mp rest
  obtain ⟨skip, head⟩ := Lower.exists_of_ending? heads
  obtain ⟨_, ends⟩ := Lower.exists_of_ending? returns
  obtain ⟨size, locals⟩ := Prod.mk.inj counts
  have enters : Lowering.Enters (.statement .identity) start (.statement body) entered :=
    @Lowering.Enters.body _ _ _ _ [] _ _ _ _ _ _ ⟨default, 10⟩ head rfl (by simp)
  have visits : Stmt.identity.Visits (empty 256) ⟨.statement body, entered, stop⟩ :=
    ⟨.next .here enters, _, ends⟩
  have level := ((levels (empty 256, .identity) List.mem_cons_self).2 _ visits).1
  rw [← size, ← locals]
  exact level.before

end StackScript
