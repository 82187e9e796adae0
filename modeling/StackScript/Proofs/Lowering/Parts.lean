/-
# Parts

A statement is not lowered before the statements and expressions in it are. If its lowering
succeeds, there has been a visit for each of them, except for the statements of a function that
come after one that returns.
-/

import StackScript.Proofs.Lowering.Visits

namespace StackScript

/-- A piece has another in it, and there is nothing in between. -/
inductive Piece.HasPart : Piece → Piece → Prop
  | operand {place : Location} {op : UnaryOp} {inner : Expr} :
      HasPart (.expression (.unary place op inner)) (.expression inner)
  | left {place : Location} {op : BinaryOp} {left right : Expr} :
      HasPart (.expression (.binary place op left right)) (.expression left)
  | right {place : Location} {op : BinaryOp} {left right : Expr} :
      HasPart (.expression (.binary place op left right)) (.expression right)
  | argument {place : Location} {callee : String} {front back : List Expr} {argument : Expr} :
      HasPart (.expression (.call place callee (front ++ argument :: back))) (.expression argument)
  | start {st : Stmt} {value : Expr} : st.operand? = some value →
      HasPart (.statement st) (.expression value)
  | guarded {st yes : Stmt} {condition : Expr} : st.guarded? = some (condition, yes) →
      HasPart (.statement st) (.statement yes)
  | otherwise {place : Location} {condition : Expr} {yes no : Stmt} :
      HasPart (.statement (.ifElse place condition yes no)) (.statement no)
  | member {place : Location} {front back : List Stmt} {st : Stmt} :
      HasPart (.statement (.block place (front ++ st :: back))) (.statement st)
  | body {place bodyPlace : Location} {name : String} {parameters : List Parameter}
      {front back : List Stmt} {st : Stmt} : (∀ earlier ∈ front, earlier.isReturn = false) →
      HasPart (.statement (.function place name parameters bodyPlace (front ++ st :: back)))
        (.statement st)

namespace Lower

variable {α β : Type} {x : Lower α} {f : α → Lower β} {s later : Lowering} {result : β}

/-- Steps that follow each other succeed if each of them does. -/
theorem bind_eq_ok : (x >>= f) s = .ok result later ↔
    ∃ value mid, x s = .ok value mid ∧ f value mid = .ok result later := by
  rw [show (x >>= f) s = EStateM.bind x f s from rfl, EStateM.bind]
  cases x s with
  | ok value mid =>
      constructor
      · exact fun run => ⟨value, mid, rfl, run⟩
      · rintro ⟨_, _, ⟨⟩, run⟩
        exact run
  | error failure mid =>
      constructor
      · nofun
      · rintro ⟨_, _, ⟨⟩, _⟩

/-- Something that is done one level further down has been done. -/
theorem done_below {depth : Depth} {x : Depth → Lower β}
    (run : (depth.deeper >>= x) s = .ok result later) :
    ∃ below, x below s = .ok result later := by
  obtain ⟨below, mid, deeper, run⟩ := bind_eq_ok.mp run
  obtain ⟨root, levels⟩ := depth
  cases levels with
  | zero => cases deeper
  | succ levels =>
      cases deeper
      exact ⟨_, run⟩

/-- The content of a block is lowered where the block begins. -/
theorem content_of_block {place : Location} {content : Lower Unit}
    (run : block place content s = .ok () later) : ∃ mid, content s.inBlock = .ok () mid := by
  obtain ⟨_, _, ⟨⟩, run⟩ := bind_eq_ok.mp run
  obtain ⟨_, _, ⟨⟩, run⟩ := bind_eq_ok.mp run
  obtain ⟨_, mid, run, -⟩ := bind_eq_ok.mp run
  exact ⟨mid, run⟩

end Lower

namespace Lowering

open Lower

variable {depth : Depth} {s later : Lowering}

/-- What is lowered in a row is lowered one by one, each behind those before it, as long as
none of these puts an end to the row. -/
theorem row_reaches {γ δ : Type} {one : Depth → γ → Lower Unit} {all : List γ → Lower Unit}
    {whole : List γ → Lower δ} {onward : γ → Prop} (all_nil : all [] = pure ())
    (all_cons : ∀ first rest, all (first :: rest) = do
      one (← depth.deeper) first
      all rest)
    (whole_cons : ∀ first rest, ∃ next, (onward first → next = whole rest) ∧
      whole (first :: rest) = do
        one (← depth.deeper) first
        next)
    {front back : List γ} {item : γ} (goesOn : ∀ earlier ∈ front, onward earlier) {result : δ}
    (run : whole (front ++ item :: back) s = .ok result later) :
    ∃ mid, all front s = .ok () mid ∧ ∃ below stop, one below item mid = .ok () stop := by
  induction front generalizing s with
  | nil =>
      obtain ⟨next, -, same⟩ := whole_cons item back
      rw [List.nil_append, same] at run
      obtain ⟨below, run⟩ := done_below run
      obtain ⟨_, stop, lowered, -⟩ := bind_eq_ok.mp run
      exact ⟨s, by rw [all_nil]; rfl, below, stop, lowered⟩
  | cons first rest ih =>
      obtain ⟨next, onward, same⟩ := whole_cons first (rest ++ item :: back)
      rw [List.cons_append, same, onward (goesOn first List.mem_cons_self)] at run
      obtain ⟨below, start, deeper, run⟩ := bind_eq_ok.mp run
      obtain ⟨_, behind, lowered, run⟩ := bind_eq_ok.mp run
      obtain ⟨mid, before, here⟩ :=
        ih (fun earlier mem => goesOn earlier (List.mem_cons_of_mem first mem)) run
      refine ⟨mid, ?_, here⟩
      rw [all_cons]
      exact bind_eq_ok.mpr ⟨_, _, deeper, bind_eq_ok.mpr ⟨_, _, lowered, before⟩⟩

theorem statement_of_list {front back : List Stmt} {st : Stmt}
    (run : statementList depth (front ++ st :: back) s = .ok () later) :
    ∃ mid, statementList depth front s = .ok () mid ∧
      ∃ below stop, statement below st mid = .ok () stop :=
  row_reaches (by rw [statementList]) (fun _ _ => by rw [statementList])
    (fun _ rest => ⟨statementList depth rest, fun (_ : True) => rfl, by rw [statementList]⟩)
    (fun _ _ => trivial) run

/-- The statements of a function are lowered up to the first that returns. -/
theorem statement_of_body {front back : List Stmt} {st : Stmt} {returned : Bool}
    (goesOn : ∀ earlier ∈ front, earlier.isReturn = false)
    (run : functionBody depth (front ++ st :: back) s = .ok returned later) :
    ∃ mid, statementList depth front s = .ok () mid ∧
      ∃ below stop, statement below st mid = .ok () stop := by
  refine row_reaches (by rw [statementList]) (fun _ _ => by rw [statementList]) ?_ goesOn run
  intro first rest
  refine ⟨if first.isReturn then return true else functionBody depth rest, fun goes => ?_, ?_⟩
  · rw [goes]
    rfl
  · rw [functionBody]

theorem expression_of_list {front back : List Expr} {argument : Expr}
    (run : argumentList depth (front ++ argument :: back) s = .ok () later) :
    ∃ mid, argumentList depth front s = .ok () mid ∧
      ∃ below stop, expression below argument mid = .ok () stop :=
  row_reaches (by rw [argumentList]) (fun _ _ => by rw [argumentList])
    (fun _ rest => ⟨argumentList depth rest, fun (_ : True) => rfl, by rw [argumentList]⟩)
    (fun _ _ => trivial) run

/-- The first expression of a statement is lowered where the statement is. -/
theorem expression_of_operand {st : Stmt} {value : Expr} (found : st.operand? = some value)
    (run : statement depth st s = .ok () later) :
    ∃ stop, expression depth value s = .ok () stop := by
  cases st with
  | expression | print | declare | assign | ifThen | ifElse =>
      cases found
      rw [statement] at run
      obtain ⟨_, stop, lowered, -⟩ := bind_eq_ok.mp run
      exact ⟨stop, lowered⟩
  | loop =>
      cases found
      rw [statement] at run
      obtain ⟨_, _, ⟨⟩, run⟩ := bind_eq_ok.mp run
      obtain ⟨_, stop, lowered, -⟩ := bind_eq_ok.mp run
      exact ⟨stop, lowered⟩
  | ret place result =>
      cases found
      rw [statement] at run
      obtain ⟨_, _, ⟨⟩, run⟩ := bind_eq_ok.mp run
      split at run
      · cases run
      · obtain ⟨_, stop, lowered, -⟩ := bind_eq_ok.mp run
        exact ⟨stop, lowered⟩
  | block | function => cases found

/-- A guarded statement is lowered as a block, behind its condition and a jump. -/
theorem statement_of_guarded {st yes : Stmt} {condition : Expr}
    (found : st.guarded? = some (condition, yes)) (run : statement depth st s = .ok () later) :
    ∃ tested skip jumped, expression depth condition s = .ok () tested ∧
      jump st.location .jz tested = .ok skip jumped ∧
      ∃ below stop, statement below yes jumped.inBlock = .ok () stop := by
  cases st with
  | ifThen | ifElse =>
      cases found
      rw [statement] at run
      obtain ⟨_, tested, test, run⟩ := bind_eq_ok.mp run
      obtain ⟨skip, jumped, jumps, run⟩ := bind_eq_ok.mp run
      obtain ⟨_, _, block, -⟩ := bind_eq_ok.mp run
      obtain ⟨stop, content⟩ := content_of_block block
      obtain ⟨below, lowered⟩ := done_below content
      exact ⟨tested, skip, jumped, test, jumps, below, stop, lowered⟩
  | loop =>
      cases found
      rw [statement] at run
      obtain ⟨_, _, ⟨⟩, run⟩ := bind_eq_ok.mp run
      obtain ⟨_, tested, test, run⟩ := bind_eq_ok.mp run
      obtain ⟨skip, jumped, jumps, run⟩ := bind_eq_ok.mp run
      obtain ⟨_, _, block, -⟩ := bind_eq_ok.mp run
      obtain ⟨stop, content⟩ := content_of_block block
      obtain ⟨below, lowered⟩ := done_below content
      exact ⟨tested, skip, jumped, test, jumps, below, stop, lowered⟩
  | _ => cases found

/-- Each part of a piece that is lowered is lowered on the way. -/
theorem enters_part {p q : Piece} (part : p.HasPart q) (run : p.lower depth s = .ok () later) :
    ∃ start, Enters p s q start ∧ ∃ below stop, q.lower below start = .ok () stop := by
  cases part with
  | operand =>
      change expression depth _ s = .ok () later at run
      rw [expression] at run
      obtain ⟨below, run⟩ := done_below run
      obtain ⟨_, stop, lowered, -⟩ := bind_eq_ok.mp run
      exact ⟨s, .operand, below, stop, lowered⟩
  | left =>
      change expression depth _ s = .ok () later at run
      rw [expression] at run
      obtain ⟨below, run⟩ := done_below run
      obtain ⟨_, stop, lowered, -⟩ := bind_eq_ok.mp run
      exact ⟨s, .left, below, stop, lowered⟩
  | right =>
      change expression depth _ s = .ok () later at run
      rw [expression] at run
      obtain ⟨below, run⟩ := done_below run
      obtain ⟨_, mid, before, run⟩ := bind_eq_ok.mp run
      split at run
      · obtain ⟨_, _, ⟨⟩, run⟩ := bind_eq_ok.mp run
        obtain ⟨_, stop, lowered, -⟩ := bind_eq_ok.mp run
        exact ⟨mid, .right before, depth, stop, lowered⟩
      · obtain ⟨below, run⟩ := done_below run
        obtain ⟨_, stop, lowered, -⟩ := bind_eq_ok.mp run
        exact ⟨mid, .right before, below, stop, lowered⟩
  | @argument place callee front back argument =>
      change expression depth _ s = .ok () later at run
      rw [expression] at run
      cases extra : (front ++ argument :: back)[maxArguments]? with
      | some extra =>
          simp only [extra] at run
          cases run
      | none =>
          simp only [extra] at run
          obtain ⟨_, _, arguments, -⟩ := bind_eq_ok.mp run
          obtain ⟨mid, before, below, stop, lowered⟩ := expression_of_list arguments
          exact ⟨mid, .argument before, below, stop, lowered⟩
  | start found =>
      obtain ⟨stop, lowered⟩ := expression_of_operand found run
      exact ⟨s, .start found, depth, stop, lowered⟩
  | guarded found =>
      obtain ⟨tested, skip, jumped, test, jumps, below, stop, lowered⟩ :=
        statement_of_guarded found run
      exact ⟨_, .guarded found test jumps, below, stop, lowered⟩
  | otherwise =>
      change statement depth _ s = .ok () later at run
      rw [statement] at run
      obtain ⟨_, tested, test, run⟩ := bind_eq_ok.mp run
      obtain ⟨skip, jumped, jumps, run⟩ := bind_eq_ok.mp run
      obtain ⟨_, branched, branch, run⟩ := bind_eq_ok.mp run
      obtain ⟨leave, left, leaves, run⟩ := bind_eq_ok.mp run
      obtain ⟨_, _, ⟨⟩, run⟩ := bind_eq_ok.mp run
      obtain ⟨_, settled, settles, run⟩ := bind_eq_ok.mp run
      obtain ⟨_, _, block, -⟩ := bind_eq_ok.mp run
      obtain ⟨stop, content⟩ := content_of_block block
      obtain ⟨below, lowered⟩ := done_below content
      exact ⟨_, .otherwise test jumps branch leaves settles, below, stop, lowered⟩
  | member =>
      change statement depth _ s = .ok () later at run
      rw [statement] at run
      obtain ⟨_, content⟩ := content_of_block run
      obtain ⟨mid, before, below, stop, lowered⟩ := statement_of_list content
      exact ⟨mid, .member before, below, stop, lowered⟩
  | body goesOn =>
      change statement depth _ s = .ok () later at run
      rw [statement] at run
      obtain ⟨skip, entered, head, run⟩ := bind_eq_ok.mp run
      obtain ⟨_, _, content, -⟩ := bind_eq_ok.mp run
      obtain ⟨mid, before, below, stop, lowered⟩ := statement_of_body goesOn content
      exact ⟨mid, .body head before goesOn, below, stop, lowered⟩

end Lowering

/-- A statement that is accepted is visited itself. -/
theorem Stmt.visits_self {st : Stmt} {chunk later : Chunk} {limit bytes : Nat}
    (added : chunk.addStatement limit st = (later, .ok bytes)) :
    ∃ stop, st.Visits chunk ⟨.statement st, ⟨chunk, none⟩, stop⟩ := by
  unfold Chunk.addStatement at added
  dsimp only at added
  split at added
  · rename_i stop lowered
    exact ⟨stop, .here, _, lowered⟩
  · cases (Prod.mk.inj added).2
  · cases (Prod.mk.inj added).2

/-- Whatever is visited, each part of it is visited next. -/
theorem Stmt.Visits.part {st : Stmt} {chunk : Chunk} {visit : Visit} {q : Piece}
    (h : st.Visits chunk visit) (part : visit.piece.HasPart q) :
    ∃ start stop, Lowering.Enters visit.piece visit.start q start ∧
      st.Visits chunk ⟨q, start, stop⟩ := by
  obtain ⟨depth, ends⟩ := h.ends
  obtain ⟨start, enters, below, stop, lowered⟩ := Lowering.enters_part part ends
  exact ⟨start, stop, enters, .next h.comes enters, below, lowered⟩

end StackScript
