/-
# Interning loses nothing

Whatever has been asked of a pool since it was cleared last, it holds the distinct values among
that, as many as it has room for, each as it came first. An identifier leads to its entry until the
pool is cleared. A value is refused only if it is new and the pool is full.

Of the equality of entries it is used only that it is symmetric and transitive. A number that is
none is not equal to itself, so that each one is distinct from all that came before it.
-/

import Mathlib
import StackScript.Proofs.Draft.Assembly

namespace StackScript.Pool

variable {α : Type}

/-- What can be asked of a pool that may change it. -/
inductive Call (α : Type) where
  | intern (value : α)
  | clear

/-- The values that have been asked for since the last time that everything was forgotten. -/
def asked (calls : List (Call α)) : List α :=
  calls.foldl (fun values call => match call with
    | .intern value => values ++ [value]
    | .clear => []) []

theorem asked_intern (calls : List (Call α)) (value : α) :
    asked (calls ++ [.intern value]) = asked calls ++ [value] := by
  rw [asked, List.foldl_append]
  rfl

theorem asked_clear (calls : List (Call α)) : asked (calls ++ [.clear]) = [] := by
  rw [asked, List.foldl_append]
  rfl

section Representatives

variable [BEq α] [PartialEquivBEq α]

/-- The last one of some values is distinct from the others, or an earlier one stands for it. -/
theorem eraseDups_concat (values : List α) (value : α) :
    (values ++ [value]).eraseDups =
      if values.eraseDups.any (· == value) then values.eraseDups
      else values.eraseDups ++ [value] := by
  induction length : values.length using Nat.strong_induction_on generalizing values with
  | _ count ih =>
      cases values with
      | nil => simp [List.eraseDups_cons]
      | cons first rest =>
          rw [List.cons_append, List.eraseDups_cons, List.eraseDups_cons, List.filter_append]
          by_cases same : value == first
          · have same' : first == value := BEq.symm same
            simp [same, same']
          · have other : (first == value) = false := BEq.symm_false (by simpa using same)
            have shorter : (rest.filter fun later => !later == first).length < count := by
              rw [← length, List.length_cons]
              exact Nat.lt_succ_of_le (List.length_filter_le _ _)
            have tail := ih _ shorter _ rfl
            simp [same, other, tail]
            split <;> rfl

/-- Values without repetitions are distinct. -/
theorem pairwise_eraseDups (values : List α) :
    values.eraseDups.Pairwise fun earlier entry => (earlier == entry) = false := by
  induction values using List.reverseRecOn with
  | nil => exact List.Pairwise.nil
  | append_singleton values value ih =>
      rw [eraseDups_concat]
      split
      · exact ih
      · rename_i new
        refine List.pairwise_append.mpr ⟨ih, List.pairwise_singleton _ _, fun entry mem other is => ?_⟩
        obtain rfl := List.mem_singleton.mp is
        exact Bool.eq_false_iff.mpr fun equal => new (List.any_eq_true.mpr ⟨entry, mem, equal⟩)

end Representatives

variable [BEq α] {pool : Pool α} {value entry : α} {values : List α}

/-- The pool after a call. One that has no room for a value stays as it is. -/
def after (pool : Pool α) : Call α → Pool α
  | .intern value => (pool.intern? value).elim pool Prod.fst
  | .clear => pool.clear

/-- The pool after some calls, one after the other. -/
def afterAll (pool : Pool α) (calls : List (Call α)) : Pool α := calls.foldl after pool

theorem afterAll_concat (pool : Pool α) (calls : List (Call α)) (call : Call α) :
    pool.afterAll (calls ++ [call]) = (pool.afterAll calls).after call := by
  rw [afterAll, List.foldl_append]
  rfl

theorem find?_eq_none_iff :
    pool.find? value = none ↔ ∀ entry ∈ pool.entries.toList, (entry == value) = false := by
  rw [find?, Array.findIdx?_eq_none_iff]
  simp only [Array.mem_toList_iff]

theorem intern?_of_known {id : Nat} (known : pool.find? value = some id) :
    pool.intern? value = some (pool, id) := by
  simp only [intern?, known]

theorem intern?_of_room (new : pool.find? value = none) (room : pool.size < pool.capacity) :
    pool.intern? value =
      some ({ pool with entries := pool.entries.push value }, pool.size) := by
  simp only [intern?, new]
  exact if_neg (Nat.ne_of_lt room)

theorem intern?_of_full (new : pool.find? value = none) (full : pool.size = pool.capacity) :
    pool.intern? value = none := by
  simp only [intern?, new]
  exact if_pos full

/-- A pool holds the distinct ones among some values, as many as it has room for. -/
def Holds (pool : Pool α) (values : List α) : Prop :=
  pool.entries.toList = values.eraseDups.take pool.capacity

namespace Holds

theorem size_eq (h : pool.Holds values) : pool.size = min pool.capacity values.eraseDups.length := by
  rw [size, ← Array.length_toList, h, List.length_take]

theorem size_le (h : pool.Holds values) : pool.size ≤ pool.capacity :=
  h.size_eq.trans_le (Nat.min_le_left _ _)

variable [PartialEquivBEq α]

theorem distinct (h : pool.Holds values) :
    pool.entries.toList.Pairwise fun earlier entry => (earlier == entry) = false := by
  rw [h]
  exact (pairwise_eraseDups values).sublist (List.take_sublist _ _)

/-- A value that is asked for joins those before it, if it is new and there is room for it. -/
theorem intern (h : pool.Holds values) (value : α) :
    (pool.after (.intern value)).Holds (values ++ [value]) := by
  have joined := eraseDups_concat values value
  cases found : pool.find? value with
  | some id =>
      obtain ⟨bound, equal, -⟩ := Array.findIdx?_eq_some_iff_getElem.mp found
      have mem : pool.entries[id] ∈ values.eraseDups.take pool.capacity := by
        rw [← h, Array.mem_toList_iff]
        exact Array.getElem_mem bound
      rw [if_pos (List.any_eq_true.mpr ⟨_, List.mem_of_mem_take mem, equal⟩)] at joined
      rw [after, intern?_of_known found]
      exact h.trans (congrArg (List.take pool.capacity) joined.symm)
  | none =>
      rcases h.size_le.lt_or_eq with room | full
      · have all : values.eraseDups.take pool.capacity = values.eraseDups := by
          apply List.take_of_length_le
          have size := h.size_eq
          omega
        have new : ¬ values.eraseDups.any (· == value) := by
          rw [← all, ← h, List.any_eq_true]
          rintro ⟨entry, mem, equal⟩
          rw [find?_eq_none_iff.mp found entry mem] at equal
          cases equal
        rw [if_neg new] at joined
        have length : values.eraseDups.length = pool.size := by
          rw [size, ← Array.length_toList, h, all]
        rw [after, intern?_of_room found room]
        show (pool.entries.push value).toList = (values ++ [value]).eraseDups.take pool.capacity
        rw [joined, List.take_of_length_le (by simp; omega), Array.toList_push, h, all]
      · have enough : pool.capacity ≤ values.eraseDups.length := by
          have size := h.size_eq
          omega
        have same : (values ++ [value]).eraseDups.take pool.capacity =
            values.eraseDups.take pool.capacity := by
          rw [joined]
          split
          · rfl
          · exact List.take_append_of_le_length enough
        rw [after, intern?_of_full found full]
        exact h.trans same.symm

/-- Whatever a pool is asked for, it holds the values since it was cleared. -/
theorem afterAll (capacity : Nat) (calls : List (Call α)) :
    ((empty capacity).afterAll calls).Holds (asked calls) := by
  induction calls using List.reverseRecOn with
  | nil => exact List.take_nil.symm
  | append_singleton calls call ih =>
      rw [afterAll_concat]
      cases call with
      | intern value =>
          rw [asked_intern]
          exact ih.intern value
      | clear =>
          rw [asked_clear]
          exact List.take_nil.symm

end Holds

end StackScript.Pool
