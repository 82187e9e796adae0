/-
# Pools

Instructions name numbers and strings by small identifiers. A pool hands these
out: an entry that is equal to an earlier one shares its identifier, and the
others are numbered in the order in which they come.

Equality is that of the entries' own type. For numbers this means that the two
zeros share an entry, which keeps the sign of the first, and that every entry
that is no number is a new one.
-/

namespace StackScript

/-- At most `capacity` entries, in the order of their identifiers. -/
structure Pool (α : Type) where
  capacity : Nat
  entries : Array α
deriving Inhabited, Repr

namespace Pool

variable {α : Type}

/-- A pool without entries. -/
def empty (capacity : Nat) : Pool α := ⟨capacity, #[]⟩

/-- The number of entries. -/
def size (pool : Pool α) : Nat := pool.entries.size

/-- The identifier of the first entry that is equal to a value. -/
def find? [BEq α] (pool : Pool α) (value : α) : Option Nat :=
  pool.entries.findIdx? (· == value)

/-- The identifier of a value, and the pool with an entry for it. Only a new
entry needs room. -/
def intern? [BEq α] (pool : Pool α) (value : α) : Option (Pool α × Nat) :=
  match pool.find? value with
  | some id => some (pool, id)
  | none =>
    if pool.size = pool.capacity then none
    else some ({ pool with entries := pool.entries.push value }, pool.size)

/-- The entry with an identifier. -/
def get? (pool : Pool α) (id : Int) : Option α :=
  if 0 ≤ id then pool.entries[id.toNat]? else none

/-- Forgets all entries; the room stays the same. -/
def clear (pool : Pool α) : Pool α := empty pool.capacity

end Pool

end StackScript
