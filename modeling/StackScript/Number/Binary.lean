/-
# Binary expansion of numbers

Numbers of the language are double precision floating point numbers. A finite
one is a signed whole number times a power of two; this module goes back and
forth between the two views. The exact text of a number and the exact
remainder of two numbers are whole number arithmetic on this expansion.
-/

namespace StackScript.Number

/-- A power of two. -/
def twoTo (exponent : Nat) : Nat := Nat.pow 2 exponent

/-- The number `±significand * 2 ^ exponent`. The sign is kept apart because
zero has one, too. -/
structure Binary where
  negative : Bool
  significand : Nat
  exponent : Int
deriving DecidableEq, Inhabited, Repr

namespace Binary

/-- The least exponent of a double precision number. -/
def minExponent : Int := -1074

/-- Reads the fields of a finite double: the significand has a hidden leading
bit unless the exponent field is zero, and the least exponent field above zero
stands for the same power of two as the field zero. -/
def ofBits (bits : Nat) : Binary :=
  let field := bits / twoTo 52 % twoTo 11
  let fraction := bits % twoTo 52
  { negative := bits / twoTo 63 = 1
    significand := if field = 0 then fraction else twoTo 52 + fraction
    exponent := minExponent + (field - 1 : Nat) }

/-- The expansion of a finite number. -/
def ofFloat (x : Float) : Binary := ofBits x.toBits.toNat

/-- Writes an expansion whose significand is below `2 ^ 53` and whose exponent
is not below the least one. The significand is first shifted left as far as
the format allows; then the exponent field is one more than the distance from
the least exponent, less the hidden bit, so that plain addition sets both. -/
def toBits (x : Binary) : Nat :=
  let room := (x.exponent - minExponent).toNat
  let shift := min (52 - x.significand.log2) room
  let sign := if x.negative then twoTo 63 else 0
  if x.significand = 0 then sign
  else sign + ((room - shift) * twoTo 52 + x.significand * twoTo shift)

/-- The number with a given expansion. -/
def toFloat (x : Binary) : Float := Float.ofBits (UInt64.ofNat x.toBits)

end Binary

end StackScript.Number
