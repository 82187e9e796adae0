/-
# Remainder and quotient of numbers

Division follows the floating point standard. The remainder is the exact one
of truncated division: it has the sign of the dividend and is smaller than the
divisor in absolute value, and it always fits the format, so no rounding takes
place.
-/

import StackScript.Number.Binary

namespace StackScript.Number

/-- The number that is none. -/
def notANumber : Float := 0.0 / 0.0

/-- The exact remainder of two finite numbers, the second of them not zero:
both significands are brought to the smaller exponent and divided as naturals. -/
def Binary.remainder (x y : Binary) : Binary :=
  let exponent := min x.exponent y.exponent
  let dividend := x.significand * twoTo (x.exponent - exponent).toNat
  let divisor := y.significand * twoTo (y.exponent - exponent).toNat
  { negative := x.negative, significand := dividend % divisor, exponent := exponent }

/-- The remainder of any two numbers. An infinite dividend and a zero divisor
have none; an infinite divisor leaves the dividend as it is. -/
def remainder (x y : Float) : Float :=
  if x.isNaN || y.isNaN || x.isInf || y == 0.0 then notANumber
  else if y.isInf then x
  else ((Binary.ofFloat x).remainder (Binary.ofFloat y)).toFloat

end StackScript.Number
