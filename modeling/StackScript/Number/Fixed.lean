/-
# Numbers with fixed decimal places

A number is shown with six decimal places. The places are those of its exact
value, rounded to the nearest, and a tie goes to the even neighbour.
-/

import StackScript.Number.Binary

namespace StackScript.Number

/-- The whole number nearest to a quotient; of two equally near ones, the even one. -/
def roundQuotient (numerator denominator : Nat) : Nat :=
  let quotient := numerator / denominator
  let twice := 2 * (numerator % denominator)
  if twice < denominator then quotient
  else if denominator < twice then quotient + 1
  else quotient + quotient % 2

/-- A power of ten. -/
def tenTo (exponent : Nat) : Nat := Nat.pow 10 exponent

/-- The absolute value of a number in units of `10 ^ -places`, rounded. -/
def Binary.scaled (x : Binary) (places : Nat) : Nat :=
  if 0 ≤ x.exponent then x.significand * twoTo x.exponent.toNat * tenTo places
  else roundQuotient (x.significand * tenTo places) (twoTo (-x.exponent).toNat)

/-- A natural number in decimal digits, with zeros in front up to a width. -/
def paddedDigits (width n : Nat) : String :=
  String.ofList ((Nat.toDigits 10 n).leftpad width '0')

/-- A finite number with a positive number of decimal places. -/
def Binary.fixed (x : Binary) (places : Nat) : String :=
  let units := x.scaled places
  (if x.negative then "-" else "") ++ toString (units / tenTo places) ++ "." ++
    paddedDigits places (units % tenTo places)

/-- The number of decimal places that the language shows. -/
def shownPlaces : Nat := 6

/-- How a number is shown. Infinity keeps its sign; a number that is none does not. -/
def text (x : Float) : String :=
  if x.isNaN then "nan"
  else if x.isInf then (if x < 0 then "-inf" else "inf")
  else (Binary.ofFloat x).fixed shownPlaces

end StackScript.Number
