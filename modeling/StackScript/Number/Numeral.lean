/-
# Numerals

The value of a number as it is written in a program: digits with an optional
point and an optional power of ten. The value is the nearest number of the
format, whatever the count of digits and the size of the exponent.
-/

namespace StackScript.Number

/-- A written number means `digits * 10 ^ exponent`, where the digits are a
numeral without a point. -/
structure Numeral where
  digits : List Char
  exponent : Int
deriving DecidableEq, Inhabited, Repr

namespace Numeral

/-- The value of a decimal digit. -/
def digitValue (c : Char) : Nat := c.toNat - '0'.toNat

/-- The value of a row of decimal digits. -/
def naturalOf (digits : List Char) : Nat :=
  digits.foldl (fun value c => 10 * value + digitValue c) 0

/-- The exponent that follows the digits, if any: a letter, a sign that may be
left out, and digits. -/
def readExponent : List Char → Int
  | [] => 0
  | _ :: '-' :: digits => -naturalOf digits
  | _ :: '+' :: digits => naturalOf digits
  | _ :: digits => naturalOf digits

/-- Splits a written number into its digits and its exponent. Each digit after
the point lowers the exponent by one. -/
def ofText (text : List Char) : Numeral :=
  let whole := text.takeWhile Char.isDigit
  match text.dropWhile Char.isDigit with
  | '.' :: rest =>
    let fraction := rest.takeWhile Char.isDigit
    { digits := whole ++ fraction
      exponent := readExponent (rest.dropWhile Char.isDigit) - fraction.length }
  | rest => { digits := whole, exponent := readExponent rest }

/-- The nearest number. A value with its first digit far outside the range of
the format is settled by that digit's position, so that the power of ten is
computed only where it has an influence. -/
def value (numeral : Numeral) : Float :=
  let significant := numeral.digits.dropWhile (· == '0')
  let position := numeral.exponent + significant.length
  if significant = [] || position < -400 then 0.0
  else if 400 < position then 1.0 / 0.0
  else Float.ofScientific (naturalOf significant) (numeral.exponent < 0) numeral.exponent.natAbs

end Numeral

end StackScript.Number
