/-
# Hexadecimal digits

Bytes and code points are shown in lower-case hexadecimal digits of fixed
width.
-/

namespace StackScript.Text

/-- A number in lower-case hexadecimal digits, with zeros in front up to a width. -/
def hexDigits (width n : Nat) : List Char := (Nat.toDigits 16 n).leftpad width '0'

/-- A byte in two hexadecimal digits, marked as such. -/
def byteText (byte : UInt8) : String := "0x" ++ String.ofList (hexDigits 2 byte.toNat)

end StackScript.Text
