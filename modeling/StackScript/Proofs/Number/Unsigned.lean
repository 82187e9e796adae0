/-
# Numbers without a sign

Equal numbers are interchangeable, except for the two zeros, which differ in their
sign, and for what is no number, which is equal to nothing. A numeral has no sign.
Numerals with equal values therefore have the very same value.
-/

import Mathlib
import StackScript.Number.Numeral

namespace StackScript.Number

open Float.Model Float.Model.UnpackedFloat

/-- A number, in its parts, that has no minus sign. -/
inductive Bare : UnpackedFloat → Prop
  | notANumber : Bare .notANumber
  | infinity : Bare (.infinity .positive)
  | zero : Bare (.zero .positive)
  | finite (mantissa : Nat) (exponent : Int) (pos : 0 < mantissa) :
      Bare (.finite .positive mantissa exponent pos)

/-- The bits of a number have no minus sign. -/
def BareBits (bits : BitVec 64) : Prop := @unpackSign Format.binary64 bits = 0#1

/-- A number without a minus sign. -/
def Unsigned (x : Float) : Prop := BareBits x.toModel.toBits.toBitVec

instance (x : Float) : Decidable (Unsigned x) :=
  inferInstanceAs (Decidable (@unpackSign Format.binary64 x.toModel.toBits.toBitVec = 0#1))

theorem bare_unpack {bits : BitVec 64} (h : BareBits bits) :
    Bare (UnpackedFloat.unpack Format.binary64 bits) := by
  have positive : Sign.ofBitVec (@unpackSign Format.binary64 bits) = .positive := if_pos h
  unfold UnpackedFloat.unpack
  simp only [positive]
  split
  · split
    · exact .infinity
    · exact .notANumber
  · split
    · split
      · exact .zero
      · exact .finite _ _ _
    · exact .finite _ _ _

theorem bareBits_packComponents (exponent : BitVec 11) (mantissa : BitVec 52) :
    BareBits (packComponents Format.binary64 .positive exponent mantissa) := by
  unfold BareBits packComponents
  ext i inside
  have first : i = 0 := by omega
  subst first
  have top : (((0#1 ++ exponent) ++ mantissa) : BitVec 64).getLsbD 63 = false := by
    rw [BitVec.getLsbD_append, BitVec.getLsbD_append]
    simp
  simp only [unpackSign, Sign.toBitVec]
  simp
  exact top

theorem bareBits_pack {x : UnpackedFloat} (h : Bare x) :
    BareBits (UnpackedFloat.pack Format.binary64 x) := by
  cases h with
  | notANumber | infinity | zero => exact bareBits_packComponents _ _
  | finite mantissa exponent pos =>
      unfold UnpackedFloat.pack
      simp only []
      split
      · exact bareBits_packComponents _ _
      · split <;> exact bareBits_packComponents _ _

theorem unsigned_pack {x : UnpackedFloat} (h : Bare x) :
    Unsigned (.ofModel (.pack x)) := bareBits_pack h

theorem bare_round (mantissa : Nat) (exponent : Int) (accuracy : Accuracy) :
    Bare (roundWithAccuracy Format.binary64 .positive mantissa exponent accuracy) := by
  unfold roundWithAccuracy
  simp only []
  split
  · exact .zero
  · exact .finite _ _ _

theorem bare_div {x y : UnpackedFloat} (h : Bare x) (h' : Bare y) :
    Bare (UnpackedFloat.div Format.binary64 x y) := by
  cases h <;> cases h' <;> first
    | exact .notANumber
    | exact .infinity
    | exact .zero
    | exact bare_round _ _ _

theorem bare_mul {x y : UnpackedFloat} (h : Bare x) (h' : Bare y) :
    Bare (UnpackedFloat.mul Format.binary64 x y) := by
  cases h <;> cases h' <;> first
    | exact .notANumber
    | exact .infinity
    | exact .zero
    | exact bare_round _ _ _

theorem bare_ofNat (n : Nat) : Bare (UnpackedFloat.ofNat Format.binary64 n) := by
  unfold UnpackedFloat.ofNat UnpackedFloat.ofInt UnpackedFloat.normalize
  split
  · rename_i less
    have : (n : Int) < 0 := Int.compare_eq_lt.mp less
    omega
  · exact .zero
  · exact bare_round _ _ _

theorem bare_ofScientific (mantissa : Nat) (exponent : Int) :
    Bare (UnpackedFloat.ofScientific Format.binary64 mantissa exponent) := by
  unfold UnpackedFloat.ofScientific
  split
  · exact .zero
  · split
    · exact .infinity
    · split
      · exact .zero
      · split
        · exact bare_mul (.finite _ _ _) (.finite _ _ _)
        · exact bare_div (.finite _ _ _) (.finite _ _ _)

theorem Unsigned.div {x y : Float} (h : Unsigned x) (h' : Unsigned y) : Unsigned (x / y) :=
  unsigned_pack (bare_div (bare_unpack h) (bare_unpack h'))

theorem Unsigned.mul {x y : Float} (h : Unsigned x) (h' : Unsigned y) : Unsigned (x * y) :=
  unsigned_pack (bare_mul (bare_unpack h) (bare_unpack h'))

theorem unsigned_powerOfTen {exponent : Nat}
    (h : exponent < Float.exactlyRepresentablePowersOfTen.size) :
    Unsigned Float.exactlyRepresentablePowersOfTen[exponent] := by
  have all : ∀ x ∈ Float.exactlyRepresentablePowersOfTen.toList, Unsigned x := by
    decide +kernel
  exact all _ (by simp)

theorem unsigned_ofScientific (mantissa : Nat) (negative : Bool) (exponent : Nat) :
    Unsigned (Float.ofScientific mantissa negative exponent) := by
  unfold Float.ofScientific
  split
  · have small : Unsigned mantissa.toUInt64.toFloat := unsigned_pack (bare_ofNat _)
    simp only []
    split
    · exact small.div (unsigned_powerOfTen _)
    · exact small.mul (unsigned_powerOfTen _)
  · exact unsigned_pack (bare_ofScientific _ _)

/-- The value of a numeral has no sign. -/
theorem Numeral.unsigned_value (numeral : Numeral) : Unsigned numeral.value := by
  unfold Numeral.value
  simp only []
  split
  · exact unsigned_ofScientific _ _ _
  · split
    · exact (unsigned_ofScientific _ _ _).div (unsigned_ofScientific _ _ _)
    · exact unsigned_ofScientific _ _ _

/-- How the parts of a number follow from its exponent and its mantissa. -/
inductive Parts (exponent mantissa : Nat) : UnpackedFloat → Prop
  | notANumber : Parts exponent mantissa .notANumber
  | infinity : exponent = 2047 → mantissa = 0 → Parts exponent mantissa (.infinity .positive)
  | zero : exponent = 0 → mantissa = 0 → Parts exponent mantissa (.zero .positive)
  | subnormal {m : Nat} {e : Int} (pos : 0 < m) : exponent = 0 → m = mantissa → e = -1074 →
      Parts exponent mantissa (.finite .positive m e pos)
  | normal {m : Nat} {e : Int} (pos : 0 < m) : exponent ≠ 0 → m = 2 ^ 52 + mantissa →
      e = exponent - 1075 → Parts exponent mantissa (.finite .positive m e pos)

theorem parts_unpack {bits : BitVec 64} (h : BareBits bits) :
    Parts (@unpackExponent Format.binary64 bits).toNat (@unpackMantissa Format.binary64 bits).toNat
      (UnpackedFloat.unpack Format.binary64 bits) := by
  have positive : Sign.ofBitVec (@unpackSign Format.binary64 bits) = .positive := if_pos h
  unfold UnpackedFloat.unpack
  simp only [positive]
  split
  · rename_i ones
    split
    · rename_i none
      rw [ones, none]
      exact .infinity rfl rfl
    · exact .notANumber
  · split
    · rename_i exponent
      rw [exponent]
      split
      · rename_i none
        rw [none]
        exact .zero rfl rfl
      · exact .subnormal _ rfl rfl rfl
    · rename_i exponent
      refine .normal _ ?_ ?_ rfl
      · exact fun none => exponent (BitVec.eq_of_toNat_eq none)
      · rw [BitVec.toNat_append, ← Nat.shiftLeft_add_eq_or_of_lt (BitVec.isLt _)]
        rfl

/-- Parts that are equal as numbers are the same. -/
theorem parts_eq {exponent exponent' mantissa mantissa' : Nat} {x y : UnpackedFloat}
    (h : Parts exponent mantissa x) (h' : Parts exponent' mantissa' y)
    (small : mantissa < 2 ^ 52) (small' : mantissa' < 2 ^ 52)
    (same : UnpackedFloat.compare x y = some .eq) :
    exponent = exponent' ∧ mantissa = mantissa' := by
  cases h <;> cases h' <;> simp [UnpackedFloat.compare, Ordering.then_eq_eq] at same
  all_goals omega

theorem bits_ext {bits other : BitVec 64} (h : BareBits bits) (h' : BareBits other)
    (exponent : @unpackExponent Format.binary64 bits = @unpackExponent Format.binary64 other)
    (mantissa : @unpackMantissa Format.binary64 bits = @unpackMantissa Format.binary64 other) :
    bits = other := by
  have signs : @unpackSign Format.binary64 bits = @unpackSign Format.binary64 other := h.trans h'.symm
  simp only [unpackSign, unpackExponent, unpackMantissa] at signs exponent mantissa
  have signs := congrArg BitVec.toNat signs
  have exponent := congrArg BitVec.toNat exponent
  have mantissa := congrArg BitVec.toNat mantissa
  simp [Nat.shiftRight_eq_div_pow] at signs exponent mantissa
  have := bits.isLt
  have := other.isLt
  apply BitVec.eq_of_toNat_eq
  omega

/-- Numbers without a sign that are equal are the same. -/
theorem Unsigned.eq_of_beq {x y : Float} (h : Unsigned x) (h' : Unsigned y) (same : x == y) :
    x = y := by
  have equal : UnpackedFloat.compare x.toModel.unpack y.toModel.unpack = some .eq :=
    LawfulBEq.eq_of_beq same
  obtain ⟨exponent, mantissa⟩ := parts_eq (parts_unpack h) (parts_unpack h') (BitVec.isLt _)
    (BitVec.isLt _) equal
  have bits := bits_ext h h' (BitVec.eq_of_toNat_eq exponent) (BitVec.eq_of_toNat_eq mantissa)
  obtain ⟨⟨⟨first⟩, valid⟩⟩ := x
  obtain ⟨⟨⟨second⟩, valid'⟩⟩ := y
  subst bits
  rfl

end StackScript.Number
