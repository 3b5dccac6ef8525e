import Mathlib.Algebra.Order.Field.Power
import Mathlib.Algebra.Order.Ring.Rat
import Mathlib.Data.Nat.Bitwise
import SharedValue.Double.Basic

/-!
# The fields of a double

A double is its sign and its magnitude bits, the exponent field above the fraction, and it is put
together from these again (`Double.ofMagnitude_magnitude`). What a finite double stands for, apart
from the sign, is the rational `Double.value`.
-/

namespace SharedValue.Double

variable {d : Double} {m : Nat}

/-- The bits below the sign. -/
def magnitude (d : Double) : Nat := d.exponentField * hiddenBit + d.fraction

/-- The fraction is the low 52 bits. -/
theorem fraction_eq (d : Double) : d.fraction = d.bits.toNat % 2 ^ 52 := by
  rw [fraction, UInt64.toNat_and]
  exact Nat.and_two_pow_sub_one_eq_mod d.bits.toNat 52

/-- The exponent is in the 11 bits above. -/
theorem exponentField_eq (d : Double) : d.exponentField = d.bits.toNat / 2 ^ 52 % 2 ^ 11 := by
  rw [exponentField, UInt64.toNat_and, UInt64.toNat_shiftRight, Nat.shiftRight_eq_div_pow]
  exact Nat.and_two_pow_sub_one_eq_mod _ 11

/-- The sign is the highest bit. -/
theorem negative_eq (d : Double) : d.negative = decide (2 ^ 63 ≤ d.bits.toNat) := by
  have hlt := d.bits.toNat_lt
  have hshift : (d.bits >>> 63).toNat = d.bits.toNat / 2 ^ 63 := by
    rw [UInt64.toNat_shiftRight, Nat.shiftRight_eq_div_pow]
    rfl
  rw [negative, decide_eq_decide, ← UInt64.toNat_inj, hshift]
  show d.bits.toNat / 2 ^ 63 = 1 ↔ _
  omega

theorem fraction_lt (d : Double) : d.fraction < hiddenBit := by
  rw [fraction_eq]
  exact Nat.mod_lt _ (by decide)

/-- The exponent of a finite double is not all ones. -/
theorem exponentField_lt_of_isFinite (hd : d.isFinite = true) : d.exponentField < 0x7FF := by
  have hlt : d.exponentField < 2 ^ 11 := by
    rw [exponentField_eq]
    exact Nat.mod_lt _ (by decide)
  have hne : d.exponentField ≠ 0x7FF := by simpa [isFinite] using hd
  omega

/-- The magnitude is what is left without the sign. -/
theorem magnitude_eq (d : Double) : d.magnitude = d.bits.toNat % 2 ^ 63 := by
  rw [magnitude, exponentField_eq, fraction_eq, hiddenBit]
  omega

/-! ### Putting a double together -/

/-- The bits of a double that is put together from a sign and a magnitude. -/
theorem toNat_bits_ofMagnitude (negative : Bool) (hm : m < 2 ^ 63) :
    (ofMagnitude negative m).bits.toNat = (if negative then 2 ^ 63 else 0) + m := by
  have hnat : (UInt64.ofNat m).toNat = m := UInt64.toNat_ofNat_of_lt' (hm.trans (by decide))
  rw [ofMagnitude, UInt64.toNat_or, hnat]
  cases negative with
  | false => exact (Nat.zero_or m).trans (Nat.zero_add m).symm
  | true =>
    have hor := Nat.two_pow_add_eq_or_of_lt hm 1
    rw [Nat.mul_one] at hor
    exact hor.symm

/-- A double that is made of a sign and a magnitude has that sign. -/
theorem negative_ofMagnitude (negative : Bool) (hm : m < 2 ^ 63) :
    (ofMagnitude negative m).negative = negative := by
  rw [negative_eq, toNat_bits_ofMagnitude negative hm]
  cases negative with
  | false => exact decide_eq_false (by simpa using hm)
  | true => exact decide_eq_true (Nat.le_add_right _ _)

/-- It has the exponent of the magnitude. -/
theorem exponentField_ofMagnitude (negative : Bool) (hm : m < 2 ^ 63) :
    (ofMagnitude negative m).exponentField = m / 2 ^ 52 := by
  rw [exponentField_eq, toNat_bits_ofMagnitude negative hm]
  split <;> omega

/-- And its fraction. -/
theorem fraction_ofMagnitude (negative : Bool) (hm : m < 2 ^ 63) :
    (ofMagnitude negative m).fraction = m % 2 ^ 52 := by
  rw [fraction_eq, toNat_bits_ofMagnitude negative hm]
  split <;> omega

/-- **A double is put together from its sign and its magnitude.** -/
theorem ofMagnitude_magnitude (d : Double) : ofMagnitude d.negative d.magnitude = d := by
  have hlt := d.bits.toNat_lt
  have hm : d.magnitude < 2 ^ 63 := by
    rw [magnitude_eq]
    exact Nat.mod_lt _ (by decide)
  have hbits : (ofMagnitude d.negative d.magnitude).bits.toNat = d.bits.toNat := by
    rw [toNat_bits_ofMagnitude _ hm, magnitude_eq, negative_eq]
    simp only [decide_eq_true_eq]
    split <;> omega
  exact congrArg mk (UInt64.toNat_inj.1 hbits)

/-! ### What a double stands for -/

/-- The magnitude of a finite double as a number. -/
def value (d : Double) : ℚ := d.significand * 2 ^ d.exponent

/-- A significand has 53 bits. -/
theorem significand_lt (d : Double) : d.significand < 2 ^ 53 := by
  have hlt := d.fraction_lt
  rw [significand]
  simp only [hiddenBit] at hlt ⊢
  split <;> omega

/-- It is not zero unless the double is. -/
theorem significand_pos (hz : d.isZero = false) : 0 < d.significand := by
  rw [significand]
  split
  next he =>
    refine Nat.pos_of_ne_zero fun hf ↦ ?_
    simp [isZero, he, hf] at hz
  · exact Nat.lt_of_lt_of_le (by decide) (Nat.le_add_right _ _)

end SharedValue.Double
