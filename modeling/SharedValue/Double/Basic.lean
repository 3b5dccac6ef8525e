/-!
# Doubles

A `Double` is its 64 bits. Its meaning is read off the three fields of the binary64 format: a
finite double is `± significand * 2 ^ exponent` with both numbers exact (`Double.significand`,
`Double.exponent`), so printing, reading and conversion are arithmetic on integers.

`Double.equal` is the comparison of numbers: a NaN equals nothing and the two zeros are equal.
Equality of the type itself tells all bit patterns apart.
-/

namespace SharedValue

/-- A floating-point number in the binary64 format, given by its bits. -/
structure Double where
  /-- The sign bit, eleven exponent bits and fifty-two fraction bits, the sign on top. -/
  bits : UInt64
  deriving DecidableEq

namespace Double

/-- The sign bit. -/
def negative (d : Double) : Bool := d.bits >>> 63 = 1

/-- The exponent field. -/
def exponentField (d : Double) : Nat := ((d.bits >>> 52) &&& 0x7FF).toNat

/-- The fraction field. -/
def fraction (d : Double) : Nat := (d.bits &&& 0xFFFFFFFFFFFFF).toNat

/-- Neither a NaN nor an infinity. -/
def isFinite (d : Double) : Bool := d.exponentField ≠ 0x7FF

/-- A pattern that stands for no number. -/
def isNaN (d : Double) : Bool := d.exponentField = 0x7FF && d.fraction ≠ 0

/-- One of the two zeros. -/
def isZero (d : Double) : Bool := d.exponentField = 0 && d.fraction = 0

/-- The least magnitude beyond the fraction field: the bit above it. -/
def hiddenBit : Nat := 0x10000000000000

/-- The integer factor of a finite double's magnitude: the fraction, with the leading one that
the format leaves out unless the exponent field is zero. -/
def significand (d : Double) : Nat :=
  if d.exponentField = 0 then d.fraction else hiddenBit + d.fraction

/-- The power of two that goes with `significand`. -/
def exponent (d : Double) : Int :=
  if d.exponentField = 0 then -1074 else (d.exponentField : Int) - 1075

/-- The double with the given sign and magnitude bits. -/
def ofMagnitude (negative : Bool) (magnitude : Nat) : Double :=
  ⟨(if negative then 0x8000000000000000 else 0) ||| UInt64.ofNat magnitude⟩

/-- The infinity of a sign. -/
def infinity (negative : Bool) : Double := ofMagnitude negative (0x7FF * hiddenBit)

/-- Comparison of the numbers, not of the bits. -/
def equal (a b : Double) : Bool :=
  !a.isNaN && !b.isNaN && (a = b || a.isZero && b.isZero)

/-- The integer part of a finite double's magnitude, in arithmetic modulo `2 ^ 64`: the
significand is shifted by the exponent, and bits that leave the word are lost at either end. -/
def wrappedMagnitude (d : Double) : UInt64 :=
  if 0 ≤ d.exponent then
    if d.exponent < 64 then UInt64.ofNat d.significand <<< UInt64.ofNat d.exponent.toNat else 0
  else
    if -d.exponent < 64 then UInt64.ofNat d.significand >>> UInt64.ofNat (-d.exponent).toNat else 0

/-- A double as a signed word: truncated toward zero and reduced modulo `2 ^ 64`. NaN and the
infinities, which have no integer part, give zero. -/
def toInt64 (d : Double) : Int64 :=
  if d.isFinite then
    Int64.ofUInt64 (if d.negative then 0 - d.wrappedMagnitude else d.wrappedMagnitude)
  else 0

example : toInt64 ⟨0xC00199999999999A⟩ = -2 := by decide +kernel

example : toInt64 ⟨0x43E0000000000000⟩ = -9223372036854775808 := by decide +kernel

end Double

end SharedValue
