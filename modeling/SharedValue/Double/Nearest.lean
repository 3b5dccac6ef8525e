import SharedValue.Double.Basic

/-!
# The double nearest to a number

`Double.ofRatio` rounds a quotient of naturals to the nearest double, a number half way between
two doubles going to the one with the even significand. `Double.ofDecimal` does so for a decimal
with an exponent, and `Double.ofNat` for an integer. A magnitude that rounds beyond the largest
finite double becomes an infinity, and one that rounds to nothing becomes a zero of its sign.
-/

namespace SharedValue.Double

/-- The natural number nearest to a quotient, the even one when two are equally near. -/
def roundHalfEven (num den : Nat) : Nat :=
  let quotient := num / den
  let twice := 2 * (num % den)
  if twice < den ∨ (twice = den ∧ quotient % 2 = 0) then quotient else quotient + 1

/-- The exponent `k` with `2 ^ k ≤ num / den < 2 ^ (k + 1)`, for positive numbers: the difference
of the logarithms of the two, or one less. -/
def binade (num den : Nat) : Int :=
  let k : Int := (num.log2 : Int) - den.log2
  if den <<< k.toNat ≤ num <<< (-k).toNat then k else k - 1

/-- The double nearest to `± num / den`. The rounded significand is added to the exponent field
as it stands, so that one which rounds up to the next power of two carries into the field. -/
def ofRatio (negative : Bool) (num den : Nat) : Double :=
  if num = 0 then ofMagnitude negative 0
  else
    let q : Int := max (binade num den - 52) (-1074)
    let significand := roundHalfEven (num <<< (-q).toNat) (den <<< q.toNat)
    ofMagnitude negative (min ((q + 1074).toNat * hiddenBit + significand) (0x7FF * hiddenBit))

/-- The double nearest to an integer. -/
def ofNat (n : Nat) : Double := ofRatio false n 1

/-- The double nearest to `± digits * 10 ^ exponent`. Beyond `10 ^ 310` every magnitude is an
infinity and below `10 ^ -330` a zero, which keeps the powers that are computed small. -/
def ofDecimal (negative : Bool) (digits : Nat) (exponent : Int) : Double :=
  let leading : Int := (Nat.toDigits 10 digits).length + exponent
  if digits = 0 ∨ leading < -330 then ofMagnitude negative 0
  else if 310 < leading then infinity negative
  else ofRatio negative (digits * Nat.pow 10 exponent.toNat) (Nat.pow 10 (-exponent).toNat)

example : ofDecimal false 15 (-1) = ⟨0x3FF8000000000000⟩ := by decide +kernel

example : ofNat 18446744073709551615 = ⟨0x43F0000000000000⟩ := by decide +kernel

example : ofDecimal true 17976931348623159 292 = infinity true := by decide +kernel

end SharedValue.Double
