import Mathlib.Data.Int.ModEq
import Mathlib.Data.Rat.Floor
import SharedValue.Proofs.Double.Exact

/-!
# Doubles as integers

A finite double becomes the signed word that its number, truncated toward zero, is congruent to
modulo `2 ^ 64` (`Double.toInt_toInt64`): shifting the significand loses just the bits below the
point and those above the word.

Floating-point operations reach the same word by a remainder: a number within the signed words is
converted as it stands, and of any other the remainder by `2 ^ 64` is taken and `2 ^ 64` added if
that is negative (`Double.byRemainder`). **Both operations are exact**: the remainder has no more
bits than the number itself, and a number beyond the signed words is a multiple of `2 ^ 11`, so the
sum has at most 53 bits.
-/

namespace SharedValue.Double

variable {d : Double} {x : ℚ} {m : Nat} {e : Int}

/-! ### Truncation -/

/-- A rational without what is behind its point. -/
def truncate (x : ℚ) : ℤ := if 0 ≤ x then ⌊x⌋ else ⌈x⌉

/-- An integer is its own truncation. -/
@[simp]
theorem truncate_intCast (n : ℤ) : truncate n = n := by
  rw [truncate, Int.floor_intCast, Int.ceil_intCast, ite_self]

theorem truncate_neg_of_nonneg (hx : 0 ≤ x) : truncate (-x) = -⌊x⌋ := by
  rw [truncate]
  split
  next h =>
    obtain rfl : x = 0 := le_antisymm (neg_nonneg.1 h) hx
    rw [neg_zero, Int.floor_zero, neg_zero]
  · exact Int.ceil_neg

/-- A number is truncated in its magnitude. -/
theorem truncate_number (d : Double) :
    truncate d.number = if d.negative then -⌊d.value⌋ else ⌊d.value⌋ := by
  rw [number]
  split
  · exact truncate_neg_of_nonneg d.value_nonneg
  · exact if_pos d.value_nonneg

/-- The integer part of a magnitude: the significand is shifted by the exponent. -/
theorem floor_value (d : Double) : ⌊d.value⌋ =
    (d.significand * 2 ^ d.exponent.toNat / 2 ^ (-d.exponent).toNat : ℕ) := by
  have hvalue : d.value =
      ((d.significand * 2 ^ d.exponent.toNat : ℕ) : ℚ) / (2 ^ (-d.exponent).toNat : ℕ) := by
    rw [value, zpow_eq_div two_ne_zero]
    push_cast
    ring
  rw [hvalue, Rat.floor_natCast_div_natCast]
  rfl

/-- **Shifting gives the integer part** of a magnitude, modulo `2 ^ 64`. -/
theorem toNat_wrappedMagnitude (d : Double) : d.wrappedMagnitude.toNat =
    d.significand * 2 ^ d.exponent.toNat / 2 ^ (-d.exponent).toNat % 2 ^ 64 := by
  have hlt := d.significand_lt
  have hs : (UInt64.ofNat d.significand).toNat = d.significand :=
    UInt64.toNat_ofNat_of_lt' (hlt.trans (by decide))
  rw [wrappedMagnitude]
  split
  next he =>
    have hneg : (-d.exponent).toNat = 0 := by omega
    rw [hneg, Nat.pow_zero, Nat.div_one]
    split
    next hsmall =>
      have hshift : (UInt64.ofNat d.exponent.toNat).toNat = d.exponent.toNat :=
        UInt64.toNat_ofNat_of_lt' (show _ < 2 ^ 64 by omega)
      rw [UInt64.toNat_shiftLeft, hs, hshift, Nat.mod_eq_of_lt (a := d.exponent.toNat) (by omega),
        Nat.shiftLeft_eq]
    next hlarge =>
      obtain ⟨k, hk⟩ := Nat.exists_eq_add_of_le (show 64 ≤ d.exponent.toNat by omega)
      rw [hk, Nat.pow_add, Nat.mul_left_comm, Nat.mul_mod_right]
      rfl
  next he =>
    have hpos : d.exponent.toNat = 0 := by omega
    rw [hpos, Nat.pow_zero, Nat.mul_one]
    have hquotient := Nat.div_le_self d.significand (2 ^ (-d.exponent).toNat)
    rw [Nat.mod_eq_of_lt (show _ < 2 ^ 64 by omega)]
    split
    next hsmall =>
      have hshift : (UInt64.ofNat (-d.exponent).toNat).toNat = (-d.exponent).toNat :=
        UInt64.toNat_ofNat_of_lt' (show _ < 2 ^ 64 by omega)
      rw [UInt64.toNat_shiftRight, hs, hshift,
        Nat.mod_eq_of_lt (a := (-d.exponent).toNat) (by omega), Nat.shiftRight_eq_div_pow]
    next hlarge =>
      have hpow : 2 ^ 64 ≤ 2 ^ (-d.exponent).toNat := Nat.pow_le_pow_right (by decide) (by omega)
      rw [Nat.div_eq_of_lt (by omega)]
      rfl

/-- Numbers that differ by multiples of `2 ^ 64` are one signed word. -/
private theorem bmod_congr {i j : ℤ} (h : i % 2 ^ 64 = j % 2 ^ 64) :
    i.bmod (2 ^ 64) = j.bmod (2 ^ 64) := by
  rw [← Int.emod_bmod i, ← Int.emod_bmod j]
  exact congrArg (Int.bmod · (2 ^ 64)) h

/-- A word is the integer that it is congruent to. -/
theorem toInt_ofUInt64 (w : UInt64) : (Int64.ofUInt64 w).toInt = (w.toNat : ℤ).bmod (2 ^ 64) :=
  BitVec.toInt_eq_toNat_bmod w.toBitVec

/-- **A finite double becomes its truncated number**, reduced to a signed word. -/
theorem toInt_toInt64 (hd : d.isFinite = true) :
    d.toInt64.toInt = (truncate d.number).bmod (2 ^ 64) := by
  have hw := d.toNat_wrappedMagnitude
  rw [toInt64, if_pos hd, toInt_ofUInt64, truncate_number, floor_value]
  generalize d.significand * 2 ^ d.exponent.toNat / 2 ^ (-d.exponent).toNat = n at hw ⊢
  refine bmod_congr ?_
  split
  · rw [UInt64.toNat_sub, hw]
    show ((2 ^ 64 - n % 2 ^ 64 + 0) % 2 ^ 64 : ℕ) % (2 ^ 64 : ℤ) = _
    omega
  · rw [hw]
    omega

/-! ### Which doubles are no numbers -/

/-- A double that is no number is a NaN or one of the infinities. -/
theorem isFinite_eq_false_iff :
    d.isFinite = false ↔ d.isNaN = true ∨ ∃ negative, d = infinity negative := by
  rw [isFinite, isNaN, decide_eq_false_iff_not, not_not]
  constructor
  · intro he
    by_cases hf : d.fraction = 0
    · have hd := d.ofMagnitude_magnitude
      rw [magnitude, he, hf] at hd
      exact .inr ⟨d.negative, hd.symm⟩
    · exact .inl (by simp [he, hf])
  · rintro (hn | ⟨negative, rfl⟩)
    · simp only [Bool.and_eq_true, decide_eq_true_eq] at hn
      exact hn.1
    · cases negative <;> decide

/-! ### The remainder -/

/-- The remainder of a double by `2 ^ 64`, which has the sign of the double. -/
def remainder (d : Double) : ℚ := d.number - 2 ^ 64 * truncate (d.number / 2 ^ 64)

/-- The remainder as a floating-point operation gives it. -/
def reduced (d : Double) : Double := nearest d.remainder

/-- The remainder with `2 ^ 64` added by a floating-point operation if it is negative. -/
def corrected (d : Double) : Double :=
  if d.reduced.number < 0 then nearest (d.reduced.number + 2 ^ 64) else d.reduced

/-- Whether a number is one that is converted to a signed word as it stands. -/
def InRange (d : Double) : Prop := -2 ^ 63 ≤ d.number ∧ d.number < 2 ^ 63

/-- An integer as an unsigned word, the nearest one if it is out of range. -/
def saturated (n : ℤ) : UInt64 := UInt64.ofNat (min n.toNat (2 ^ 64 - 1))

instance : Decidable d.InRange := inferInstanceAs (Decidable (_ ∧ _))

/-- A double as a signed word, by floating-point operations. -/
def byRemainder (d : Double) : Int64 :=
  if d.isFinite then
    if d.InRange then Int64.ofInt (truncate d.number)
    else Int64.ofUInt64 (saturated (truncate d.corrected.number))
  else 0

private theorem two_pow_eq {k : ℕ} (hk : (k : ℤ) = 64 - e) :
    (2 : ℚ) ^ 64 = (2 ^ k : ℕ) * 2 ^ e := by
  rw [Nat.cast_pow, Nat.cast_ofNat, ← zpow_natCast _ k, hk, ← zpow_add₀ two_ne_zero, sub_add_cancel]
  norm_num

/-- What is left of a magnitude by `2 ^ 64`: the bits of the significand below it. -/
private theorem value_sub_floor (d : Double) : d.value - 2 ^ 64 * ⌊d.value / 2 ^ 64⌋ =
    (d.significand % 2 ^ (64 - d.exponent).toNat : ℕ) * 2 ^ d.exponent := by
  rcases le_or_gt d.exponent 64 with hle | hgt
  · obtain ⟨k, hk⟩ : ∃ k : ℕ, (k : ℤ) = 64 - d.exponent := ⟨_, Int.toNat_of_nonneg (by omega)⟩
    have hpow := two_pow_eq hk
    have hfloor : ⌊d.value / 2 ^ 64⌋ = (d.significand / 2 ^ k : ℕ) := by
      have hquotient : d.value / 2 ^ 64 = d.significand / (2 ^ k : ℕ) := by
        rw [value, hpow]
        field_simp
      rw [hquotient, Rat.floor_natCast_div_natCast]
      rfl
    have hdiv : ((2 ^ k * (d.significand / 2 ^ k) + d.significand % 2 ^ k : ℕ) : ℚ) =
        d.significand := congrArg Nat.cast (Nat.div_add_mod d.significand (2 ^ k))
    rw [hfloor, hpow, ← hk, Int.toNat_natCast, value, ← hdiv, Int.cast_natCast, Nat.cast_add,
      Nat.cast_mul]
    ring
  · obtain ⟨k, hk⟩ : ∃ k : ℕ, (k : ℤ) = d.exponent - 64 := ⟨_, Int.toNat_of_nonneg (by omega)⟩
    have hquotient : d.value / 2 ^ 64 = (d.significand * 2 ^ k : ℕ) := by
      rw [value, Nat.cast_mul, Nat.cast_pow, Nat.cast_ofNat, ← zpow_natCast _ k, hk,
        zpow_sub₀ two_ne_zero]
      norm_num
      ring
    have hzero : (64 - d.exponent).toNat = 0 := by omega
    rw [hquotient, Int.floor_natCast, Int.cast_natCast, ← hquotient, hzero, Nat.pow_zero,
      Nat.mod_one, Nat.cast_zero, zero_mul, mul_div_cancel₀, sub_self]
    norm_num

/-- A quotient by `2 ^ 64` is truncated in its magnitude, and so is what is left. -/
private theorem abs_remainder_eq (d : Double) :
    |d.remainder| = d.value - 2 ^ 64 * ⌊d.value / 2 ^ 64⌋ := by
  have hquotient : 0 ≤ d.value / 2 ^ 64 := div_nonneg d.value_nonneg (by norm_num)
  have hnonneg : 0 ≤ d.value - 2 ^ 64 * ⌊d.value / 2 ^ 64⌋ := by
    rw [value_sub_floor]
    exact mul_nonneg (Nat.cast_nonneg _) (zpow_pos two_pos _).le
  rw [← abs_of_nonneg hnonneg, remainder, number]
  cases d.negative with
  | false => rw [if_neg Bool.false_ne_true, truncate, if_pos hquotient]
  | true =>
    rw [if_pos rfl, neg_div, truncate_neg_of_nonneg hquotient, Int.cast_neg, mul_neg,
      sub_neg_eq_add, neg_add_eq_sub, abs_sub_comm]

/-- The remainder modulo 2 ^ 64 has the low bits of the significand. -/
theorem abs_remainder (d : Double) : |d.remainder| =
    (d.significand % 2 ^ (64 - d.exponent).toNat : ℕ) * 2 ^ d.exponent :=
  d.abs_remainder_eq.trans d.value_sub_floor

/-- So it is less than 2 ^ 64. -/
theorem abs_remainder_lt (d : Double) : |d.remainder| < 2 ^ 64 := by
  have hlt := Int.lt_floor_add_one (d.value / 2 ^ 64)
  rw [div_lt_iff₀ (by norm_num)] at hlt
  rw [abs_remainder_eq]
  linarith

/-- **The remainder loses no bits**: it has no more of them than the double. -/
theorem number_reduced (hd : d.isFinite = true) : d.reduced.number = d.remainder := by
  have hbounds := exponent_bounds hd
  exact number_nearest_of_fits ((Nat.mod_le _ _).trans_lt d.significand_lt) hbounds.1 hbounds.2
    d.abs_remainder

/-- A number beyond the signed words has no bits below `2 ^ 11`. -/
theorem le_exponent_of_not_inRange (hd : ¬d.InRange) : 11 ≤ d.exponent := by
  by_contra! hlt
  have hs : (d.significand : ℚ) < 2 ^ 53 := by exact_mod_cast d.significand_lt
  have hpow : (2 : ℚ) ^ d.exponent ≤ 2 ^ (10 : ℤ) :=
    zpow_le_zpow_right₀ one_le_two (Int.lt_add_one_iff.1 hlt)
  have hvalue : d.value < 2 ^ 63 := by
    calc d.value ≤ d.significand * 2 ^ (10 : ℤ) := by rw [value]; gcongr
      _ < 2 ^ 53 * 2 ^ (10 : ℤ) := by gcongr
      _ = 2 ^ 63 := by norm_num
  rw [← abs_number, abs_lt] at hvalue
  exact hd ⟨hvalue.1.le, hvalue.2⟩

/-- **Adding `2 ^ 64` loses no bits** where it is done: the sum is a multiple of `2 ^ 11`. -/
theorem number_corrected_of_neg (hd : d.isFinite = true) (hrange : ¬d.InRange)
    (hneg : d.remainder < 0) : d.corrected.number = d.remainder + 2 ^ 64 := by
  have hexponent := le_exponent_of_not_inRange hrange
  have habs := d.abs_remainder
  rw [corrected, number_reduced hd, if_pos hneg]
  have hr : 0 < d.significand % 2 ^ (64 - d.exponent).toNat := by
    refine Nat.pos_of_ne_zero fun hzero ↦ hneg.ne (abs_eq_zero.1 ?_)
    rw [habs, hzero, Nat.cast_zero, zero_mul]
  have hlt : d.exponent < 64 := by
    by_contra! hle
    have hzero : (64 - d.exponent).toNat = 0 := by omega
    rw [hzero, Nat.pow_zero, Nat.mod_one] at hr
    exact hr.false
  obtain ⟨k, hk⟩ : ∃ k : ℕ, (k : ℤ) = 64 - d.exponent := ⟨_, Int.toNat_of_nonneg (by omega)⟩
  rw [← hk, Int.toNat_natCast] at habs hr
  have hmod : d.significand % 2 ^ k < 2 ^ k := Nat.mod_lt _ (Nat.two_pow_pos k)
  have hpow : (2 : ℕ) ^ k ≤ 2 ^ 53 := Nat.pow_le_pow_right two_pos (by omega)
  refine number_nearest_of_fits (m := 2 ^ k - d.significand % 2 ^ k) (e := d.exponent) (by omega)
    (by omega) (by omega) ?_
  rw [abs_of_neg hneg] at habs
  rw [two_pow_eq hk, Nat.cast_sub hmod.le, sub_mul, ← habs, abs_of_nonneg, sub_neg_eq_add, add_comm]
  have hnonneg := (neg_lt_of_abs_lt d.abs_remainder_lt).le
  rw [two_pow_eq hk] at hnonneg
  linarith

/-! ### Converting by the remainder -/

/-- A number beyond the signed words is an integer. -/
theorem exists_number_eq_of_not_inRange (hrange : ¬d.InRange) : ∃ n : ℤ, d.number = n := by
  obtain ⟨k, hk⟩ : ∃ k : ℕ, (k : ℤ) = d.exponent :=
    ⟨_, Int.toNat_of_nonneg ((by decide : (0 : ℤ) ≤ 11).trans (le_exponent_of_not_inRange hrange))⟩
  have hvalue : d.value = (d.significand * 2 ^ k : ℤ) := by
    rw [value, ← hk, zpow_natCast]
    push_cast
    rfl
  rw [number]
  split
  · exact ⟨-(d.significand * 2 ^ k), by rw [hvalue, Int.cast_neg]⟩
  · exact ⟨_, hvalue⟩

/-- The corrected remainder is the unsigned word that the number is congruent to. -/
theorem number_corrected (hd : d.isFinite = true) (hrange : ¬d.InRange) :
    d.corrected.number = (truncate d.number % 2 ^ 64 : ℤ) := by
  obtain ⟨n, hn⟩ := exists_number_eq_of_not_inRange hrange
  have hlt := abs_lt.1 d.abs_remainder_lt
  have hremainder : d.remainder = (n - 2 ^ 64 * truncate (d.number / 2 ^ 64) : ℤ) := by
    rw [remainder, hn]
    push_cast
    rfl
  have hcongr : n % 2 ^ 64 = (n - 2 ^ 64 * truncate (d.number / 2 ^ 64)) % 2 ^ 64 :=
    (Int.sub_mul_emod_self_left n (2 ^ 64) _).symm
  rw [hn, truncate_intCast, hcongr]
  rw [hremainder] at hlt
  generalize n - 2 ^ 64 * truncate (d.number / 2 ^ 64) = r at hremainder hlt ⊢
  have hlow : -2 ^ 64 < r := by exact_mod_cast hlt.1
  have hhigh : r < 2 ^ 64 := by exact_mod_cast hlt.2
  by_cases hneg : d.remainder < 0
  · rw [number_corrected_of_neg hd hrange hneg, hremainder]
    rw [hremainder, Int.cast_lt_zero] at hneg
    have hmod : r % 2 ^ 64 = r + 2 ^ 64 := by omega
    rw [hmod]
    push_cast
    rfl
  · rw [corrected, number_reduced hd, if_neg hneg, number_reduced hd, hremainder]
    rw [hremainder, Int.cast_lt_zero] at hneg
    rw [Int.emod_eq_of_lt (not_lt.1 hneg) hhigh]

/-- A number in range is not saturated. -/
theorem toNat_saturated {n : ℤ} (hn : 0 ≤ n) (hlt : n < 2 ^ 64) :
    ((saturated n).toNat : ℤ) = n := by
  have hmin : min n.toNat (2 ^ 64 - 1) = n.toNat := Nat.min_eq_left (by omega)
  rw [saturated, hmin, UInt64.toNat_ofNat_of_lt' (show _ < 2 ^ 64 by omega), Int.toNat_of_nonneg hn]

/-- **Floating-point operations give the same word** as shifting. -/
theorem byRemainder_eq (d : Double) : d.byRemainder = d.toInt64 := by
  cases hd : d.isFinite with
  | false =>
    rw [byRemainder, toInt64, hd]
    rfl
  | true =>
    rw [← Int64.toInt_inj, toInt_toInt64 hd, byRemainder, if_pos hd]
    split
    · exact Int64.toInt_ofInt
    next hrange =>
      have hnonneg : 0 ≤ truncate d.number % 2 ^ 64 := Int.emod_nonneg _ (by decide)
      have hlt : truncate d.number % 2 ^ 64 < 2 ^ 64 := Int.emod_lt_of_pos _ (by decide)
      rw [number_corrected hd hrange, truncate_intCast, toInt_ofUInt64, toNat_saturated hnonneg hlt]
      exact bmod_congr (Int.emod_emod _ _)

/-! ### The conversion -/

/-- A double is converted to the signed word that is congruent to it without what is behind its
point, and no floating-point operation on the way has to round. -/
structure ConvertsExactly (d : Double) : Prop where
  /-- The doubles that are no numbers are the NaNs and the infinities. -/
  not_isFinite_iff : d.isFinite = false ↔ d.isNaN = true ∨ ∃ negative, d = infinity negative
  /-- They give zero. -/
  of_not_isFinite : d.isFinite = false → d.toInt64 = 0
  /-- Any other double gives the word congruent to its truncated number. -/
  modEq : d.isFinite = true → d.toInt64.toInt ≡ truncate d.number [ZMOD 2 ^ 64]
  /-- That is the truncated number itself where there is a signed word for it. -/
  eq_truncate : d.isFinite = true → -2 ^ 63 ≤ truncate d.number → truncate d.number < 2 ^ 63 →
    d.toInt64.toInt = truncate d.number
  /-- The remainder by `2 ^ 64` is a double. -/
  number_reduced : d.isFinite = true → d.reduced.number = d.remainder
  /-- So is the sum with `2 ^ 64` wherever it is formed. -/
  number_corrected : d.isFinite = true → ¬d.InRange → d.remainder < 0 →
    d.corrected.number = d.remainder + 2 ^ 64
  /-- The operations give the word that shifting gives. -/
  byRemainder_eq : d.byRemainder = d.toInt64

/-- **Doubles become integers by exact truncation** modulo `2 ^ 64`. -/
theorem toInt64_exact (d : Double) : d.ConvertsExactly where
  not_isFinite_iff := isFinite_eq_false_iff
  of_not_isFinite hd := by rw [toInt64, hd, if_neg Bool.false_ne_true]
  modEq hd := by
    rw [toInt_toInt64 hd]
    exact Int.bmod_emod
  eq_truncate hd hlow hhigh := by
    rw [toInt_toInt64 hd]
    exact Int.bmod_eq_of_le (by omega) (by omega)
  number_reduced := d.number_reduced
  number_corrected := d.number_corrected_of_neg
  byRemainder_eq := d.byRemainder_eq

-- the greatest double below the signed words
example : toInt64 ⟨0xC3E0000000000001⟩ = 2 ^ 63 - 2048 := by decide +kernel

end SharedValue.Double
