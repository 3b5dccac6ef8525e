import Mathlib.Algebra.Order.Field.Basic
import Mathlib.Tactic.FieldSimp
import Mathlib.Tactic.Linarith
import Mathlib.Tactic.NormNum
import Mathlib.Tactic.Ring
import SharedValue.Double.Nearest
import SharedValue.Proofs.Double.Fields

/-!
# Rounding to the nearest double

The rationals that round to a double lie in an interval around it, half way to the neighbours on
either side (`Double.Rounds`): below a power of two the neighbour is twice as near, and the ends
belong to the interval when the significand is even. **A quotient in the interval of a double is
rounded to that double** (`ofRatio_eq`), and so is a decimal (`ofDecimal_eq`).

The quotient may lie in the binade of the double or, if the double is a power of two, in the one
below. There the last place counts half, and rounding up carries into the exponent field.
-/

namespace SharedValue.Double

variable {d : Double} {num den r : Nat} {k : Int} {x : ℚ}

/-! ### Powers and quotients -/

/-- A power as a quotient of powers with natural exponents, one of which is zero. -/
theorem zpow_eq_div {b : ℚ} (hb : b ≠ 0) (k : Int) : b ^ k = b ^ k.toNat / b ^ (-k).toNat := by
  rw [← zpow_natCast, ← zpow_natCast, ← zpow_sub₀ hb]
  congr 1
  omega

/-- A quotient divided by a power, as a quotient of naturals. -/
theorem mul_pow_div {b : Nat} (hb : b ≠ 0) (num den : Nat) (k : Int) :
    ((num * b ^ (-k).toNat : Nat) : ℚ) / (den * b ^ k.toNat : Nat) = num / den / (b : ℚ) ^ k := by
  have hb' : (b : ℚ) ≠ 0 := by exact_mod_cast hb
  rw [zpow_eq_div hb']
  push_cast
  field_simp

/-- A quotient is at least a power exactly if the cross products say so. -/
theorem mul_pow_le_iff {b : Nat} (hb : b ≠ 0) (hden : 0 < den) :
    den * b ^ k.toNat ≤ num * b ^ (-k).toNat ↔ (b : ℚ) ^ k ≤ num / den := by
  have hbpos : (0 : ℚ) < b := by exact_mod_cast Nat.pos_of_ne_zero hb
  have hpow : (0 : ℚ) < (b : ℚ) ^ k := zpow_pos hbpos k
  have hpos : (0 : ℚ) < (den * b ^ k.toNat : Nat) := by
    exact_mod_cast Nat.mul_pos hden (Nat.pow_pos (Nat.pos_of_ne_zero hb))
  rw [← one_le_div hpow, ← mul_pow_div hb, one_le_div hpos, Nat.cast_le]

/-- Shifting scales a quotient by a power of two. -/
theorem shift_div (num den : Nat) (k : Int) :
    ((num <<< (-k).toNat : Nat) : ℚ) / (den <<< k.toNat : Nat) = num / den / 2 ^ k := by
  rw [Nat.shiftLeft_eq, Nat.shiftLeft_eq, mul_pow_div two_ne_zero, Nat.cast_ofNat]

/-- And compares it to one. -/
theorem shift_le_iff (hden : 0 < den) :
    den <<< k.toNat ≤ num <<< (-k).toNat ↔ (2 : ℚ) ^ k ≤ num / den := by
  rw [Nat.shiftLeft_eq, Nat.shiftLeft_eq, mul_pow_le_iff two_ne_zero hden, Nat.cast_ofNat]

/-! ### The nearest natural number -/

/-- Whether a natural number is the nearest one to a rational: half way between two of them the even
one is. -/
def IsNearest (r : Nat) (x : ℚ) : Prop :=
  if r % 2 = 0 then (r : ℚ) - 1 / 2 ≤ x ∧ x ≤ r + 1 / 2 else (r : ℚ) - 1 / 2 < x ∧ x < r + 1 / 2

/-- The bounds of the nearest number to a quotient, without the quotient. -/
private theorem IsNearest.bounds (hden : 0 < den) (hr : IsNearest r (num / den)) :
    2 * (r * den) ≤ 2 * num + den ∧ 2 * num ≤ 2 * (r * den) + den ∧
      (r % 2 = 1 → 2 * (r * den) < 2 * num + den ∧ 2 * num < 2 * (r * den) + den) := by
  have hpos : (0 : ℚ) < den := by exact_mod_cast hden
  have hlow : (r : ℚ) - 1 / 2 ≤ num / den ↔ 2 * (r * den) ≤ 2 * num + den := by
    rw [le_div_iff₀ hpos, ← Nat.cast_le (α := ℚ)]
    push_cast
    constructor <;> intro h <;> linarith
  have hhigh : (num : ℚ) / den ≤ r + 1 / 2 ↔ 2 * num ≤ 2 * (r * den) + den := by
    rw [div_le_iff₀ hpos, ← Nat.cast_le (α := ℚ)]
    push_cast
    constructor <;> intro h <;> linarith
  have hlow' : (r : ℚ) - 1 / 2 < num / den ↔ 2 * (r * den) < 2 * num + den := by
    rw [lt_div_iff₀ hpos, ← Nat.cast_lt (α := ℚ)]
    push_cast
    constructor <;> intro h <;> linarith
  have hhigh' : (num : ℚ) / den < r + 1 / 2 ↔ 2 * num < 2 * (r * den) + den := by
    rw [div_lt_iff₀ hpos, ← Nat.cast_lt (α := ℚ)]
    push_cast
    constructor <;> intro h <;> linarith
  rw [IsNearest] at hr
  split at hr
  next he => exact ⟨hlow.1 hr.1, hhigh.1 hr.2, fun ho ↦ by omega⟩
  next he =>
    have hl := hlow'.1 hr.1
    have hh := hhigh'.1 hr.2
    exact ⟨hl.le, hh.le, fun _ ↦ ⟨hl, hh⟩⟩

/-- **Rounding a quotient of naturals** gives the nearest natural number. -/
theorem roundHalfEven_eq (hden : 0 < den) (hr : IsNearest r (num / den)) :
    roundHalfEven num den = r := by
  obtain ⟨hlow, hhigh, hodd⟩ := hr.bounds hden
  have hdiv := Nat.div_add_mod' num den
  have hrest := Nat.mod_lt num hden
  rw [roundHalfEven]
  generalize num / den = q at hdiv ⊢
  generalize num % den = m at hdiv hrest ⊢
  have hcases : q = r ∨ q + 1 = r := by
    rcases Nat.lt_trichotomy (q + 1) r with hlt | he | hgt
    · have hmul := Nat.mul_le_mul_right den (show q + 2 ≤ r from hlt)
      rw [Nat.add_mul] at hmul
      omega
    · exact .inr he
    · refine .inl (Nat.le_antisymm (Nat.le_of_not_lt fun hlt ↦ ?_) (Nat.lt_succ_iff.1 hgt))
      have hmul := Nat.mul_le_mul_right den (show r + 1 ≤ q from hlt)
      rw [Nat.add_mul] at hmul
      omega
  rcases hcases with rfl | rfl
  · rw [if_pos]
    omega
  · rw [Nat.add_mul] at hlow hhigh hodd
    rw [if_neg]
    omega

/-! ### Binades -/

/-- The binade of a quotient is the power of two below it. -/
theorem zpow_binade_le (hnum : 0 < num) (hden : 0 < den) :
    (2 : ℚ) ^ binade num den ≤ num / den ∧ (num : ℚ) / den < 2 ^ (binade num den + 1) := by
  have hdpos : (0 : ℚ) < den := by exact_mod_cast hden
  have hn₁ : (2 : ℚ) ^ num.log2 ≤ num := by exact_mod_cast Nat.log2_self_le hnum.ne'
  have hn₂ : (num : ℚ) < 2 ^ (num.log2 + 1) := by exact_mod_cast Nat.lt_log2_self
  have hd₁ : (2 : ℚ) ^ den.log2 ≤ den := by exact_mod_cast Nat.log2_self_le hden.ne'
  have hd₂ : (den : ℚ) < 2 ^ (den.log2 + 1) := by exact_mod_cast Nat.lt_log2_self
  have hpow : ∀ a b : Nat, (2 : ℚ) ^ a / 2 ^ b = 2 ^ ((a : Int) - b) := fun a b ↦ by
    rw [zpow_sub₀ two_ne_zero, zpow_natCast, zpow_natCast]
  rw [binade]
  split
  next hle =>
    refine ⟨(shift_le_iff hden).1 hle, ?_⟩
    calc (num : ℚ) / den < 2 ^ (num.log2 + 1) / den := by gcongr
      _ ≤ 2 ^ (num.log2 + 1) / 2 ^ den.log2 := by gcongr
      _ = _ := by
        rw [hpow]
        congr 1
        push_cast
        ring
  next hnle =>
    rw [shift_le_iff hden, not_le] at hnle
    refine ⟨?_, by rwa [sub_add_cancel]⟩
    calc (2 : ℚ) ^ ((num.log2 : Int) - den.log2 - 1) = 2 ^ num.log2 / 2 ^ (den.log2 + 1) := by
          rw [hpow]
          congr 1
          push_cast
          ring
      _ ≤ 2 ^ num.log2 / den := by gcongr
      _ ≤ num / den := by gcongr

/-- **The binade of a quotient** is the greatest power of two that is not above it. -/
theorem le_binade_iff (hnum : 0 < num) (hden : 0 < den) :
    k ≤ binade num den ↔ (2 : ℚ) ^ k ≤ num / den := by
  obtain ⟨hle, hlt⟩ := zpow_binade_le hnum hden
  refine ⟨fun hk ↦ (zpow_le_zpow_right₀ one_le_two hk).trans hle, fun hk ↦ ?_⟩
  have := (zpow_lt_zpow_iff_right₀ one_lt_two).1 (hk.trans_lt hlt)
  omega

/-! ### The interval of a double -/

/-- How far the interval of a double reaches down, in units of its last place. -/
def gapBelow (d : Double) : ℚ := if d.fraction = 0 ∧ 1 < d.exponentField then 1 / 4 else 1 / 2

/-- Whether a rational lies in the interval of the magnitudes that round to a double. -/
def Rounds (d : Double) (x : ℚ) : Prop :=
  if d.significand % 2 = 0 then
    d.significand - d.gapBelow ≤ x / 2 ^ d.exponent ∧ x / 2 ^ d.exponent ≤ d.significand + 1 / 2
  else d.significand - d.gapBelow < x / 2 ^ d.exponent ∧ x / 2 ^ d.exponent < d.significand + 1 / 2

/-- The interval of a double reaches down at most half a unit of its last place. -/
theorem gapBelow_le (d : Double) : d.gapBelow ≤ 1 / 2 := by
  rw [gapBelow]
  split <;> norm_num

/-- A rounded significand is the nearest integer. -/
theorem Rounds.isNearest (hx : d.Rounds x) : IsNearest d.significand (x / 2 ^ d.exponent) := by
  have hgap := d.gapBelow_le
  rw [Rounds] at hx
  rw [IsNearest]
  split at hx
  next he =>
    rw [if_pos he]
    exact ⟨by linarith, hx.2⟩
  next he =>
    rw [if_neg he]
    exact ⟨by linarith, hx.2⟩

/-- What is rounded to a double is in its interval. -/
theorem Rounds.bounds (hx : d.Rounds x) : (d.significand - d.gapBelow) * 2 ^ d.exponent ≤ x ∧
    x ≤ (d.significand + 1 / 2) * 2 ^ d.exponent := by
  have hu : (0 : ℚ) < 2 ^ d.exponent := zpow_pos two_pos _
  rw [← le_div_iff₀ hu, ← div_le_iff₀ hu]
  rw [Rounds] at hx
  split at hx
  · exact hx
  · exact ⟨hx.1.le, hx.2.le⟩

/-- What rounds to a double is below the end of its binade. -/
theorem Rounds.lt (hx : d.Rounds x) : x < 2 ^ (d.exponent + 53) := by
  have hu : (0 : ℚ) < 2 ^ d.exponent := zpow_pos two_pos _
  have hs : (d.significand : ℚ) + 1 ≤ 2 ^ 53 := by exact_mod_cast d.significand_lt
  calc x ≤ (d.significand + 1 / 2) * 2 ^ d.exponent := hx.bounds.2
    _ < 2 ^ 53 * 2 ^ d.exponent := by
      gcongr
      linarith
    _ = 2 ^ (d.exponent + 53) := by
      rw [zpow_add₀ two_ne_zero, mul_comm]
      norm_num

/-- The double that a quotient is rounded to, given the unit of the last place. -/
private theorem ofRatio_of_isNearest (hd : d.isFinite = true) (hnum : 0 < num) (hden : 0 < den)
    {q : Int} (hq : max (binade num den - 52) (-1074) = q) (hr : IsNearest r (num / den / 2 ^ q))
    (hm : (q + 1074).toNat * hiddenBit + r = d.magnitude) : ofRatio d.negative num den = d := by
  have hpos : 0 < den <<< q.toNat := by
    rw [Nat.shiftLeft_eq]
    exact Nat.mul_pos hden (Nat.two_pow_pos _)
  rw [← shift_div] at hr
  have hle : d.magnitude ≤ 0x7FF * hiddenBit := by
    have hfield := exponentField_lt_of_isFinite hd
    have hfraction := d.fraction_lt
    rw [magnitude, hiddenBit] at *
    omega
  rw [ofRatio, if_neg hnum.ne']
  dsimp only
  rw [hq, roundHalfEven_eq hpos hr, hm, min_eq_left hle, ofMagnitude_magnitude]

/-- **A quotient in the interval of a double is rounded to the double.** -/
theorem ofRatio_eq (hd : d.isFinite = true) (hnum : 0 < num) (hden : 0 < den)
    (hx : d.Rounds (num / den)) : ofRatio d.negative num den = d := by
  have hu : (0 : ℚ) < 2 ^ d.exponent := zpow_pos two_pos _
  have hlt : binade num den < d.exponent + 53 := by
    have hnot := mt (le_binade_iff hnum hden (k := d.exponent + 53)).1 (not_le.2 hx.lt)
    omega
  by_cases hfield : d.exponentField ≤ 1
  · -- the last place counts as in the numbers without a leading one
    have he : d.exponent = -1074 := by
      rw [exponent]
      split <;> omega
    refine ofRatio_of_isNearest hd hnum hden (q := -1074) (by omega) (he ▸ hx.isNearest) ?_
    rw [magnitude, significand, hiddenBit]
    split <;> omega
  · have he : d.exponent = d.exponentField - 1075 := if_neg (by omega)
    have hs : d.significand = hiddenBit + d.fraction := if_neg (by omega)
    by_cases hlow : (2 : ℚ) ^ (d.exponent + 52) ≤ num / den
    · have hle := (le_binade_iff hnum hden).2 hlow
      refine ofRatio_of_isNearest hd hnum hden (q := d.exponent) (by omega) hx.isNearest ?_
      rw [magnitude, hs, he, hiddenBit]
      omega
    · -- below the power of two the last place counts half
      rw [not_le, zpow_add₀ two_ne_zero, mul_comm, ← div_lt_iff₀ hu] at hlow
      have hlow : (num : ℚ) / den / 2 ^ d.exponent < 2 ^ 52 := by exact_mod_cast hlow
      have hbelow := hx.bounds.1
      rw [← le_div_iff₀ hu, gapBelow, hs] at hbelow
      have hf : d.fraction = 0 := by
        by_contra hf
        have hone : (1 : ℚ) ≤ d.fraction := by exact_mod_cast Nat.pos_of_ne_zero hf
        rw [if_neg fun h ↦ hf h.1, hiddenBit] at hbelow
        push_cast at hbelow
        linarith
      rw [hf, if_pos ⟨rfl, by omega⟩, hiddenBit] at hbelow
      push_cast at hbelow
      have hhalf : (num : ℚ) / den / 2 ^ (d.exponent - 1) = 2 * (num / den / 2 ^ d.exponent) := by
        rw [zpow_sub₀ two_ne_zero]
        field_simp
      have hle : d.exponent + 51 ≤ binade num den := by
        rw [le_binade_iff hnum hden, zpow_add₀ two_ne_zero, mul_comm, ← le_div_iff₀ hu]
        norm_num
        linarith
      have hge : ¬ d.exponent + 52 ≤ binade num den := by
        rw [le_binade_iff hnum hden, zpow_add₀ two_ne_zero, mul_comm, ← le_div_iff₀ hu, not_le]
        exact_mod_cast hlow
      refine ofRatio_of_isNearest hd hnum hden (q := d.exponent - 1) (r := 2 ^ 53) (by omega) ?_ ?_
      · rw [hhalf, IsNearest, if_pos (by norm_num)]
        push_cast
        constructor <;> linarith
      · rw [magnitude, hf, he, hiddenBit]
        omega

/-! ### Decimals -/

/-- The length of the digits of a number is where the number lies among the powers of ten. -/
theorem pow_length_toDigits (hr : 0 < r) :
    10 ^ ((Nat.toDigits 10 r).length - 1) ≤ r ∧ r < 10 ^ (Nat.toDigits 10 r).length := by
  have hpos : 0 < (Nat.toDigits 10 r).length := Nat.length_toDigits_pos
  refine ⟨?_, (Nat.length_toDigits_le_iff (by decide) hpos).1 (Nat.le_refl _)⟩
  rcases Nat.eq_zero_or_pos ((Nat.toDigits 10 r).length - 1) with hz | hone
  · rw [hz]
    exact hr
  · have hnot := (Nat.length_toDigits_le_iff (b := 10) (n := r) (by decide) hone).not.1 (by omega)
    exact Nat.le_of_not_lt hnot

/-- The exponents of finite doubles are bounded. -/
theorem exponent_bounds (hd : d.isFinite = true) : -1074 ≤ d.exponent ∧ d.exponent ≤ 971 := by
  have hfield := exponentField_lt_of_isFinite hd
  rw [exponent]
  split <;> omega

private theorem two_pow_lt : (2 : Nat) ^ 1075 < 10 ^ 331 ∧ (2 : Nat) ^ 1024 < 10 ^ 310 := by
  decide +kernel

/-- What rounds to a double is not beyond the powers of ten that are looked at. -/
theorem Rounds.leading_bounds (hx : d.Rounds (r * 10 ^ k)) (hd : d.isFinite = true)
    (hz : d.isZero = false) (hr : 0 < r) : -330 ≤ ((Nat.toDigits 10 r).length : Int) + k ∧
      ((Nat.toDigits 10 r).length : Int) + k ≤ 310 := by
  obtain ⟨hlow, hhigh⟩ := pow_length_toDigits hr
  obtain ⟨hmin, hmax⟩ := exponent_bounds hd
  have hlen : 0 < (Nat.toDigits 10 r).length := Nat.length_toDigits_pos
  generalize (Nat.toDigits 10 r).length = n at hlow hhigh hlen ⊢
  have hten : (0 : ℚ) < 10 ^ k := zpow_pos (by norm_num) k
  have hbelow : (2 : ℚ) ^ (-1075 : Int) ≤ r * 10 ^ k := by
    have hs : (1 : ℚ) ≤ d.significand := by exact_mod_cast significand_pos hz
    have hgap := d.gapBelow_le
    calc (2 : ℚ) ^ (-1075 : Int) = 1 / 2 * 2 ^ (-1074 : Int) := by
          rw [show (-1075 : Int) = -1074 - 1 by rfl, zpow_sub₀ two_ne_zero]
          ring
      _ ≤ (d.significand - d.gapBelow) * 2 ^ d.exponent :=
        mul_le_mul (by linarith) (zpow_le_zpow_right₀ one_le_two hmin) (zpow_pos two_pos _).le
          (by linarith)
      _ ≤ r * 10 ^ k := hx.bounds.1
  have habove : (r : ℚ) * 10 ^ k < 2 ^ (1024 : Int) :=
    hx.lt.trans_le (zpow_le_zpow_right₀ one_le_two (by omega))
  constructor
  · by_contra hlt
    refine absurd hbelow (not_le.2 ?_)
    calc (r : ℚ) * 10 ^ k < 10 ^ (n : Int) * 10 ^ k := by
          gcongr
          rw [zpow_natCast]
          exact_mod_cast hhigh
      _ = 10 ^ ((n : Int) + k) := (zpow_add₀ (by norm_num) _ _).symm
      _ ≤ 10 ^ (-331 : Int) := zpow_le_zpow_right₀ (by norm_num) (by omega)
      _ < 2 ^ (-1075 : Int) := by
        rw [zpow_neg, zpow_neg]
        exact inv_strictAnti₀ (zpow_pos two_pos _) (by exact_mod_cast two_pow_lt.1)
  · by_contra hgt
    refine absurd habove (not_lt.2 ?_)
    calc (2 : ℚ) ^ (1024 : Int) ≤ 10 ^ (310 : Int) := by exact_mod_cast two_pow_lt.2.le
      _ ≤ 10 ^ (((n - 1 : Nat) : Int) + k) := zpow_le_zpow_right₀ (by norm_num) (by omega)
      _ = 10 ^ ((n - 1 : Nat) : Int) * 10 ^ k := zpow_add₀ (by norm_num) _ _
      _ ≤ r * 10 ^ k := by
        gcongr
        rw [zpow_natCast]
        exact_mod_cast hlow

/-- **A decimal in the interval of a double is rounded to the double.** -/
theorem ofDecimal_eq (hd : d.isFinite = true) (hz : d.isZero = false) (hr : 0 < r)
    (hx : d.Rounds (r * 10 ^ k)) : ofDecimal d.negative r k = d := by
  obtain ⟨hlow, hhigh⟩ := hx.leading_bounds hd hz hr
  have hratio : ((r * Nat.pow 10 k.toNat : Nat) : ℚ) / (Nat.pow 10 (-k).toNat : Nat) =
      r * 10 ^ k := by
    rw [zpow_eq_div (by norm_num) k]
    push_cast [Nat.pow_eq]
    ring
  rw [ofDecimal, if_neg (by omega), if_neg (by omega)]
  refine ofRatio_eq hd (Nat.mul_pos hr (Nat.pow_pos (by decide))) (Nat.pow_pos (by decide)) ?_
  rwa [hratio]

end SharedValue.Double
