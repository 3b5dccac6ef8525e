import SharedValue.Proofs.Double.Nearest

/-!
# Numbers that doubles stand for

A finite double stands for a rational, `Double.number`, and every rational whose significand and
exponent fit into the fields is stood for by one (`exists_value_eq`). Rounding to the nearest double
leaves such a rational as it is (`number_nearest_of_fits`): an operation that is carried out on
rationals and then rounded is exact whenever its result fits.
-/

namespace SharedValue.Double

variable {d : Double} {x : ℚ} {m : Nat} {e : Int}

/-! ### Significands and exponents that fit -/

/-- A significand with a leading one is that of a double. -/
private theorem exists_value_eq_of_le (negative : Bool) (hm : m < 2 ^ 53) (hbit : hiddenBit ≤ m)
    (he : -1074 ≤ e) (he' : e ≤ 971) :
    ∃ d : Double, d.negative = negative ∧ d.isFinite = true ∧ d.value = m * 2 ^ e := by
  have hb : hiddenBit = 2 ^ 52 := rfl
  obtain ⟨f, hf⟩ : ∃ f : Nat, (f : Int) = e + 1075 := ⟨(e + 1075).toNat, by omega⟩
  obtain ⟨r, rfl⟩ := Nat.exists_eq_add_of_le hbit
  have hlt : f * 2 ^ 52 + r < 2 ^ 63 := by omega
  have hfield : (ofMagnitude negative (f * 2 ^ 52 + r)).exponentField = f := by
    rw [exponentField_ofMagnitude negative hlt]
    omega
  have hfraction : (ofMagnitude negative (f * 2 ^ 52 + r)).fraction = r := by
    rw [fraction_ofMagnitude negative hlt]
    omega
  have hne : f ≠ 0 := by omega
  refine ⟨ofMagnitude negative (f * 2 ^ 52 + r), negative_ofMagnitude negative hlt, ?_, ?_⟩
  · rw [isFinite, hfield, decide_eq_true_iff]
    omega
  · rw [value, significand, exponent, hfield, hfraction, if_neg hne, if_neg hne, hf]
    congr 2
    omega

/-- A smaller significand is that of a double with the least exponent. -/
private theorem exists_value_eq_of_lt (negative : Bool) (hbit : m < hiddenBit) :
    ∃ d : Double, d.negative = negative ∧ d.isFinite = true ∧ d.value = m * 2 ^ (-1074 : Int) := by
  have hb : hiddenBit = 2 ^ 52 := rfl
  have hlt : m < 2 ^ 63 := by omega
  have hfield : (ofMagnitude negative m).exponentField = 0 := by
    rw [exponentField_ofMagnitude negative hlt]
    omega
  refine ⟨ofMagnitude negative m, negative_ofMagnitude negative hlt, ?_, ?_⟩
  · rw [isFinite, hfield]
    rfl
  · rw [value, significand, exponent, hfield, if_pos rfl, if_pos rfl,
      fraction_ofMagnitude negative hlt, Nat.mod_eq_of_lt (hb ▸ hbit)]

/-- **Every significand and exponent that fit** are those of a double of either sign, up to powers
of two that go from one to the other. -/
theorem exists_value_eq (negative : Bool) (hm : m < 2 ^ 53) (he : -1074 ≤ e) (he' : e ≤ 971) :
    ∃ d : Double, d.negative = negative ∧ d.isFinite = true ∧ d.value = m * 2 ^ e := by
  have hb : hiddenBit = 2 ^ 52 := rfl
  -- by induction on how far the exponent is from the least one
  generalize hk : (e + 1074).toNat = k
  induction k generalizing m e with
  | zero =>
    obtain rfl : e = -1074 := by omega
    rcases Nat.lt_or_ge m hiddenBit with hlt | hge
    · exact exists_value_eq_of_lt negative hlt
    · exact exists_value_eq_of_le negative hm hge he he'
  | succ k ih =>
    rcases Nat.lt_or_ge m hiddenBit with hlt | hge
    · obtain ⟨d, hn, hd, hvalue⟩ := ih (m := 2 * m) (e := e - 1) (by omega) (by omega) (by omega)
        (by omega)
      refine ⟨d, hn, hd, hvalue.trans ?_⟩
      rw [zpow_sub₀ two_ne_zero]
      push_cast
      field_simp
    · exact exists_value_eq_of_le negative hm hge he he'

/-! ### Rounding what needs no rounding -/

/-- The number that a finite double stands for. -/
def number (d : Double) : ℚ := if d.negative then -d.value else d.value

/-- The double nearest to a rational. A zero is the positive one. -/
def nearest (x : ℚ) : Double := ofRatio (decide (x < 0)) x.num.natAbs x.den

theorem value_nonneg (d : Double) : 0 ≤ d.value :=
  mul_nonneg (Nat.cast_nonneg _) (zpow_pos two_pos _).le

theorem abs_number (d : Double) : |d.number| = d.value := by
  rw [number]
  split
  · rw [abs_neg, abs_of_nonneg d.value_nonneg]
  · exact abs_of_nonneg d.value_nonneg

/-- A double is what its own value is rounded to. -/
theorem rounds_value (d : Double) : d.Rounds d.value := by
  have hpos : (0 : ℚ) < 2 ^ d.exponent := zpow_pos two_pos _
  have hgap : 0 < d.gapBelow := by
    rw [gapBelow]
    split <;> norm_num
  rw [Rounds, value, mul_div_cancel_right₀ _ hpos.ne']
  split <;> constructor <;> linarith

/-- Only zeros have the value zero. -/
theorem number_of_value_eq_zero (hz : d.value = 0) : d.number = 0 := by
  rw [number, hz, neg_zero, ite_self]

/-- The magnitude of a rational as a quotient. -/
private theorem natAbs_num_div_den (x : ℚ) : (x.num.natAbs : ℚ) / x.den = |x| := by
  conv_rhs => rw [← x.num_div_den]
  rw [abs_div, Nat.abs_cast, Nat.cast_natAbs, Int.cast_abs]

/-- **The nearest double to the number of a double is the double itself**, unless it is a zero. -/
theorem nearest_number (hd : d.isFinite = true) (hz : d.value ≠ 0) : nearest d.number = d := by
  have hpos : 0 < d.value := d.value_nonneg.lt_of_ne' hz
  have hsign : decide (d.number < 0) = d.negative := by
    rw [number]
    cases d.negative with
    | false => exact decide_eq_false (not_lt.2 hpos.le)
    | true => exact decide_eq_true (neg_lt_zero.2 hpos)
  have hvalue : (d.number.num.natAbs : ℚ) / d.number.den = d.value :=
    (natAbs_num_div_den _).trans d.abs_number
  have hnum : 0 < d.number.num.natAbs := by
    refine Nat.pos_of_ne_zero fun h ↦ hz ?_
    rw [← hvalue, h, Nat.cast_zero, zero_div]
  rw [nearest, hsign]
  exact ofRatio_eq hd hnum d.number.den_pos (hvalue.symm ▸ d.rounds_value)

/-- **The double nearest to the number of a double** stands for that number. -/
theorem number_nearest_number (hd : d.isFinite = true) : (nearest d.number).number = d.number := by
  by_cases hz : d.value = 0
  · rw [number_of_value_eq_zero hz]
    refine number_of_value_eq_zero ?_
    show (ofMagnitude false 0).value = 0
    have hsignificand : (ofMagnitude false 0).significand = 0 := by decide
    rw [value, hsignificand, Nat.cast_zero, zero_mul]
  · rw [nearest_number hd hz]

/-- **Rounding is exact where the result fits** into the fields of a double. -/
theorem number_nearest_of_fits (hm : m < 2 ^ 53) (he : -1074 ≤ e) (he' : e ≤ 971)
    (hx : |x| = m * 2 ^ e) : (nearest x).number = x := by
  obtain ⟨d, hn, hd, hvalue⟩ := exists_value_eq (decide (x < 0)) hm he he'
  have hnumber : d.number = x := by
    rw [number, hn, hvalue, ← hx]
    by_cases hneg : x < 0
    · rw [if_pos (decide_eq_true hneg), abs_of_neg hneg, neg_neg]
    · rw [if_neg fun h ↦ hneg (of_decide_eq_true h), abs_of_nonneg (not_lt.1 hneg)]
  rw [← hnumber]
  exact number_nearest_number hd

end SharedValue.Double
