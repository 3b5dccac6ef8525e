import SharedValue.Double.Shortest
import SharedValue.Proofs.Double.Nearest

/-!
# The shortest decimal reads back

`Double.shortest` gives a decimal in the interval of the double (`shortest_rounds`), which is
therefore rounded to the double. The search takes nothing that is not in the interval, and it comes
to a grid that is finer than the interval is wide: with seventeen digits the grid is at most
`10 ^ -16` of the double apart, and the interval is wider than that.
-/

namespace SharedValue.Double

variable {d : Double} {i : Interval} {tie : Tie} {n fuel : Nat} {g : Int} {x : ℚ}

/-! ### Intervals -/

/-- Whether a rational lies in an interval. -/
def Interval.Contains (i : Interval) (x : ℚ) : Prop :=
  if i.closed then (i.lower : ℚ) / i.den ≤ x ∧ x ≤ i.upper / i.den
  else (i.lower : ℚ) / i.den < x ∧ x < i.upper / i.den

/-- An interval holds a number if it contains it. -/
theorem Interval.holds_iff (hden : 0 < i.den) : i.holds n = true ↔ i.Contains n := by
  have hpos : (0 : ℚ) < i.den := by exact_mod_cast hden
  rw [holds, Contains]
  split
  · rw [Bool.and_eq_true, decide_eq_true_iff, decide_eq_true_iff, div_le_iff₀ hpos,
      le_div_iff₀ hpos]
    norm_cast
  · rw [Bool.and_eq_true, decide_eq_true_iff, decide_eq_true_iff, div_lt_iff₀ hpos,
      lt_div_iff₀ hpos]
    norm_cast

/-- A scaled interval contains what the interval does, scaled. -/
theorem Interval.scale_contains (i : Interval) (g : Int) (x : ℚ) :
    (i.scale g).Contains x ↔ i.Contains (x * 10 ^ g) := by
  have hten : (0 : ℚ) < 10 ^ g := zpow_pos (by norm_num) g
  have hdiv : ∀ a : Nat, ((a * Nat.pow 10 (-g).toNat : Nat) : ℚ) / (i.den * Nat.pow 10 g.toNat : Nat) =
      a / i.den / 10 ^ g := fun a ↦ mul_pow_div (by decide) a i.den g
  rw [Contains, Contains, scale, hdiv, hdiv, div_le_iff₀ hten, le_div_iff₀ hten, div_lt_iff₀ hten,
    lt_div_iff₀ hten]

theorem Interval.scale_den_pos (hden : 0 < i.den) (g : Int) : 0 < (i.scale g).den :=
  Nat.mul_pos hden (Nat.pow_pos (by decide))

/-- The integer next to the double is taken from the interval. -/
theorem Interval.holds_of_nearest? (hn : i.nearest? tie = some n) : i.holds n = true := by
  rw [nearest?.eq_def] at hn
  dsimp only at hn
  split at hn
  · cases hn
  next hb _ => rwa [← Option.some.inj hn]
  next _ ha => rwa [← Option.some.inj hn]
  next hb ha =>
    split at hn
    · rwa [← Option.some.inj hn]
    · split at hn
      · rwa [← Option.some.inj hn]
      · cases tie with
        | away => rwa [← Option.some.inj hn]
        | even =>
          rw [← Option.some.inj hn]
          split
          · exact hb
          · exact ha

/-- **An interval that is wider than the grid is met by it**, next to the double. -/
theorem Interval.nearest?_ne_none (hden : 0 < i.den) (hlow : i.lower < i.num)
    (hhigh : i.num < i.upper) (hwide : i.lower + i.den < i.upper) : i.nearest? tie ≠ none := by
  have hdiv := Nat.div_add_mod' i.num i.den
  have hrest := Nat.mod_lt i.num hden
  have hinside : ∀ m, i.lower < m * i.den → m * i.den < i.upper → i.holds m = true := by
    intro m hl hu
    rw [holds]
    split
    · rw [Bool.and_eq_true, decide_eq_true_iff, decide_eq_true_iff]
      exact ⟨hl.le, hu.le⟩
    · rw [Bool.and_eq_true, decide_eq_true_iff, decide_eq_true_iff]
      exact ⟨hl, hu⟩
  rw [nearest?.eq_def]
  dsimp only
  generalize i.num / i.den = q at hdiv ⊢
  generalize i.num % i.den = m at hdiv hrest ⊢
  split
  next hb ha =>
    -- the lower end is not below the one decimal, so the other is within the width of the grid
    have hnot : ¬ i.lower < q * i.den := fun hl ↦ by
      rw [hinside q hl (by omega)] at hb
      cases hb
    have hsucc : (q + 1) * i.den = q * i.den + i.den := Nat.succ_mul q i.den
    rw [hinside (q + 1) (by omega) (by omega)] at ha
    cases ha
  · exact Option.some_ne_none _
  · exact Option.some_ne_none _
  · split
    · exact Option.some_ne_none _
    · split
      · exact Option.some_ne_none _
      · cases tie <;> exact Option.some_ne_none _

/-! ### The search -/

/-- What the search gives is taken from a grid that meets the interval, if it comes to one. -/
theorem contains_search (hden : 0 < i.den) (hj : ∃ j < fuel, (i.scale (g - j)).nearest? tie ≠ none) :
    i.Contains ((search i tie g fuel).digits * 10 ^ (search i tie g fuel).exponent) := by
  induction fuel generalizing g with
  | zero =>
    obtain ⟨j, hlt, -⟩ := hj
    cases hlt
  | succ fuel ih =>
    rw [search]
    split
    next n hn =>
      have hholds := Interval.holds_of_nearest? hn
      rwa [Interval.holds_iff (Interval.scale_den_pos hden g), Interval.scale_contains] at hholds
    next hn =>
      refine ih ?_
      obtain ⟨j, hlt, hj⟩ := hj
      cases j with
      | zero =>
        rw [Nat.cast_zero, sub_zero] at hj
        exact absurd hn hj
      | succ j =>
        refine ⟨j, Nat.lt_of_succ_lt_succ hlt, ?_⟩
        rwa [Nat.cast_succ, add_comm, ← sub_sub] at hj

/-- Taking zeros off the end leaves the value. -/
theorem strip_eq (s : Scientific) (fuel : Nat) :
    ((s.strip fuel).digits : ℚ) * 10 ^ (s.strip fuel).exponent = s.digits * 10 ^ s.exponent := by
  induction fuel generalizing s with
  | zero => rfl
  | succ fuel ih =>
    rw [Scientific.strip]
    split
    next hz =>
      have hdigits : s.digits = s.digits / 10 * 10 := by omega
      rw [ih, zpow_add₀ (by norm_num), zpow_one]
      dsimp only
      conv_rhs => rw [hdigits]
      push_cast
      ring
    · rfl

/-! ### The first grid -/

/-- The estimate of the decade from the binade `b - 1074` is at most one too large. -/
private theorem ten_pow_le_two_pow : ∀ b : Nat, b < 2098 →
    2 ^ (1074 - b) * 10 ^ ((b - 1074 : Int) * 30103 / 100000 - 1).toNat ≤
      2 ^ (b - 1074) * 10 ^ (-((b - 1074 : Int) * 30103 / 100000 - 1)).toNat := by
  decide +kernel

/-- **The decade of a number is not above it.** -/
theorem zpow_decade_le {num den : Nat} (hnum : 0 < num) (hden : 0 < den)
    (hlow : -1074 ≤ binade num den) (hhigh : binade num den < 1024) :
    (10 : ℚ) ^ decade num den ≤ num / den := by
  have hiff : ∀ {k : Int}, den * Nat.pow 10 k.toNat ≤ num * Nat.pow 10 (-k).toNat ↔
      (10 : ℚ) ^ k ≤ num / den := fun {k} ↦ mul_pow_le_iff (b := 10) (by decide) hden
  rw [decade]
  split
  next hlt =>
    refine le_trans ?_ (zpow_binade_le hnum hden).1
    obtain ⟨b, hb⟩ : ∃ b : Nat, binade num den = (b : Int) - 1074 :=
      ⟨(binade num den + 1074).toNat, by omega⟩
    have hle := ten_pow_le_two_pow b (by omega)
    rw [mul_pow_le_iff (by decide) (Nat.two_pow_pos _)] at hle
    rw [hb, zpow_eq_div two_ne_zero]
    have hup : ((b : Int) - 1074).toNat = b - 1074 := by omega
    have hdown : (-((b : Int) - 1074)).toNat = 1074 - b := by omega
    rw [hup, hdown]
    exact_mod_cast hle
  next hge =>
    split
    next hle => exact hiff.1 hle
    · exact hiff.1 (Nat.le_of_not_lt hge)

/-! ### The interval of a double -/

/-- Quarters of the last place over the denominator of the interval. -/
private theorem quarters_div (d : Double) (a : Nat) :
    ((a <<< (d.exponent - 2).toNat : Nat) : ℚ) / (1 <<< (2 - d.exponent).toNat : Nat) =
      a / 4 * 2 ^ d.exponent := by
  have hshift := shift_div a 1 (2 - d.exponent)
  rw [neg_sub, zpow_sub₀ two_ne_zero] at hshift
  rw [hshift]
  field_simp
  norm_num

theorem interval_den_pos (d : Double) : 0 < d.interval.den := by
  show 0 < 1 <<< _
  rw [Nat.one_shiftLeft]
  exact Nat.two_pow_pos _

/-- The lower end of the interval of a double is half way to the one below. -/
private theorem lower_div (hz : d.isZero = false) :
    (d.interval.lower : ℚ) / d.interval.den = (d.significand - d.gapBelow) * 2 ^ d.exponent := by
  have hs := significand_pos hz
  rw [interval, quarters_div, gapBelow]
  split
  · rw [Nat.cast_sub (by omega)]
    push_cast
    ring
  · rw [Nat.cast_sub (by omega)]
    push_cast
    ring

/-- The upper end is half way to the one above. -/
private theorem upper_div (d : Double) :
    (d.interval.upper : ℚ) / d.interval.den = (d.significand + 1 / 2) * 2 ^ d.exponent := by
  rw [interval, quarters_div]
  push_cast
  ring

/-- The double itself is in between. -/
private theorem num_div (d : Double) : (d.interval.num : ℚ) / d.interval.den = d.value := by
  rw [interval, quarters_div, value]
  push_cast
  ring

/-- **The interval that is searched** is that of the numbers that round to the double. -/
theorem interval_contains (hz : d.isZero = false) : d.interval.Contains x ↔ d.Rounds x := by
  have hu : (0 : ℚ) < 2 ^ d.exponent := zpow_pos two_pos _
  rw [Interval.Contains, Rounds, lower_div hz, upper_div, le_div_iff₀ hu, div_le_iff₀ hu,
    lt_div_iff₀ hu, div_lt_iff₀ hu]
  by_cases he : d.significand % 2 = 0 <;> simp [interval, he]

private theorem lower_lt_num (hz : d.isZero = false) : d.interval.lower < d.interval.num := by
  have hs := significand_pos hz
  show _ <<< _ < _ <<< _
  rw [Nat.shiftLeft_eq, Nat.shiftLeft_eq]
  refine Nat.mul_lt_mul_of_pos_right ?_ (Nat.two_pow_pos _)
  split <;> omega

private theorem num_lt_upper (d : Double) : d.interval.num < d.interval.upper := by
  have hlt : 4 * d.significand < 4 * d.significand + 2 := by omega
  show _ <<< _ < _ <<< _
  rw [Nat.shiftLeft_eq, Nat.shiftLeft_eq]
  exact Nat.mul_lt_mul_of_pos_right hlt (Nat.two_pow_pos _)

/-- A grid that is finer than the interval of a double is wide meets it. -/
theorem nearest?_interval_ne_none (hz : d.isZero = false)
    (hg : (10 : ℚ) ^ g < (d.gapBelow + 1 / 2) * 2 ^ d.exponent) :
    (d.interval.scale g).nearest? tie ≠ none := by
  have hten : (0 : ℚ) < 10 ^ g := zpow_pos (by norm_num) g
  have hscale := Interval.scale_den_pos d.interval_den_pos g
  have hpos : (0 : ℚ) < (d.interval.scale g).den := by exact_mod_cast hscale
  have hpow : 0 < Nat.pow 10 (-g).toNat := Nat.pow_pos (by decide)
  refine Interval.nearest?_ne_none hscale (Nat.mul_lt_mul_of_pos_right (lower_lt_num hz) hpow)
    (Nat.mul_lt_mul_of_pos_right d.num_lt_upper hpow) ?_
  have hdiv : ∀ a : Nat, ((a * Nat.pow 10 (-g).toNat : Nat) : ℚ) / (d.interval.scale g).den =
      a / d.interval.den / 10 ^ g := fun a ↦ mul_pow_div (b := 10) (by decide) a _ g
  have hlow : ((d.interval.scale g).lower : ℚ) / (d.interval.scale g).den =
      (d.significand - d.gapBelow) * 2 ^ d.exponent / 10 ^ g := (hdiv _).trans (by rw [lower_div hz])
  have hhigh : ((d.interval.scale g).upper : ℚ) / (d.interval.scale g).den =
      (d.significand + 1 / 2) * 2 ^ d.exponent / 10 ^ g := (hdiv _).trans (by rw [upper_div])
  rw [← Nat.cast_lt (α := ℚ), Nat.cast_add, ← div_lt_div_iff_of_pos_right hpos, add_div,
    div_self hpos.ne', hlow, hhigh, ← lt_sub_iff_add_lt', ← sub_div, one_lt_div hten]
  linarith

/-! ### What the search finds -/

/-- Seventeen digits are enough: their grid is finer than the interval is wide. -/
theorem zpow_decade_sub_lt (hd : d.isFinite = true) (hz : d.isZero = false) :
    (10 : ℚ) ^ (decade d.interval.num d.interval.den - 16) <
      (d.gapBelow + 1 / 2) * 2 ^ d.exponent := by
  have hu : (0 : ℚ) < 2 ^ d.exponent := zpow_pos two_pos _
  have hs : (1 : ℚ) ≤ d.significand := by exact_mod_cast significand_pos hz
  have hs' : (d.significand : ℚ) < 2 ^ 53 := by exact_mod_cast d.significand_lt
  obtain ⟨hmin, hmax⟩ := exponent_bounds hd
  have hden := d.interval_den_pos
  have hnum : 0 < d.interval.num := Nat.lt_of_le_of_lt (Nat.zero_le _) (lower_lt_num hz)
  have hlow : -1074 ≤ binade d.interval.num d.interval.den := by
    rw [le_binade_iff hnum hden, num_div, value]
    calc (2 : ℚ) ^ (-1074 : Int) ≤ 2 ^ d.exponent := zpow_le_zpow_right₀ one_le_two hmin
      _ ≤ d.significand * 2 ^ d.exponent := le_mul_of_one_le_left hu.le hs
  have hhigh : binade d.interval.num d.interval.den < 1024 := by
    rw [← not_le, le_binade_iff hnum hden, not_le, num_div, value]
    calc (d.significand : ℚ) * 2 ^ d.exponent < 2 ^ 53 * 2 ^ d.exponent := by gcongr
      _ ≤ 2 ^ 53 * 2 ^ (971 : Int) := by
        gcongr
        exact one_le_two
      _ = 2 ^ (1024 : Int) := by
        rw [← zpow_natCast, ← zpow_add₀ two_ne_zero]
        norm_num
  have hdecade := zpow_decade_le hnum hden hlow hhigh
  rw [num_div, value] at hdecade
  have hwide : (d.significand : ℚ) < (d.gapBelow + 1 / 2) * 10 ^ 16 := by
    rw [gapBelow]
    split
    next hp =>
      have hp' : d.significand = hiddenBit := by
        rw [significand, if_neg (by omega), hp.1, Nat.add_zero]
      rw [hp', hiddenBit]
      norm_num
    · norm_num at hs' ⊢
      linarith
  calc (10 : ℚ) ^ (decade d.interval.num d.interval.den - 16)
      = 10 ^ decade d.interval.num d.interval.den / 10 ^ 16 := by
        rw [zpow_sub₀ (by norm_num)]
        norm_num
    _ ≤ d.significand * 2 ^ d.exponent / 10 ^ 16 := by gcongr
    _ < (d.gapBelow + 1 / 2) * 10 ^ 16 * 2 ^ d.exponent / 10 ^ 16 := by gcongr
    _ = (d.gapBelow + 1 / 2) * 2 ^ d.exponent := by ring

/-- **The shortest decimal of a double rounds to the double**, and it is not zero. -/
theorem shortest_rounds (hd : d.isFinite = true) (hz : d.isZero = false) (tie : Tie) :
    0 < (d.shortest tie).digits ∧
      d.Rounds ((d.shortest tie).digits * 10 ^ (d.shortest tie).exponent) := by
  have hcontains : d.interval.Contains
      ((d.shortest tie).digits * 10 ^ (d.shortest tie).exponent) := by
    rw [shortest, strip_eq]
    exact contains_search d.interval_den_pos
      ⟨16, by decide, nearest?_interval_ne_none hz (zpow_decade_sub_lt hd hz)⟩
  rw [interval_contains hz] at hcontains
  refine ⟨Nat.pos_of_ne_zero fun he ↦ ?_, hcontains⟩
  -- zero rounds to no double but zero
  have hbelow := hcontains.isNearest
  have hs : (1 : ℚ) ≤ d.significand := by exact_mod_cast significand_pos hz
  rw [he, Nat.cast_zero, zero_mul, zero_div, IsNearest] at hbelow
  split at hbelow <;> linarith [hbelow.1]

/-- **The shortest decimal of a double reads back.** -/
theorem ofDecimal_shortest (hd : d.isFinite = true) (hz : d.isZero = false) (tie : Tie) :
    ofDecimal d.negative (d.shortest tie).digits (d.shortest tie).exponent = d :=
  ofDecimal_eq hd hz (shortest_rounds hd hz tie).1 (shortest_rounds hd hz tie).2

end SharedValue.Double
