import SharedValue.Double.Nearest

/-!
# The shortest decimal that reads back

A decimal reads back as a double when it lies in the interval of reals that round to it: half
way to the neighbour on either side, the end points included exactly when the significand is
even. `Double.shortest` searches the grids of one, two, ... seventeen digits for a decimal in
that interval. The only candidates on a grid are the two decimals next to the double itself,
since a grid that meets the interval meets it in one of them; the nearer one is taken, and
the caller says which of two equally near ones.

All comparisons are exact: the double, the ends of its interval and the grid are brought to
one denominator and compared as naturals.
-/

namespace SharedValue.Double

/-- Which of two equally near decimals is taken. -/
inductive Tie
  /-- The one of larger magnitude. -/
  | away
  /-- The one whose last digit is even. -/
  | even
  deriving DecidableEq

/-- The positive number `digits * 10 ^ exponent`. -/
structure Scientific where
  /-- The digits as one number. -/
  digits : Nat
  /-- The power of ten that the last digit stands for. -/
  exponent : Int
  deriving DecidableEq

/-- The same number without zeros at the end of its digits; `fuel` bounds how many are taken
off. -/
def Scientific.strip (s : Scientific) : (fuel : Nat) → Scientific
  | 0 => s
  | fuel + 1 =>
    if s.digits ≠ 0 ∧ s.digits % 10 = 0 then
      Scientific.strip ⟨s.digits / 10, s.exponent + 1⟩ fuel
    else s

/-- A double and its rounding interval over one denominator: the double is `num / den`, and the
interval reaches from `lower / den` to `upper / den`. -/
structure Interval where
  lower : Nat
  num : Nat
  upper : Nat
  den : Nat
  /-- Whether the two ends belong to the interval. -/
  closed : Bool

/-- The rounding interval of a finite nonzero double. In quarters of its last place the double
is `4 * significand`; the neighbours are two quarters away at half distance, except that below
a power of two doubles lie twice as dense. -/
def interval (d : Double) : Interval where
  lower := (4 * d.significand - if d.fraction = 0 ∧ 1 < d.exponentField then 1 else 2) <<<
    (d.exponent - 2).toNat
  num := (4 * d.significand) <<< (d.exponent - 2).toNat
  upper := (4 * d.significand + 2) <<< (d.exponent - 2).toNat
  den := 1 <<< (2 - d.exponent).toNat
  closed := d.significand % 2 = 0

/-- The interval with every number divided by `10 ^ g`. -/
def Interval.scale (i : Interval) (g : Int) : Interval where
  lower := i.lower * Nat.pow 10 (-g).toNat
  num := i.num * Nat.pow 10 (-g).toNat
  upper := i.upper * Nat.pow 10 (-g).toNat
  den := i.den * Nat.pow 10 g.toNat
  closed := i.closed

/-- Membership of an integer. -/
def Interval.holds (i : Interval) (n : Nat) : Bool :=
  if i.closed then i.lower ≤ n * i.den && n * i.den ≤ i.upper
  else i.lower < n * i.den && n * i.den < i.upper

/-- The integer of the interval next to its double, if there is one. -/
def Interval.nearest? (i : Interval) (tie : Tie) : Option Nat :=
  let below := i.num / i.den
  let rest := i.num % i.den
  match i.holds below, i.holds (below + 1) with
  | false, false => none
  | true, false => some below
  | false, true => some (below + 1)
  | true, true =>
    if 2 * rest < i.den then some below
    else if i.den < 2 * rest then some (below + 1)
    else
      match tie with
      | .away => some (below + 1)
      | .even => some (if below % 2 = 0 then below else below + 1)

/-- The exponent `k` with `10 ^ k ≤ num / den < 10 ^ (k + 1)`: an estimate from the binary
logarithm, moved by one if it misses. -/
def decade (num den : Nat) : Int :=
  let k : Int := binade num den * 30103 / 100000
  if num * Nat.pow 10 (-k).toNat < den * Nat.pow 10 k.toNat then k - 1
  else if den * Nat.pow 10 (k + 1).toNat ≤ num * Nat.pow 10 (-(k + 1)).toNat then k + 1
  else k

/-- The first grid below the one of exponent `g` that meets the interval, `fuel` grids being
tried, with the decimal taken from it. -/
def search (i : Interval) (tie : Tie) (g : Int) : (fuel : Nat) → Scientific
  | 0 => ⟨(i.scale g).num / (i.scale g).den, g⟩
  | fuel + 1 =>
    match (i.scale g).nearest? tie with
    | some n => ⟨n, g⟩
    | none => search i tie (g - 1) fuel

/-- The shortest decimal that reads back as the magnitude of a finite nonzero double, of several
the nearest. Seventeen digits always suffice. -/
def shortest (d : Double) (tie : Tie) : Scientific :=
  let i := d.interval
  (search i tie (decade i.num i.den) 17).strip 20

example : shortest ⟨0x3FB999999999999A⟩ .away = ⟨1, -1⟩ := by decide +kernel

example : shortest ⟨0x3E60000000000000⟩ .away = ⟨29802322387695313, -24⟩ ∧
    shortest ⟨0x3E60000000000000⟩ .even = ⟨29802322387695312, -24⟩ := by
  decide +kernel

example : shortest ⟨1⟩ .even = ⟨5, -324⟩ := by decide +kernel

end SharedValue.Double
