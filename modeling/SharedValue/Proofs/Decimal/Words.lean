import Mathlib.Data.Nat.Digits.Defs
import SharedValue.Proofs.KeySpace.Spelling

/-!
# Decimals in words

An integer has one decimal form: a zero, or digits that do not begin with a zero, after a minus sign
if it is negative. `Decimal.Canonical` is that form, with the number by the places of its digits,
and `Decimal.canonical?` reads it and nothing else (`canonical?_eq_some_iff`).

The number is found there without a bound. `Decimal.inWords?` finds it in 64-bit words, one digit
after the other, and gives up where a step leaves the word. **Both read the same** (`inWords?_eq`):
the word is the number of the digits read so far as long as there is one (`word?_eq_some_iff`), a
number that leaves the word does not come back into it, and the one magnitude that no signed word
holds is its own negative.
-/

namespace SharedValue.Decimal

variable {s digits : Bytes} {b : UInt8} {m k : UInt64} {n : Int} {negative : Bool}

/-! ### The form -/

/-- The number of a run of digits, by their places. -/
def placeValue (digits : Bytes) : Nat :=
  Nat.ofDigits 10 (digits.reverse.map fun b ↦ b.toNat - 0x30)

/-- The form of a decimal integer, and the number that it is the form of. -/
inductive Canonical : Bytes → Int → Prop
  | zero : Canonical [0x30] 0
  | positive {first : UInt8} {rest : Bytes} (hfirst : first ≠ 0x30)
      (hdigits : ∀ b ∈ first :: rest, isDigit b) :
      Canonical (first :: rest) (placeValue (first :: rest))
  | negative {first : UInt8} {rest : Bytes} (hfirst : first ≠ 0x30)
      (hdigits : ∀ b ∈ first :: rest, isDigit b) :
      Canonical (0x2D :: first :: rest) (-placeValue (first :: rest))

/-- Digits are read to the number of their places. -/
theorem value_eq_placeValue (digits : Bytes) : value digits = placeValue digits := by
  rw [value, placeValue, Nat.ofDigits_eq_foldr, List.foldr_map, List.foldr_reverse]
  exact List.foldl_ext _ _ _ fun n b _ ↦ Nat.add_comm _ _

/-- Digits without a zero in front are a positive number. -/
theorem positive?_of_digits {first : UInt8} {rest : Bytes} (hfirst : first ≠ 0x30)
    (hdigits : ∀ b ∈ first :: rest, isDigit b) :
    positive? (first :: rest) = some (placeValue (first :: rest)) := by
  rw [positive?, if_pos ⟨hfirst, List.all_eq_true.2 hdigits⟩, value_eq_placeValue]

/-- And only these are. -/
theorem exists_of_positive? {r : Nat} (h : positive? digits = some r) :
    ∃ first rest, digits = first :: rest ∧ first ≠ 0x30 ∧ (∀ b ∈ digits, isDigit b) ∧
      r = placeValue digits := by
  cases digits with
  | nil => cases h
  | cons first rest =>
    rw [positive?] at h
    split at h
    next hd =>
      rw [value_eq_placeValue] at h
      exact ⟨first, rest, rfl, hd.1, List.all_eq_true.1 hd.2, (Option.some.inj h).symm⟩
    · cases h

/-- What stands after a minus sign. -/
theorem canonical?_minus (digits : Bytes) :
    canonical? (0x2D :: digits) = (positive? digits).map fun r ↦ -(r : Int) := rfl

/-- A digit is no minus sign. -/
private theorem ne_minus_of_isDigit (hb : isDigit b) : b ≠ 0x2D := by
  rintro rfl
  cases hb

/-- **Reading accepts the decimal form and nothing else.** -/
theorem canonical?_eq_some_iff : canonical? s = some n ↔ Canonical s n := by
  constructor
  · intro h
    unfold canonical? at h
    split at h
    · rw [← Option.some.inj h]
      exact .zero
    · obtain ⟨i, hi, rfl⟩ := Option.map_eq_some_iff.1 h
      obtain ⟨r, hr, rfl⟩ := exists_of_map_positive? hi
      obtain ⟨first, rest, rfl, hfirst, hdigits, rfl⟩ := exists_of_positive? hr
      exact .negative hfirst hdigits
    · obtain ⟨i, hi, rfl⟩ := Option.map_eq_some_iff.1 h
      obtain ⟨r, hr, rfl⟩ := exists_of_map_positive? hi
      obtain ⟨first, rest, rfl, hfirst, hdigits, rfl⟩ := exists_of_positive? hr
      exact .positive hfirst hdigits
  · intro h
    cases h with
    | zero => rfl
    | @positive first rest hfirst hdigits =>
      have hminus := ne_minus_of_isDigit (hdigits first List.mem_cons_self)
      have hread := positive?_of_digits hfirst hdigits
      unfold canonical?
      split
      next he => exact absurd (List.cons.inj he).1 hfirst
      next he => exact absurd (List.cons.inj he).1 hminus
      · rw [hread]
        rfl
    | @negative first rest hfirst hdigits =>
      rw [canonical?_minus, positive?_of_digits hfirst hdigits]
      rfl

/-! ### Digits in a word -/

/-- The product of two words, if a word holds it. -/
def product? (a b : UInt64) : Option UInt64 :=
  if a.toNat * b.toNat < 2 ^ 64 then some (a * b) else none

/-- The sum of two words, if a word holds it. -/
def sum? (a b : UInt64) : Option UInt64 :=
  if a.toNat + b.toNat < 2 ^ 64 then some (a + b) else none

/-- A number with one more digit at its end, if a word holds it. -/
def shiftIn? (m : UInt64) (b : UInt8) : Option UInt64 :=
  if isDigit b then (product? m 10).bind fun m ↦ sum? m (b - 0x30).toUInt64 else none

/-- The number that a run of digits spells, if a word holds it. -/
def word? (digits : Bytes) : Option UInt64 := digits.foldlM shiftIn? 0

/-- A product is given exactly if it fits. -/
theorem product?_eq_some_iff {a b : UInt64} :
    product? a b = some m ↔ m.toNat = a.toNat * b.toNat := by
  rw [product?]
  split
  next hlt =>
    rw [Option.some.injEq, ← UInt64.toNat_inj, UInt64.toNat_mul, Nat.mod_eq_of_lt hlt]
    exact eq_comm
  next hge =>
    have hm := m.toNat_lt
    exact iff_of_false (fun h ↦ by cases h) (by omega)

/-- So is a sum. -/
theorem sum?_eq_some_iff {a b : UInt64} : sum? a b = some m ↔ m.toNat = a.toNat + b.toNat := by
  rw [sum?]
  split
  next hlt =>
    rw [Option.some.injEq, ← UInt64.toNat_inj, UInt64.toNat_add, Nat.mod_eq_of_lt hlt]
    exact eq_comm
  next hge =>
    have hm := m.toNat_lt
    exact iff_of_false (fun h ↦ by cases h) (by omega)

private theorem toNat_digit (hb : isDigit b) : (b - 0x30).toUInt64.toNat = b.toNat - 0x30 := by
  rw [isDigit, Bool.and_eq_true, decide_eq_true_iff, decide_eq_true_iff] at hb
  rw [UInt8.toNat_toUInt64, UInt8.toNat_sub_of_le _ _ hb.1]
  rfl

/-- **One more digit** makes the number ten times as large and adds the digit, or leaves the word.
-/
theorem shiftIn?_eq_some_iff : shiftIn? k b = some m ↔
    isDigit b ∧ m.toNat = 10 * k.toNat + (b.toNat - 0x30) := by
  rw [shiftIn?]
  split
  next hb =>
    rw [Option.bind_eq_some_iff, ← toNat_digit hb, and_iff_right hb]
    constructor
    · rintro ⟨p, hp, hm⟩
      rw [product?_eq_some_iff] at hp
      rw [sum?_eq_some_iff, hp, Nat.mul_comm] at hm
      exact hm
    · intro hm
      have hlt := m.toNat_lt
      have hp : (UInt64.ofNat (10 * k.toNat)).toNat = 10 * k.toNat :=
        UInt64.toNat_ofNat_of_lt' (show _ < 2 ^ 64 by omega)
      refine ⟨.ofNat (10 * k.toNat), ?_, ?_⟩
      · rw [product?_eq_some_iff, hp, Nat.mul_comm]
        rfl
      · rw [sum?_eq_some_iff, hp, hm]
  next hb => exact iff_of_false (fun h ↦ by cases h) fun h ↦ hb h.1

/-- A number does not get smaller by more digits. -/
private theorem le_foldl (digits : Bytes) (r : Nat) :
    r ≤ digits.foldl (fun r b ↦ 10 * r + (b.toNat - 0x30)) r := by
  induction digits generalizing r with
  | nil => exact Nat.le_refl r
  | cons b rest ih =>
    calc r ≤ 10 * r + (b.toNat - 0x30) := by omega
      _ ≤ _ := ih _

/-- Shifting digits in gives their value in turn, as long as it fits, by induction on the digits. -/
private theorem foldlM_shiftIn?_eq_some_iff : digits.foldlM shiftIn? k = some m ↔
    (∀ b ∈ digits, isDigit b) ∧
      m.toNat = digits.foldl (fun r b ↦ 10 * r + (b.toNat - 0x30)) k.toNat := by
  induction digits generalizing k with
  | nil =>
    rw [List.foldlM_nil, List.foldl_nil, UInt64.toNat_inj, and_iff_right fun _ hb ↦ by cases hb]
    exact Option.some_inj.trans eq_comm
  | cons b rest ih =>
    rw [List.foldlM_cons, List.foldl_cons, List.forall_mem_cons]
    show (shiftIn? k b).bind _ = _ ↔ _
    rw [Option.bind_eq_some_iff]
    constructor
    · rintro ⟨p, hp, hrest⟩
      obtain ⟨hb, hp⟩ := shiftIn?_eq_some_iff.1 hp
      obtain ⟨hdigits, hm⟩ := ih.1 hrest
      exact ⟨⟨hb, hdigits⟩, hp ▸ hm⟩
    · rintro ⟨⟨hb, hdigits⟩, hm⟩
      -- the number at the end fits into a word, and so does every one before it
      have hle := le_foldl rest (10 * k.toNat + (b.toNat - 0x30))
      have hlt := m.toNat_lt
      have hp : (UInt64.ofNat (10 * k.toNat + (b.toNat - 0x30))).toNat =
          10 * k.toNat + (b.toNat - 0x30) := UInt64.toNat_ofNat_of_lt' (show _ < 2 ^ 64 by omega)
      exact ⟨_, shiftIn?_eq_some_iff.2 ⟨hb, hp⟩, ih.2 ⟨hdigits, by rw [hm, hp]⟩⟩

/-- **The word of a run of digits** is their number. There is one exactly if all of them are digits
and a word holds the number. -/
theorem word?_eq_some_iff : word? digits = some m ↔
    (∀ b ∈ digits, isDigit b) ∧ m.toNat = placeValue digits := by
  rw [word?, foldlM_shiftIn?_eq_some_iff, ← value_eq_placeValue]
  rfl

/-! ### Signs -/

/-- A magnitude with its sign as a signed word, if one holds the number. The largest magnitude with
a minus sign is its own negative. -/
def signed? (negative : Bool) (m : UInt64) : Option Int64 :=
  if negative then if m ≤ 0x8000000000000000 then some (-m.toInt64) else none
  else if m < 0x8000000000000000 then some m.toInt64 else none

/-- **A magnitude with its sign** is a signed word exactly if one holds the number. -/
theorem signed?_eq (negative : Bool) (m : UInt64) :
    signed? negative m = bounded? (if negative then -m.toNat else m.toNat) := by
  have hword : m.toInt64 = Int64.ofInt m.toNat := by
    rw [← Int64.toInt_inj, Int64.toInt_ofInt]
    exact BitVec.toInt_eq_toNat_bmod m.toBitVec
  rw [signed?, bounded?, Int64.toInt_minValue, Int64.toInt_maxValue]
  cases negative with
  | true =>
    have hle : m ≤ 0x8000000000000000 ↔ m.toNat ≤ 2 ^ 63 := UInt64.le_iff_toNat_le
    rw [if_pos rfl, if_pos rfl, Int64.ofInt_neg, ← hword]
    exact if_congr (by rw [hle]; omega) rfl rfl
  | false =>
    have hlt : m < 0x8000000000000000 ↔ m.toNat < 2 ^ 63 := UInt64.lt_iff_toNat_lt
    rw [if_neg Bool.false_ne_true, if_neg Bool.false_ne_true, ← hword]
    exact if_congr (by rw [hlt]; omega) rfl rfl

/-- A number that is not bounded is out of range. -/
theorem bounded?_eq_none_iff : bounded? n = none ↔ n < -2 ^ 63 ∨ 2 ^ 63 ≤ n := by
  rw [bounded?, Int64.toInt_minValue, Int64.toInt_maxValue]
  split
  · exact iff_of_false (fun h ↦ by cases h) (by omega)
  · exact iff_of_true rfl (by omega)

/-! ### Reading in words -/

/-- Reads the digits after a sign, in 64-bit words. -/
def digitsInWords? (negative : Bool) : Bytes → Option Int64
  | [] => none
  | [0x30] => if negative then none else some 0
  | 0x30 :: _ => none
  | digits => (word? digits).bind (signed? negative)

/-- Reads the one spelling of an integer in 64-bit words. -/
def inWords? : Bytes → Option Int64
  | 0x2D :: digits => digitsInWords? true digits
  | digits => digitsInWords? false digits

/-- No word and no signed word holds a number that large. -/
private theorem bounded?_of_le {r : Nat} (hr : 2 ^ 64 ≤ r) (negative : Bool) :
    bounded? (if negative then -r else r) = none := by
  rw [bounded?_eq_none_iff]
  cases negative with
  | false => exact .inr (by rw [if_neg Bool.false_ne_true]; omega)
  | true => exact .inl (by rw [if_pos rfl]; omega)

/-- **Digits are read alike** without a bound and in words. -/
theorem word?_bind_signed? {first : UInt8} (hfirst : first ≠ 0x30) (rest : Bytes)
    (negative : Bool) : (word? (first :: rest)).bind (signed? negative) =
      (positive? (first :: rest)).bind fun r ↦ bounded? (if negative then -r else r) := by
  by_cases hdigits : ∀ b ∈ first :: rest, isDigit b
  · rw [positive?_of_digits hfirst hdigits, Option.bind_some]
    rcases Nat.lt_or_ge (placeValue (first :: rest)) (2 ^ 64) with hlt | hge
    · have hm : (UInt64.ofNat (placeValue (first :: rest))).toNat = placeValue (first :: rest) :=
        UInt64.toNat_ofNat_of_lt' hlt
      rw [word?_eq_some_iff.2 ⟨hdigits, hm⟩, Option.bind_some, signed?_eq, hm]
    · have hnone : word? (first :: rest) = none := Option.eq_none_iff_forall_ne_some.2 fun m hm ↦ by
        have hlt := m.toNat_lt
        rw [(word?_eq_some_iff.1 hm).2] at hlt
        omega
      rw [hnone, bounded?_of_le hge]
      rfl
  · have hword : word? (first :: rest) = none := Option.eq_none_iff_forall_ne_some.2 fun m hm ↦
      hdigits (word?_eq_some_iff.1 hm).1
    have hpositive : positive? (first :: rest) = none :=
      Option.eq_none_iff_forall_ne_some.2 fun r hr ↦ by
        obtain ⟨_, _, -, -, hall, -⟩ := exists_of_positive? hr
        exact hdigits hall
    rw [hword, hpositive]
    rfl

/-- Reading digits in words is reading them as a number and checking its range. -/
theorem digitsInWords?_eq (negative : Bool) {digits : Bytes} (hd : digits ≠ [0x30] ∨ negative) :
    digitsInWords? negative digits =
      (positive? digits).bind fun r ↦ bounded? (if negative then -r else r) := by
  unfold digitsInWords?
  split
  · rfl
  · rw [if_pos (hd.resolve_left fun h ↦ h rfl)]
    rfl
  · rfl
  next hnil _ hzero =>
    cases digits with
    | nil => exact absurd rfl hnil
    | cons first rest => exact word?_bind_signed? (fun he ↦ hzero rest (he ▸ rfl)) rest negative

/-- **Reading in words is reading without a bound**, for the numbers that a signed word holds. -/
theorem inWords?_eq (s : Bytes) : inWords? s = int64? s := by
  rw [int64?]
  unfold inWords?
  split
  next digits =>
    rw [digitsInWords?_eq true (.inr rfl), canonical?_minus]
    cases positive? digits <;> rfl
  next hminus =>
    unfold canonical?
    split
    · rfl
    next digits => exact absurd rfl (hminus digits)
    next hzero _ =>
      rw [digitsInWords?_eq false (.inl hzero)]
      cases positive? s <;> rfl

/-! ### The integers that are read -/

/-- **A text is read as an integer if and only if it is its canonical form.** -/
theorem int64?_eq_some_iff_canonical {r : Int64} : int64? s = some r ↔ Canonical s r.toInt := by
  rw [int64?, Option.bind_eq_some_iff]
  constructor
  · rintro ⟨i, hi, hr⟩
    rw [← bounded?_eq_some_iff.1 hr]
    exact canonical?_eq_some_iff.1 hi
  · exact fun h ↦ ⟨_, canonical?_eq_some_iff.2 h, bounded?_toInt r⟩

/-- A text that is not read is no canonical form, or one of a number out of range. -/
theorem int64?_eq_none_iff :
    int64? s = none ↔ ∀ i, Canonical s i → i < -2 ^ 63 ∨ 2 ^ 63 ≤ i := by
  rw [int64?, Option.bind_eq_none_iff]
  refine forall_congr' fun i ↦ ?_
  rw [canonical?_eq_some_iff, bounded?_eq_none_iff]

/-- **A 64-bit integer is read from its decimal text and from nothing else.** The text is a zero, or
digits that do not begin with a zero, after a minus sign if the integer is negative; nothing is read
from any other bytes, nor where no signed word holds the number. Reading in words comes to the same:
up to every digit the word is the number of the digits so far, or the reading has ended. -/
theorem int64?_exact (s : Bytes) :
    (∀ n, int64? s = some n ↔ s = Bytes.ofText (text n.toInt)) ∧
      (∀ n, int64? s = some n ↔ Canonical s n.toInt) ∧
      (int64? s = none ↔ ∀ i, Canonical s i → i < -2 ^ 63 ∨ 2 ^ 63 ≤ i) ∧
      inWords? s = int64? s ∧
      ∀ m, word? s = some m ↔ (∀ b ∈ s, isDigit b) ∧ m.toNat = placeValue s :=
  ⟨fun _ ↦ int64?_eq_some_iff, fun _ ↦ int64?_eq_some_iff_canonical, int64?_eq_none_iff,
    inWords?_eq s, fun _ ↦ word?_eq_some_iff⟩

end SharedValue.Decimal
