import SharedValue.Proofs.RoundTrip.Keys

/-!
# The spellings of a key

What a caller gives as a key is a key in any spelling, or a value that counts as one, or a reference
to such a value. `KeySource.Spells` lists the spellings of a key without coercing anything, and
coercing succeeds with a key exactly for the spellings of that key (`KeySource.spells_iff`).

For texts this rests on the decimal form: a byte string is read as an integer only if it is the text
of that integer (`Decimal.int64?_eq_some_iff`), so each integer has one spelling as a text and any
other text is a key of its own. -/

namespace SharedValue

/-! ### The one decimal text of an integer -/

namespace Decimal

/-- A digit of a number, as it is read and as it is written. -/
private theorem ofText_digit {b : UInt8} (hb : isDigit b) :
    Bytes.ofText (naturalText (b.toNat - 0x30)) = [b] ∧ b.toNat - 0x30 < 10 := by
  rw [isDigit, Bool.and_eq_true, decide_eq_true_iff, decide_eq_true_iff] at hb
  have hlow : 0x30 ≤ b.toNat := UInt8.le_iff_toNat_le.1 hb.1
  have hhigh : b.toNat ≤ 0x39 := UInt8.le_iff_toNat_le.1 hb.2
  have hlt : b.toNat - 0x30 < 10 := by omega
  refine ⟨?_, hlt⟩
  rw [naturalText, Bytes.ofText_ofList_of_isDigit fun _ hc ↦
    Nat.isDigit_of_mem_toDigits (by decide) (by decide) hc, Nat.toDigits_of_lt_base hlt]
  have hchar : 48 + (b.toNat - 0x30) = b.toNat := by omega
  rw [List.map_singleton, Nat.toNat_digitChar_of_lt_ten hlt, hchar, UInt8.ofNat_toNat]

/-- One more digit at the end of a number. -/
private theorem ofText_naturalText_append {n d : Nat} (hn : 0 < n) (hd : d < 10) :
    Bytes.ofText (naturalText n) ++ Bytes.ofText (naturalText d) =
      Bytes.ofText (naturalText (10 * n + d)) := by
  rw [← Bytes.ofText_append, naturalText, naturalText, naturalText, ← String.ofList_append,
    Nat.toDigits_append_toDigits (by decide) hn hd]

/-- Digits after a positive number make the number that they are read to. -/
private theorem ofText_append_digits {digits : Bytes} (hd : digits.all isDigit) {n : Nat}
    (hn : 0 < n) : Bytes.ofText (naturalText n) ++ digits =
      Bytes.ofText (naturalText (digits.foldl (fun n b ↦ 10 * n + (b.toNat - 0x30)) n)) := by
  induction digits generalizing n with
  | nil => exact List.append_nil _
  | cons b rest ih =>
    rw [List.all_cons, Bool.and_eq_true] at hd
    obtain ⟨hb, hlt⟩ := ofText_digit hd.1
    have happend := ofText_naturalText_append hn hlt
    rw [hb] at happend
    rw [List.foldl_cons, ← ih hd.2 (by omega), ← happend, List.append_assoc, List.singleton_append]

/-- Digits without a leading zero are the text of the number that they are read as. -/
theorem eq_naturalText_of_positive? {digits : Bytes} {n : Nat} (h : positive? digits = some n) :
    digits = Bytes.ofText (naturalText n) ∧ 0 < n := by
  cases digits with
  | nil => cases h
  | cons b rest =>
    rw [positive?] at h
    split at h
    next hb =>
      obtain ⟨hne, hall⟩ := hb
      rw [List.all_cons, Bool.and_eq_true] at hall
      obtain ⟨htext, hlt⟩ := ofText_digit hall.1
      have hpos : 0 < b.toNat - 0x30 := by
        have hbound := hall.1
        rw [isDigit, Bool.and_eq_true, decide_eq_true_iff, decide_eq_true_iff] at hbound
        have hlow : 0x30 ≤ b.toNat := UInt8.le_iff_toNat_le.1 hbound.1
        have hnat : b.toNat ≠ 0x30 := fun he ↦ hne (UInt8.toNat_inj.1 he)
        omega
      have hdigits := ofText_append_digits hall.2 hpos
      have hvalue : value (b :: rest) = rest.foldl (fun n b ↦ 10 * n + (b.toNat - 0x30))
          (b.toNat - 0x30) := by rw [value, List.foldl_cons, Nat.mul_zero, Nat.zero_add]
      rw [htext, List.singleton_append, ← hvalue, Option.some.inj h] at hdigits
      refine ⟨hdigits, Nat.pos_of_ne_zero fun hzero ↦ hne ?_⟩
      rw [hzero] at hdigits
      exact (List.cons.inj hdigits).1
    · cases h

/-- What is read as a natural number, as an integer. -/
theorem exists_of_map_positive? {digits : Bytes} {i : Int}
    (h : (do let n ← positive? digits; pure (n : Int)) = some i) :
    ∃ n, positive? digits = some n ∧ i = n := by
  obtain ⟨n, hn, hi⟩ := Option.bind_eq_some_iff.1 h
  exact ⟨n, hn, (Option.some.inj hi).symm⟩

/-- **A byte string that is read as an integer is the text of that integer.** -/
theorem eq_text_of_canonical? {b : Bytes} {n : Int} (h : canonical? b = some n) :
    b = Bytes.ofText (text n) := by
  unfold canonical? at h
  split at h
  · rw [← Option.some.inj h]
    rfl
  next digits =>
    obtain ⟨i, hi, rfl⟩ := Option.map_eq_some_iff.1 h
    obtain ⟨m, hm, rfl⟩ := exists_of_map_positive? hi
    obtain ⟨hdigits, hpos⟩ := eq_naturalText_of_positive? hm
    rw [text, if_pos (by omega), Int.natAbs_neg, Int.natAbs_natCast, Bytes.ofText_append, ← hdigits]
    rfl
  · obtain ⟨i, hi, rfl⟩ := Option.map_eq_some_iff.1 h
    obtain ⟨m, hm, rfl⟩ := exists_of_map_positive? hi
    rw [text, if_neg (by omega), Int.natAbs_natCast]
    exact (eq_naturalText_of_positive? hm).1

/-- **Each 64-bit integer has one spelling.** -/
theorem int64?_eq_some_iff {b : Bytes} {n : Int64} :
    int64? b = some n ↔ b = Bytes.ofText (text n.toInt) := by
  refine ⟨fun h ↦ ?_, fun h ↦ h ▸ int64?_text n⟩
  obtain ⟨m, hm, hbounded⟩ := Option.bind_eq_some_iff.1 h
  rw [← bounded?_eq_some_iff.1 hbounded]
  exact eq_text_of_canonical? hm

end Decimal

/-! ### Labels as they are stored -/

namespace Label

/-- A normal label is its own normal form. -/
theorem normalize_of_isNormal {l : Label} (hl : l.key.IsNormal)
    (hint : ∀ n, l.key = .int n → l = int n) : l.normalize = l := by
  rw [normalize, Key.normalize_of_isNormal hl]
  split
  next n hn => exact (hint n hn).symm
  next b hb => rw [← hb]

/-- Normalizing twice is normalizing once. -/
@[simp]
theorem normalize_normalize (l : Label) : l.normalize.normalize = l.normalize := by
  refine normalize_of_isNormal l.normalize_isNormal fun n hn ↦ ?_
  rw [key_normalize] at hn
  rw [normalize, hn]

/-- An integer has one label as it is stored. -/
theorem eq_int_of_normalize {l : Label} {n : Int64} (hl : l.normalize = l) (hk : l.key = .int n) :
    l = int n := by
  rw [← hl, normalize, hk]
  rfl

end Label

/-- What comes out of coercing a key is a label as it is stored. -/
theorem KeySource.normalize_of_label? {h : Heap} {limit : Nat} {s : KeySource} {l : Label}
    (hl : s.label? h limit = .ok l) : l.normalize = l := by
  cases s with
  | label l' => rw [← Except.ok.inj hl, Label.normalize_normalize]
  | value v =>
    obtain ⟨u, -, hl⟩ := Except.bind_eq_ok_iff.1 hl
    cases u with
    | array _ | object _ | reference _ => cases hl
    | string str => rw [← Except.ok.inj hl, Label.normalize_normalize]
    | _ =>
      rw [← Except.ok.inj hl]
      rfl

/-! ### Spellings -/

/-- The spellings of a key, where references are followed through `limit` cells. -/
inductive KeySource.Spells (h : Heap) (k : Key) : (limit : Nat) → KeySource → Prop
  /-- The key as it is stored. -/
  | key {limit : Nat} (buffer : Buffer) : Spells h k limit (.label ⟨k, buffer⟩)
  /-- The decimal text of an integer. -/
  | decimal {limit : Nat} {n : Int64} (hk : k = .int n) (buffer : Buffer) :
      Spells h k limit (.label ⟨.text (Bytes.ofText (Decimal.text n.toInt)), buffer⟩)
  /-- A string, as the text that it is. -/
  | string {limit : Nat} {s : Str} (hs : Spells h k limit (.label (Label.ofStr s))) :
      Spells h k limit (.value (.string s))
  /-- Another value that counts as the key. -/
  | scalar {limit : Nat} {v : Value} {l : Label} (hv : ∀ s, v ≠ .string s)
      (hl : h.keyOfValue v = .ok l) (hk : l.key = k) : Spells h k limit (.value v)
  /-- A reference to a spelling. -/
  | reference {limit : Nat} {c : CellId} (hc : Spells h k limit (.value (h.cell c))) :
      Spells h k (limit + 1) (.value (.reference c))

namespace KeySource

variable {h : Heap} {k : Key} {limit : Nat} {c : CellId} {v : Value} {s : KeySource}

/-- The key that a source gives, if it gives one. -/
def key? (h : Heap) (limit : Nat) (s : KeySource) : Option Key :=
  (s.label? h limit).toOption.map (·.key)

/-- A source gives a key if it gives a label with it. -/
theorem key?_eq_some_iff_exists :
    s.key? h limit = some k ↔ ∃ l, s.label? h limit = .ok l ∧ l.key = k := by
  rw [key?]
  cases s.label? h limit with
  | error err => exact iff_of_false (fun he ↦ nomatch he) fun ⟨_, he, _⟩ ↦ nomatch he
  | ok l =>
    refine ⟨fun he ↦ ⟨l, rfl, Option.some.inj he⟩, ?_⟩
    rintro ⟨l', hl', rfl⟩
    rw [Except.ok.inj hl']
    rfl

theorem key?_label (l : Label) : (label l).key? h limit = some l.key.normalize :=
  congrArg some l.key_normalize

/-- A reference is followed if there are cells left to follow. -/
theorem key?_reference : (value (.reference c)).key? h (limit + 1) =
    (value (h.cell c)).key? h limit := by
  simp only [key?, label?, Heap.coerceKey, Heap.dereference, Heap.chase]
  cases h.chase limit (h.cell c) <;> rfl

/-- A value that is no reference is a key by itself. -/
theorem key?_of_ne_reference (hv : ∀ c, v ≠ .reference c) :
    (value v).key? h limit = (h.keyOfValue v).toOption.map (·.key) := by
  have hchase : h.chase limit v = some v := by
    cases v with
    | reference c => exact absurd rfl (hv c)
    | _ => cases limit <;> rfl
  rw [key?, label?, Heap.coerceKey, Heap.dereference, hchase]
  rfl

/-- A string is a key as its text is. -/
theorem key?_string (str : Str) :
    (value (.string str)).key? h limit = (label (Label.ofStr str)).key? h limit :=
  key?_of_ne_reference fun _ he ↦ nomatch he

/-- The spellings of a key among the keys that a caller gives. -/
theorem normalize_eq_iff (hk : k.IsNormal) (l : Label) :
    l.key.normalize = k ↔ (label l).Spells h k limit := by
  constructor
  · intro hl
    obtain ⟨key, buffer⟩ := l
    cases key with
    | int n => exact hl ▸ .key buffer
    | text b =>
      rw [Key.normalize, Key.ofBytes] at hl
      split at hl
      next n hn =>
        rw [Decimal.int64?_eq_some_iff.1 hn]
        exact .decimal hl.symm buffer
      · exact hl ▸ .key buffer
  · intro hs
    cases hs with
    | key buffer => exact Key.normalize_of_isNormal hk
    | decimal hk buffer =>
      rw [hk, Key.normalize, Key.ofBytes, Decimal.int64?_text]

/-- The spellings of a key among the values that are no references. -/
theorem key?_value_eq_some_iff (hk : k.IsNormal) (hv : ∀ c, v ≠ .reference c) :
    (value v).key? h limit = some k ↔ (value v).Spells h k limit := by
  by_cases hstr : ∃ str, v = .string str
  · obtain ⟨str, rfl⟩ := hstr
    rw [key?_string, key?_label, Option.some_inj, normalize_eq_iff hk]
    refine ⟨.string, fun hs ↦ ?_⟩
    cases hs with
    | string hs => exact hs
    | scalar hne _ _ => exact absurd rfl (hne str)
  · rw [key?_of_ne_reference hv]
    constructor
    · intro he
      obtain ⟨l, hl, rfl⟩ := Option.map_eq_some_iff.1 he
      cases hval : h.keyOfValue v with
      | error err =>
        rw [hval] at hl
        cases hl
      | ok l' =>
        rw [hval] at hl
        exact .scalar (fun str he ↦ hstr ⟨str, he⟩) hval (congrArg _ (Option.some.inj hl))
    · intro hs
      cases hs with
      | string _ => exact absurd ⟨_, rfl⟩ hstr
      | scalar _ hl hk =>
        rw [hl, ← hk]
        rfl
      | reference _ => exact absurd rfl (hv _)

/-- **A source gives a key exactly if it spells the key.** -/
theorem key?_eq_some_iff (hk : k.IsNormal) : s.key? h limit = some k ↔ s.Spells h k limit := by
  cases s with
  | label l =>
    rw [key?_label, Option.some_inj]
    exact normalize_eq_iff hk l
  | value v =>
    -- a chain of references is followed cell by cell
    induction limit generalizing v with
    | zero =>
      by_cases hv : ∃ c, v = .reference c
      · obtain ⟨c, rfl⟩ := hv
        exact iff_of_false (fun he ↦ nomatch he) fun hs ↦ by
          cases hs with
          | scalar _ hl _ => cases hl
      · exact key?_value_eq_some_iff hk fun c hc ↦ hv ⟨c, hc⟩
    | succ limit ih =>
      by_cases hv : ∃ c, v = .reference c
      · obtain ⟨c, rfl⟩ := hv
        rw [key?_reference, ih]
        refine ⟨.reference, fun hs ↦ ?_⟩
        cases hs with
        | scalar _ hl _ => cases hl
        | reference hc => exact hc
      · exact key?_value_eq_some_iff hk fun c hc ↦ hv ⟨c, hc⟩

end KeySource

end SharedValue
