import SharedValue.Proofs.RoundTrip.Meaning

/-!
# Keys as text

A map is written with texts for keys, and what is read is normalized again. A key that is stored
comes back as it was: an integer is read from its decimal text, whatever integer it is, and a text
that does not spell an integer is a text (`Key.ofBytes_display`). A list is written without its
keys, and they come back because the next free key after `0`, ..., `n - 1` is `n`
(`nextKey_of_isList`).
-/

namespace SharedValue

/-! ### Decimal digits -/

/-- The bytes of a text are those of its parts. -/
theorem Bytes.ofText_append (s t : String) :
    Bytes.ofText (s ++ t) = Bytes.ofText s ++ Bytes.ofText t := by
  simp [ofText]

private theorem utf8EncodeChar_of_ascii {c : Char} (hc : c.toNat < 0x80) :
    String.utf8EncodeChar c = [UInt8.ofNat c.toNat] := by
  have hle : c.val.toNat ≤ 127 := Nat.le_of_lt_succ hc
  rw [String.utf8EncodeChar, if_pos hle]
  rfl

/-- The bytes of ASCII characters. -/
theorem Bytes.ofText_ofList_of_ascii {cs : List Char} (hcs : ∀ c ∈ cs, c.toNat < 0x80) :
    Bytes.ofText (String.ofList cs) = cs.map fun c ↦ UInt8.ofNat c.toNat := by
  have hencode : ∀ c ∈ cs, String.utf8EncodeChar c = [UInt8.ofNat c.toNat] := fun c hc ↦
    utf8EncodeChar_of_ascii (hcs c hc)
  simp only [ofText, String.toByteArray_ofList, List.utf8Encode]
  rw [List.flatMap_congr hencode, ← List.map_eq_flatMap]
  simp

/-- The code points of digits. -/
theorem Decimal.toNat_le_of_isDigit {c : Char} (hc : c.isDigit) : 48 ≤ c.toNat ∧ c.toNat ≤ 57 := by
  rw [Char.isDigit, Bool.and_eq_true, decide_eq_true_iff, decide_eq_true_iff] at hc
  exact ⟨UInt32.le_iff_toNat_le.1 hc.1, UInt32.le_iff_toNat_le.1 hc.2⟩

/-- The bytes of digits. -/
theorem Bytes.ofText_ofList_of_isDigit {cs : List Char} (hcs : ∀ c ∈ cs, c.isDigit) :
    Bytes.ofText (String.ofList cs) = cs.map fun c ↦ UInt8.ofNat c.toNat :=
  ofText_ofList_of_ascii fun c hc ↦ by
    have hdigit := Decimal.toNat_le_of_isDigit (hcs c hc)
    omega

namespace Decimal

private theorem toNat_byte {c : Char} (hc : c.isDigit) : (UInt8.ofNat c.toNat).toNat = c.toNat := by
  have := toNat_le_of_isDigit hc
  rw [UInt8.toNat_ofNat']
  exact Nat.mod_eq_of_lt (by omega)

private theorem isDigit_byte {c : Char} (hc : c.isDigit) : isDigit (UInt8.ofNat c.toNat) := by
  obtain ⟨hlow, hhigh⟩ := toNat_le_of_isDigit hc
  rw [← toNat_byte hc] at hlow hhigh
  rw [isDigit, Bool.and_eq_true, decide_eq_true_iff, decide_eq_true_iff]
  exact ⟨UInt8.le_iff_toNat_le.2 hlow, UInt8.le_iff_toNat_le.2 hhigh⟩

/-- Digits spell the same number as characters and as bytes. -/
theorem value_map {cs : List Char} (hcs : ∀ c ∈ cs, c.isDigit) :
    value (cs.map fun c ↦ UInt8.ofNat c.toNat) = Nat.ofDigitChars 10 cs 0 := by
  rw [value, List.foldl_map, Nat.ofDigitChars_eq_foldl]
  refine List.foldl_ext _ _ _ fun n c hc ↦ ?_
  rw [toNat_byte (hcs c hc)]
  rfl

/-- No number but zero begins with a zero. -/
theorem head_toDigits_ne {n : Nat} (hn : 0 < n) :
    ∃ c cs, Nat.toDigits 10 n = c :: cs ∧ c ≠ '0' := by
  induction n using Nat.strongRecOn with
  | ind n ih =>
    by_cases hlt : n < 10
    · refine ⟨_, [], Nat.toDigits_of_lt_base hlt, ?_⟩
      have hdigits : ∀ d < 10, 0 < d → Nat.digitChar d ≠ '0' := by decide
      exact hdigits n hlt hn
    · obtain ⟨c, cs, hcs, hc⟩ := ih (n / 10) (by omega) (by omega)
      refine ⟨c, cs ++ [(n % 10).digitChar], ?_, hc⟩
      rw [Nat.toDigits_of_base_le (by decide) (by omega), hcs, List.cons_append]

/-- The digits of a positive number are read as the number. -/
theorem positive?_naturalText {n : Nat} (hn : 0 < n) :
    positive? (Bytes.ofText (naturalText n)) = some n := by
  have hdigits : ∀ c ∈ Nat.toDigits 10 n, c.isDigit = true := fun _ hc ↦
    Nat.isDigit_of_mem_toDigits (by decide) (by decide) hc
  have hvalue := value_map hdigits
  obtain ⟨c, cs, hcs, hc⟩ := head_toDigits_ne hn
  rw [Nat.ofDigitChars_toDigits (by decide) (by decide)] at hvalue
  rw [naturalText, Bytes.ofText_ofList_of_isDigit hdigits]
  rw [hcs] at hdigits hvalue ⊢
  rw [List.map_cons] at hvalue ⊢
  have hfirst : UInt8.ofNat c.toNat ≠ 0x30 := by
    intro he
    have hnat := congrArg UInt8.toNat he
    rw [toNat_byte (hdigits c List.mem_cons_self)] at hnat
    exact hc (Char.toNat_inj.1 hnat)
  have hall : (UInt8.ofNat c.toNat :: cs.map fun c ↦ UInt8.ofNat c.toNat).all isDigit := by
    rw [← List.map_cons (f := fun c : Char ↦ UInt8.ofNat c.toNat), List.all_map, List.all_eq_true]
    exact fun d hd ↦ isDigit_byte (hdigits d hd)
  rw [positive?, if_pos ⟨hfirst, hall⟩, hvalue]

/-- **The text of an integer is read as the integer.** -/
theorem canonical?_text (n : Int) : canonical? (Bytes.ofText (text n)) = some n := by
  rw [text]
  split
  next hn =>
    have hpos : 0 < n.natAbs := Int.natAbs_pos.2 (Int.ne_of_lt hn)
    rw [Bytes.ofText_append]
    have hread : canonical? (Bytes.ofText "-" ++ Bytes.ofText (naturalText n.natAbs)) =
        (positive? (Bytes.ofText (naturalText n.natAbs))).map fun m ↦ -(m : Int) := rfl
    rw [hread, positive?_naturalText hpos]
    show some (-(n.natAbs : Int)) = some n
    rw [Int.ofNat_natAbs_of_nonpos (Int.le_of_lt hn), Int.neg_neg]
  next hn =>
    obtain ⟨m, rfl⟩ := Int.eq_ofNat_of_zero_le (Int.not_lt.1 hn)
    rw [Int.natAbs_natCast]
    by_cases hm : m = 0
    · subst hm
      rfl
    · have hpos := positive?_naturalText (Nat.pos_of_ne_zero hm)
      generalize Bytes.ofText (naturalText m) = b at hpos
      unfold canonical?
      split
      · cases hpos
      next digits =>
        -- a digit is no minus sign
        rw [positive?, if_neg] at hpos
        · cases hpos
        · rintro ⟨-, hall⟩
          cases (Bool.and_eq_true_iff.1 hall).1
      · rw [hpos]
        rfl

/-- An integer is within its own bounds. -/
theorem bounded?_toInt (n : Int64) : bounded? n.toInt = some n := by
  rw [bounded?, if_pos, Int64.ofInt_toInt]
  exact ⟨Int64.minValue_le_toInt n, Int64.toInt_le n⟩

/-- What is within the bounds is an integer. -/
theorem bounded?_eq_some_iff {n : Int} {r : Int64} : bounded? n = some r ↔ n = r.toInt := by
  refine ⟨fun h ↦ ?_, fun h ↦ h ▸ bounded?_toInt r⟩
  rw [bounded?, Int64.toInt_maxValue] at h
  split at h
  next hrange => rw [← Option.some.inj h, Int64.toInt_ofInt_of_le hrange.1 (by omega)]
  · cases h

/-- A 64-bit integer is read from its text, whichever it is. -/
theorem int64?_text (n : Int64) : int64? (Bytes.ofText (text n.toInt)) = some n := by
  rw [int64?, canonical?_text, Option.bind_some, bounded?_toInt]

end Decimal

/-! ### Keys -/

/-- Whether bytes are well-formed UTF-8. -/
def Bytes.IsText (b : Bytes) : Prop := ∃ s, b.text? = some s

/-- Whether a key, if it is a text, is well-formed UTF-8. -/
def Key.IsText : Key → Prop
  | .int _ => True
  | .text b => b.IsText

/-- The bytes of a text are well formed. -/
theorem Bytes.isText_ofText (s : String) : (Bytes.ofText s).IsText := ⟨s, text?_ofText s⟩

/-- Nothing is lost of bytes that are well formed. -/
theorem Bytes.IsText.ofText_lossy {b : Bytes} (hb : b.IsText) : Bytes.ofText b.lossy = b := by
  obtain ⟨s, hs⟩ := hb
  rw [lossy_of_text? hs, ofText_of_text? hs]

/-- **A stored key comes back from the text shown for it.** -/
theorem Key.ofBytes_display {k : Key} (hn : k.IsNormal) (ht : k.IsText) :
    Key.ofBytes (Bytes.ofText k.display) = k := by
  cases k with
  | int n =>
    rw [display, ofBytes, Decimal.int64?_text]
  | text b =>
    have hnone : Decimal.int64? b = none := hn
    have hb : b.IsText := ht
    rw [display, hb.ofText_lossy, ofBytes, hnone]

/-- A key that was made of a text is well formed. -/
theorem Key.isText_ofBytes (s : String) : (Key.ofBytes (Bytes.ofText s)).IsText := by
  rw [ofBytes]
  split
  · trivial
  · exact Bytes.isText_ofText s

/-! ### The keys of lists -/

/-- Whether keys are `0`, `1`, `2`, ... in this order. -/
def IsList (keys : List Key) : Prop :=
  ∀ (i : Nat) (k : Key), keys[i]? = some k → k.int?.map Int64.toInt = some (i : Int)

/-- **The next free key of the first keys of a list is the key that follows them.** -/
theorem nextKey_of_isList {keys rest : List Key} {k : Key} (hl : IsList (keys ++ k :: rest)) :
    ∃ n, k = .int n ∧ nextKey keys = some n := by
  have hbefore : ∀ (m : Int64), .int m ∈ keys → m.toInt < keys.length := by
    intro m hm
    obtain ⟨i, hlt, hi⟩ := List.getElem_of_mem hm
    have hget : (keys ++ k :: rest)[i]? = some (.int m) := by
      rw [List.getElem?_append_left hlt, List.getElem?_eq_getElem hlt, hi]
    have hint : m.toInt = i := Option.some.inj (hl i _ hget)
    omega
  have hk := hl keys.length k
    (by rw [List.getElem?_append_right (Nat.le_refl _), Nat.sub_self]; rfl)
  cases k with
  | text b => cases hk
  | int n =>
    have hn : n.toInt = keys.length := Option.some.inj hk
    refine ⟨n, rfl, (isNextFree_nextKey keys).unique ⟨by omega, fun m hm ↦ ?_, fun hne ↦ ?_⟩⟩
    · rw [hn]
      exact hbefore m hm
    · -- the last of the keys is one less
      have hlt : keys.length - 1 < keys.length := by omega
      have hget : (keys ++ .int n :: rest)[keys.length - 1]? = some keys[keys.length - 1] := by
        rw [List.getElem?_append_left hlt, List.getElem?_eq_getElem hlt]
      have hlast := hl _ _ hget
      have hmem := List.getElem_mem hlt
      generalize keys[keys.length - 1] = last at hlast hmem
      cases last with
      | text b => cases hlast
      | int m =>
        have hm : m.toInt = (keys.length - 1 : Nat) := Option.some.inj hlast
        exact ⟨m, hmem, by omega⟩

/-! ### The keys of a table -/

namespace Table

/-- The keys shown are stored, in the same order. -/
theorem keys_sublist (t : Table) (content : CellId → Value) :
    (t.keys content).Sublist t.storedKeys := by
  rw [keys, pairs_eq_slots, slots, storedKeys]
  induction t.entries with
  | nil => exact .refl _
  | cons e rest ih =>
    rw [List.map_cons, List.map_cons]
    cases hl : e.slot.load content with
    | none =>
      rw [List.filterMap_cons_none (by rw [hl]; rfl)]
      exact .cons _ ih
    | some v =>
      rw [List.filterMap_cons_some (by rw [hl]; rfl)]
      exact .cons_cons _ ih

/-- Without bindings every key that is stored is shown. -/
theorem WellFormed.keys_eq {t : Table} (h : t.WellFormed) (hb : t.bindings = 0)
    (content : CellId → Value) : t.keys content = t.storedKeys := by
  have hall : ∀ e ∈ t.entries, ((fun p : Key × Slot ↦ (p.2.load content).map (p.1, ·)) ∘
      fun e : Entry ↦ (e.key, e.slot)) e = some (e.key, (e.slot.load content).getD .null) := by
    intro e he
    obtain ⟨v, hv⟩ := h.exists_value hb he
    simp [hv, Slot.load]
  rw [keys, pairs_eq_slots, slots, storedKeys, List.filterMap_map,
    List.filterMap_eq_map_iff_forall_eq_some.2 hall, List.map_map]
  rfl

end Table

namespace Heap

variable {h : Heap} {t : TableId}

theorem keys_pairs (h : Heap) (t : TableId) :
    (h.pairs t).map (·.1) = (h.table t).keys h.cell := rfl

theorem isList_iff : h.isList t = true ↔ IsList ((h.pairs t).map (·.1)) :=
  Table.isList_iff

/-- The keys of an array are distinct. -/
theorem Valid.nodup_keys (hv : h.Valid) (t : TableId) : ((h.pairs t).map (·.1)).Nodup :=
  (hv.table_wellFormed t).keys_nodup.sublist ((h.table t).keys_sublist h.cell)

/-- The keys of an array are normal. -/
theorem Valid.isNormal_keys (hv : h.Valid) {k : Key} (hk : k ∈ (h.pairs t).map (·.1)) :
    k.IsNormal :=
  (hv.table_wellFormed t).keys_normal k (((h.table t).keys_sublist h.cell).mem hk)

/-- The next key of an array is a matter of the keys that it shows. -/
theorem Valid.nextIndex_eq (hv : h.Valid) (ht : h.Sound (.table t)) :
    h.nextIndex t = nextKey ((h.pairs t).map (·.1)) := by
  have hwf := hv.table_wellFormed t
  rw [nextIndex, hwf.nextFree_eq_nextKey, keys_pairs, hwf.keys_eq ht.bindings_eq_zero]

end Heap

end SharedValue
