import Mathlib.Data.Finset.Card
import SharedValue.Proofs.Decoding
import SharedValue.Proofs.KeySpace.Spelling
import SharedValue.Proofs.Readings
import SharedValue.Proofs.RoundTrip.Json
import SharedValue.Proofs.RoundTrip.Writing

/-!
# The texts of keys

An array that is no list is written with a text for every key: the decimal text of an integer, and
the lossy text of a byte string. The decimal text of an integer is the lossy text of no byte string
but itself (`Bytes.lossy_eq_iff_of_ascii`), which is no key, so an integer shares its text with no
other key. Byte strings that are not UTF-8 may share theirs, and nothing else goes wrong: the texts
are pairwise different exactly if different text keys have different lossy texts
(`Key.nodup_display_iff`).

Keys of one text are one key when the array is read back, in whatever format it was written
(`Format.ReadsBack`). So an array of scalars comes back with one element for each text.
-/

namespace SharedValue

/-! ### Byte strings with an ASCII text -/

namespace Bytes

variable {b : Bytes} {first low high : UInt8} {rest : Bytes} {n count : Nat}

private theorem le_foldl_payload (tail : Bytes) (n : Nat) :
    n ≤ tail.foldl (fun n b ↦ n * 0x40 + b.toNat % 0x40) n := by
  induction tail generalizing n with
  | nil => exact Nat.le_refl n
  | cons b tail ih =>
    rw [List.foldl_cons]
    exact Nat.le_trans (by omega) (ih _)

/-- Six more bits, and the character is beyond ASCII. -/
private theorem ascii_le_foldl_payload (hn : 2 ≤ n) {tail : Bytes} (ht : tail ≠ []) :
    0x80 ≤ tail.foldl (fun n b ↦ n * 0x40 + b.toNat % 0x40) n := by
  cases tail with
  | nil => exact absurd rfl ht
  | cons b tail =>
    rw [List.foldl_cons]
    exact Nat.le_trans (by omega) (le_foldl_payload tail _)

/-- The forms of characters of several bytes: how many bytes follow the first one, and that its low
bits are not all zero unless the byte after it makes up for them. -/
theorem of_continuation? (h : continuation? first = some (low, high, count)) :
    (count = 1 ∧ 2 ≤ first.toNat % 0x20) ∨
    (count = 2 ∧ (1 ≤ first.toNat % 0x10 ∨ 0xA0 ≤ low.toNat ∧ high.toNat ≤ 0xBF)) ∨
    (count = 3 ∧ (1 ≤ first.toNat % 0x08 ∨ 0x90 ≤ low.toNat ∧ high.toNat ≤ 0xBF)) := by
  unfold continuation? at h
  simp only [UInt8.le_iff_toNat_le, ← UInt8.toNat_inj, UInt8.reduceToNat] at h
  repeat' split at h
  all_goals cases h
  all_goals simp only [UInt8.reduceToNat, Nat.reduceEqDiff, Nat.reduceLeDiff, true_and, false_and,
    or_false, false_or, and_self, or_true]
  all_goals omega

/-- A complete character of several bytes. -/
theorem follow_eq_true (hf : ¬ first < 0x80) (h : follow first rest = (n, true)) :
    ∃ low high second more, continuation? first = some (low, high, more.length + 1) ∧
      low ≤ second ∧ second ≤ high ∧ rest.take n = second :: more := by
  rw [follow, if_neg hf] at h
  cases hc : continuation? first with
  | none =>
    rw [hc] at h
    cases h
  | some form =>
    obtain ⟨low, high, count⟩ := form
    rw [hc] at h
    cases rest with
    | nil => cases h
    | cons second tail =>
      dsimp only at h
      split at h
      next hsecond =>
        obtain ⟨hn, hlen⟩ := Prod.mk.inj h
        have hmore := of_decide_eq_true hlen
        have hle : (tail.take (count - 1)).length ≤ count - 1 := List.length_take_le _ _
        -- all bytes that were looked at are taken
        have hall := (List.takeWhile_prefix (l := tail.take (count - 1))
          fun b ↦ decide (0x80 ≤ b ∧ b ≤ 0xBF)).eq_of_length_le (by omega)
        rw [hall] at hn hmore
        have hcount : (tail.take (count - 1)).length + 1 = count := by
          have hforms := of_continuation? hc
          omega
        refine ⟨low, high, second, tail.take (count - 1), by rw [hcount], hsecond.1, hsecond.2, ?_⟩
        rw [← hn, Nat.add_comm, List.take_succ_cons, hmore]
      · cases h

/-- A number that is no code point gives the character NUL. -/
private theorem toNat_ofNat_eq (n : Nat) : (Char.ofNat n).toNat = 0 ∨ (Char.ofNat n).toNat = n := by
  by_cases hn : n.isValidChar
  · rw [Char.ofNat, dif_pos hn]
    exact .inr rfl
  · rw [Char.ofNat, dif_neg hn]
    exact .inl rfl

/-- A character of several bytes is no ASCII character. -/
theorem toNat_scalar_of_follow (hf : ¬ first < 0x80) (h : follow first rest = (n, true)) :
    (scalar first (rest.take n)).toNat = 0 ∨ 0x80 ≤ (scalar first (rest.take n)).toNat := by
  obtain ⟨low, high, second, more, hc, hlow, hhigh, htake⟩ := follow_eq_true hf h
  rw [UInt8.le_iff_toNat_le] at hlow hhigh
  rw [htake, scalar]
  refine (toNat_ofNat_eq _).imp_right fun he ↦ ?_
  rw [he]
  rcases of_continuation? hc with ⟨hcount, hlead⟩ | ⟨hcount, hlead⟩ | ⟨hcount, hlead⟩
  · obtain rfl : more = [] := List.length_eq_zero_iff.1 (by omega)
    exact ascii_le_foldl_payload hlead (List.cons_ne_nil _ _)
  · have hmore : more ≠ [] := fun he ↦ by rw [he] at hcount; cases hcount
    have htwo : 2 ≤ first.toNat % 0x10 * 0x40 + second.toNat % 0x40 := by omega
    rw [List.length_cons, hcount, List.foldl_cons]
    exact ascii_le_foldl_payload htwo hmore
  · have hmore : more ≠ [] := fun he ↦ by rw [he] at hcount; cases hcount
    have htwo : 2 ≤ first.toNat % 0x08 * 0x40 + second.toNat % 0x40 := by omega
    rw [List.length_cons, hcount, List.foldl_cons]
    exact ascii_le_foldl_payload htwo hmore

/-- **A byte string is its text, if this is ASCII.** -/
theorem eq_map_repaired (hb : ∀ c ∈ repaired b, c.toNat ≠ 0 ∧ c.toNat < 0x80) :
    b = (repaired b).map fun c ↦ UInt8.ofNat c.toNat := by
  induction b using repaired.induct with
  | case1 => rw [repaired, List.map_nil]
  | case2 first rest n complete hfollow ih =>
    rw [repaired, hfollow] at hb ⊢
    dsimp only at hb ⊢
    obtain ⟨hfirst, hrest⟩ := List.forall_mem_cons.1 hb
    rw [List.map_cons, ← ih hrest]
    cases complete with
    | false =>
      -- U+FFFD is no ASCII character
      rw [if_neg Bool.false_ne_true] at hfirst
      exact absurd hfirst.2 (by decide)
    | true =>
      rw [if_pos rfl] at hfirst ⊢
      by_cases hascii : first < 0x80
      · -- a character of one byte
        rw [follow, if_pos hascii] at hfollow
        obtain rfl : 0 = n := (Prod.mk.inj hfollow).1
        have hscalar : scalar first (rest.take 0) = Char.ofNat first.toNat := rfl
        rw [hscalar] at hfirst ⊢
        rw [(toNat_ofNat_eq _).resolve_left hfirst.1, UInt8.ofNat_toNat, List.drop_zero]
      · have hbeyond := (toNat_scalar_of_follow hascii hfollow).resolve_left hfirst.1
        omega

/-- **Only an ASCII text has that text**, even among byte strings that are none. -/
theorem lossy_eq_iff_of_ascii {s : String} (hs : ∀ c ∈ s.toList, c.toNat ≠ 0 ∧ c.toNat < 0x80) :
    b.lossy = s ↔ b = ofText s := by
  refine ⟨fun h ↦ ?_, fun h ↦ h ▸ lossy_of_text? (text?_ofText s)⟩
  cases ht : b.text? with
  | some s' =>
    rw [lossy_of_text? ht] at h
    rw [← h, ofText_of_text? ht]
  | none =>
    obtain rfl : String.ofList (repaired b) = s := by
      rw [← h, lossy, ht]
      rfl
    rw [String.toList_ofList] at hs
    rw [ofText_ofList_of_ascii fun c hc ↦ (hs c hc).2]
    exact eq_map_repaired hs

end Bytes

/-! ### Keys of one text -/

namespace Decimal

/-- The text of a number is in ASCII. -/
theorem ascii_of_mem_text {n : Int} : ∀ c ∈ (text n).toList, c.toNat ≠ 0 ∧ c.toNat < 0x80 := by
  have hdigit : ∀ m, ∀ c ∈ (naturalText m).toList, c.toNat ≠ 0 ∧ c.toNat < 0x80 := fun m c hc ↦ by
    rw [naturalText, String.toList_ofList] at hc
    have hbounds := toNat_le_of_isDigit (Nat.isDigit_of_mem_toDigits (by decide) (by decide) hc)
    omega
  intro c hc
  rw [text] at hc
  split at hc
  · rw [String.toList_append, List.mem_append] at hc
    rcases hc with hc | hc
    · obtain rfl := List.mem_singleton.1 hc
      decide
    · exact hdigit _ c hc
  · exact hdigit _ c hc

end Decimal

namespace Key

variable {k k' : Key} {keys : List Key}

/-- The text of an integer is the text of no other key. -/
theorem eq_of_display_eq_text {n : Int64} (hk : k.IsNormal)
    (h : k.display = Decimal.text n.toInt) : k = .int n := by
  cases k with
  | int m =>
    rw [display] at h
    have hm := Decimal.int64?_text m
    rw [h, Decimal.int64?_text] at hm
    rw [Option.some.inj hm]
  | text b =>
    rw [display, Bytes.lossy_eq_iff_of_ascii Decimal.ascii_of_mem_text] at h
    have hnone : Decimal.int64? b = none := hk
    rw [h, Decimal.int64?_text] at hnone
    cases hnone

/-- **Keys of one text** are the same key, or two byte strings with one lossy text. -/
theorem display_eq_iff (hk : k.IsNormal) (hk' : k'.IsNormal) : k.display = k'.display ↔
    k = k' ∨ ∃ b b', k = .text b ∧ k' = .text b' ∧ b.lossy = b'.lossy := by
  constructor
  · intro h
    cases k with
    | int n => exact .inl (eq_of_display_eq_text hk' h.symm).symm
    | text b =>
      cases k' with
      | int n => exact .inl (eq_of_display_eq_text hk h)
      | text b' => exact .inr ⟨b, b', rfl, rfl, h⟩
  · rintro (rfl | ⟨b, b', rfl, rfl, h⟩)
    · rfl
    · exact h

/-- **Texts of keys are distinct** exactly if no two string keys have the same lossy text. -/
theorem nodup_display_iff (hnd : keys.Nodup) (hn : ∀ k ∈ keys, k.IsNormal) :
    (keys.map display).Nodup ↔
      ∀ b b', .text b ∈ keys → .text b' ∈ keys → b.lossy = b'.lossy → b = b' := by
  rw [List.nodup_map_iff_inj_on hnd]
  constructor
  · intro hinj b b' hb hb' h
    exact Key.text.inj (hinj _ hb _ hb' h)
  · intro htexts k hk k' hk' h
    rcases (display_eq_iff (hn k hk) (hn k' hk')).1 h with he | ⟨b, b', rfl, rfl, h⟩
    · exact he
    · rw [htexts b b' hk hk' h]

/-- Different texts are read as different keys. -/
theorem ofBytes_injective : Function.Injective fun s ↦ ofBytes (.ofText s) := by
  intro s s' h
  have hdisplay : ∀ t, (ofBytes (.ofText t)).display = t := fun t ↦ by
    rw [ofBytes]
    cases hi : Decimal.int64? (.ofText t) with
    | none => exact Bytes.lossy_of_text? (Bytes.text?_ofText t)
    | some n =>
      rw [Decimal.int64?_eq_some_iff] at hi
      have ht := Bytes.text?_ofText t
      rw [hi, Bytes.text?_ofText] at ht
      exact Option.some.inj ht
  rw [← hdisplay s, ← hdisplay s']
  exact congrArg display h

end Key

/-! ### Maps that were written and read -/

/-- The keys of a map that was encoded are texts, and nothing is unacceptable in it. -/
theorem Event.pairFaults_plainPairs {items : List (Key × Event)}
    (hi : ∀ x ∈ items, x.2.plain.faults = []) :
    pairFaults (plainPairs (items.map fun x ↦ (x.1.event, x.2))) = [] := by
  induction items with
  | nil => rw [List.map_nil, plainPairs, pairFaults]
  | cons x rest ih =>
    obtain ⟨hx, hrest⟩ := List.forall_mem_cons.1 hi
    rw [List.map_cons, plainPairs, pairFaults, keyFaults, x.1.keyText_spelled, hx, ih hrest]
    rfl

theorem Event.keys_pairValues_plainPairs (items : List (Key × Event)) :
    (pairValues (plainPairs (items.map fun x ↦ (x.1.event, x.2)))).keys =
      (items.map (·.1.display)).map fun s ↦ .ofBytes (.ofText s) := by
  induction items with
  | nil => rw [List.map_nil, plainPairs, pairValues]; rfl
  | cons x rest ih =>
    rw [List.map_cons, plainPairs, pairValues, key, x.1.keyText_spelled, Pairs.keys, List.map_cons,
      ← Pairs.keys, ih]
    rfl

namespace Heap

variable {h : Heap} {t : TableId} {v : Value} {e : Event} {pairs : List (Key × Value)}

/-- The texts that the keys of an array are written as. -/
def keyTexts (h : Heap) (t : TableId) : List String := (h.pairs t).map (·.1.display)

/-- The texts of the keys are those of the array. -/
theorem map_display_of_encodeAll {encode : Value → Except EncodeError Event}
    {items : List (Key × Event)} (hall : encodeAll encode (h.pairs t) = .ok items) :
    items.map (·.1.display) = h.keyTexts t := by
  have hitems := forall₂_of_encodeAll hall
  clear hall
  rw [keyTexts]
  generalize h.pairs t = pairs at hitems
  induction hitems with
  | nil => rfl
  | cons hp _ ih => rw [List.map_cons, List.map_cons, ih, hp.1]

/-- The texts of an array are pairwise different if different text keys have different ones. -/
theorem Valid.nodup_keyTexts_iff (hv : h.Valid) (t : TableId) : (h.keyTexts t).Nodup ↔
    ∀ b b', .text b ∈ (h.pairs t).map (·.1) → .text b' ∈ (h.pairs t).map (·.1) →
      b.lossy = b'.lossy → b = b' := by
  have htexts : h.keyTexts t = ((h.pairs t).map (·.1)).map Key.display := by
    rw [keyTexts, List.map_map]
    rfl
  rw [htexts]
  exact Key.nodup_display_iff (hv.nodup_keys t) fun k hk ↦ hv.isNormal_keys hk

/-- An array is encoded by its elements. -/
theorem encode_array (h : Heap) (t : TableId) : h.encode (.array t) =
    (encodeAll (h.encodeWithin (h.extent - 1) []) (h.pairs t)).map (h.assemble t) := by
  rw [encode, h.extent_eq_add_one, encodeWithin, encodeElements_eq]
  rfl

/-- An array that is no list is encoded as a map. -/
theorem assemble_of_not_isList (hl : h.isList t = false) (items : List (Key × Event)) :
    h.assemble t items = .map (items.map fun x ↦ (x.1.event, x.2)) := by
  rw [assemble, hl]
  rfl

/-- An array that is no list is written as a map, with the texts of its keys. -/
theorem exists_map_of_encode (hl : h.isList t = false) (he : h.encode (.array t) = .ok e) :
    ∃ pairs, e = .map pairs ∧ pairs.map (·.1.spelled) = (h.keyTexts t).map .text := by
  rw [encode_array] at he
  obtain ⟨items, hall, rfl⟩ := Except.map_eq_ok_iff.1 he
  have hspelled : ∀ k : Key, k.event.spelled = .text k.display := fun k ↦ by cases k <;> rfl
  refine ⟨_, assemble_of_not_isList hl items, ?_⟩
  rw [← map_display_of_encodeAll hall, List.map_map, List.map_map]
  exact List.map_congr_left fun x _ ↦ hspelled x.1

/-- A scalar is encoded wherever it is, as an event in which nothing is unacceptable. -/
theorem exists_encode_of_isScalar (hv : IsScalar v) (n : Nat) (path : List Handle) :
    ∃ e, h.encodeWithin n path v = .ok e ∧ e.plain.faults = [] := by
  cases v with
  | null => exact ⟨.unit, by rw [encodeWithin], rfl⟩
  | bool b => exact ⟨.bool b, by rw [encodeWithin], rfl⟩
  | int m => exact ⟨.int m, by rw [encodeWithin], rfl⟩
  | double d =>
    refine ⟨.double d, by rw [encodeWithin], ?_⟩
    rw [Event.plain]
    split <;> rfl
  | string s => exact ⟨.text s.text, by rw [encodeWithin], rfl⟩
  | _ => exact hv.elim

/-- Scalars are encoded at any depth, without nesting. -/
theorem exists_encodeAll_of_isScalar (hp : ∀ u ∈ pairs.map (·.2), IsScalar u) (n : Nat)
    (path : List Handle) : ∃ items, encodeAll (h.encodeWithin n path) pairs = .ok items ∧
      ∀ x ∈ items, x.2.plain.faults = [] ∧ ∀ m, x.2.NestedTo m := by
  induction pairs with
  | nil => exact ⟨[], rfl, fun _ hx ↦ nomatch hx⟩
  | cons p rest ih =>
    obtain ⟨k, u⟩ := p
    obtain ⟨hu, hrest⟩ := List.forall_mem_cons.1 hp
    obtain ⟨e, he, hfaults⟩ := exists_encode_of_isScalar (h := h) hu n path
    obtain ⟨items, hitems, hall⟩ := ih hrest
    refine ⟨(k, e) :: items, ?_, List.forall_mem_cons.2
      ⟨⟨hfaults, nestedTo_of_isScalar hu he⟩, hall⟩⟩
    rw [encodeAll, he, hitems]
    rfl

/-- **An array of scalars that is no list comes back with one element for each text** of a key, in
every format that reads its text back. -/
theorem exists_decodes_of_isScalar (hl : h.isList t = false)
    (hp : ∀ u ∈ h.values t, IsScalar u) :
    ∃ e, h.encode (.array t) = .ok e ∧ ∀ F : Format, 0 < F.nestingLimit → F.ReadsBack e →
      ∀ h₀ : Heap, h₀.Valid → ∃ h' x,
        F.Decodes h₀ (F.write e) h' (.array x) ∧ h'.len x = (h.keyTexts t).toFinset.card := by
  have hpairs : ∀ u ∈ (h.pairs t).map (·.2), IsScalar u := hp
  obtain ⟨items, hall, hitems⟩ := exists_encodeAll_of_isScalar (h := h) hpairs (h.extent - 1) []
  have he : h.encode (.array t) = .ok (.map (items.map fun x ↦ (x.1.event, x.2))) := by
    rw [encode_array, hall, ← assemble_of_not_isList hl]
    rfl
  have hnested : ∀ n, (Event.map (items.map fun x ↦ (x.1.event, x.2))).NestedTo (n + 1) := by
    intro n p hmem
    obtain ⟨x, hx, rfl⟩ := List.mem_map.1 hmem
    exact (hitems x hx).2 n
  refine ⟨_, he, fun F hlimit hback h₀ hv₀ ↦ ?_⟩
  have htree := Event.tree_eq (Event.plain (.map (items.map fun x ↦ (x.1.event, x.2))))
  rw [Event.plain, Event.faults, Event.pairFaults_plainPairs fun x hx ↦ (hitems x hx).1,
    Event.value] at htree
  obtain ⟨m, hm⟩ := Nat.exists_eq_succ_of_ne_zero (Nat.ne_of_gt hlimit)
  obtain ⟨e', hread, htree'⟩ := hback.exists_read (hm ▸ hnested m) htree
  obtain ⟨h', u, hd, hs, hv', hadm⟩ := hv₀.exists_decodes hread htree'
  obtain ⟨x, rfl, -⟩ := shows_array_iff.1 hs
  refine ⟨h', x, hd, ?_⟩
  have himage : ((h.keyTexts t).map fun s ↦ Key.ofBytes (.ofText s)).toFinset =
      (h.keyTexts t).toFinset.image fun s ↦ Key.ofBytes (.ofText s) := by
    ext k
    simp only [List.mem_toFinset, List.mem_map, Finset.mem_image]
  rw [(hs.reads hv' (admits_array_iff.1 hadm)).len, Pairs.length_latest,
    Event.keys_pairValues_plainPairs, map_display_of_encodeAll hall, himage,
    Finset.card_image_of_injective _ Key.ofBytes_injective]

end Heap

namespace Workspace

variable {w : Workspace} {t : TableId}

/-- **The keys that an array is written with.** In every workspace that a program leads to, an array
that is no list is written as a map, with the decimal texts of its integer keys and the lossy texts
of its text keys. The texts are pairwise different exactly if different text keys have different
lossy texts, which is so if they are UTF-8. An array of scalars is read back with one element for
each text, so it comes back with all of its elements exactly if the texts are pairwise different.
This is so in every format that lets a map be read and reads the text of the array back. -/
theorem Reachable.written_keys (hw : w.Reachable) (hl : w.heap.isList t = false) :
    (∀ e, w.heap.encode (.array t) = .ok e →
      ∃ pairs, e = .map pairs ∧ pairs.map (·.1.spelled) = (w.heap.keyTexts t).map .text) ∧
    ((w.heap.keyTexts t).Nodup ↔ ∀ b b', .text b ∈ (w.heap.pairs t).map (·.1) →
      .text b' ∈ (w.heap.pairs t).map (·.1) → b.lossy = b'.lossy → b = b') ∧
    ((∀ k ∈ (w.heap.pairs t).map (·.1), k.IsText) → (w.heap.keyTexts t).Nodup) ∧
    ((∀ u ∈ w.heap.values t, Heap.IsScalar u) → ∃ e, w.heap.encode (.array t) = .ok e ∧
      ∀ F : Format, 0 < F.nestingLimit → F.ReadsBack e → ∀ h : Heap, h.Valid →
        ∃ h' x, F.Decodes h (F.write e) h' (.array x) ∧
          h'.len x = (w.heap.keyTexts t).toFinset.card ∧
          (h'.len x = w.heap.len t ↔ (w.heap.keyTexts t).Nodup)) := by
  have hv := hw.valid.heap
  refine ⟨fun e ↦ Heap.exists_map_of_encode hl, hv.nodup_keyTexts_iff t, fun htext ↦ ?_,
    fun hp ↦ ?_⟩
  · refine (hv.nodup_keyTexts_iff t).2 fun b b' hb hb' h ↦ ?_
    have htext₁ : b.IsText := htext _ hb
    have htext₂ : b'.IsText := htext _ hb'
    rw [← htext₁.ofText_lossy, h, htext₂.ofText_lossy]
  · obtain ⟨e, he, hdecodes⟩ := Heap.exists_decodes_of_isScalar hl hp
    refine ⟨e, he, fun F hlimit hback h hh ↦ ?_⟩
    obtain ⟨h', x, hd, hlen⟩ := hdecodes F hlimit hback h hh
    refine ⟨h', x, hd, hlen, ?_⟩
    have hlength : w.heap.len t = (w.heap.keyTexts t).length := by
      rw [hv.len_eq, Heap.keyTexts, List.length_map]
    rw [hlen, hlength]
    exact Multiset.toFinset_card_eq_card_iff_nodup

/-- A program that makes an array with two text keys that are no UTF-8, and one with a text key that
is and an integer key. -/
def collidingProgram : List Statement :=
  [⟨.array (.constant (.int 1)), some "x"⟩, ⟨.array (.constant (.int 2)), some "y"⟩,
    ⟨.collect [(.key (.text [0xFF]), "x"), (.key (.text [0xFE]), "y")], some "a"⟩,
    ⟨.collect [(.key (.text [0x62]), "x"), (.key (.int 7), "y")], some "b"⟩]

/-- Where that program ends. -/
def collidingEnd : Workspace := ((empty.run collidingProgram).map (·.1)).getD empty

theorem reachable_collidingEnd : collidingEnd.Reachable := ⟨collidingProgram, _, rfl⟩

/-- The second array comes back through JSON with both of its elements. -/
theorem Reachable.written_keys_collidingEnd :
    collidingEnd.Reachable ∧ collidingEnd.heap.isList ⟨1⟩ = false ∧
      (collidingEnd.heap.keyTexts ⟨1⟩).Nodup ∧
      ∃ e, collidingEnd.heap.encode (.array ⟨1⟩) = .ok e ∧ ∃ h x,
        Json.format.Decodes collidingEnd.heap (Json.write e) h (.array x) ∧ h.len x = 2 := by
  obtain ⟨-, -, htexts, hscalars⟩ := reachable_collidingEnd.written_keys (t := ⟨1⟩) rfl
  have hnodup : (collidingEnd.heap.keyTexts ⟨1⟩).Nodup := htexts fun k hk ↦ by
    rcases List.mem_pair.1 hk with rfl | rfl
    · exact Bytes.isText_ofText "b"
    · trivial
  obtain ⟨e, he, hdecodes⟩ := hscalars fun u hu ↦ by
    rcases List.mem_pair.1 hu with rfl | rfl <;> trivial
  obtain ⟨h, x, hd, -, hlen⟩ := hdecodes Json.format (by decide) (Heap.readsBack_of_encode he) _
    reachable_collidingEnd.valid.heap
  exact ⟨reachable_collidingEnd, rfl, hnodup, e, he, h, x, hd, hlen.2 hnodup⟩

/-- **Two keys of one text**: neither key of the first array is UTF-8, and both are written as the
replacement character. The array comes back with one element in every format that reads its text
back. -/
theorem not_nodup_keyTexts_collidingEnd :
    collidingEnd.Reachable ∧ collidingEnd.heap.isList ⟨0⟩ = false ∧
      collidingEnd.heap.pairs ⟨0⟩ = [(.text [0xFF], .int 1), (.text [0xFE], .int 2)] ∧
      ¬ (collidingEnd.heap.keyTexts ⟨0⟩).Nodup ∧
      ∃ e, collidingEnd.heap.encode (.array ⟨0⟩) = .ok e ∧
        ∀ F : Format, 0 < F.nestingLimit → F.ReadsBack e → ∃ h x,
          F.Decodes collidingEnd.heap (F.write e) h (.array x) ∧ h.len x = 1 := by
  have hkeys : collidingEnd.heap.keyTexts ⟨0⟩ = ["\uFFFD", "\uFFFD"] := by
    have hlossy : ∀ b ∈ [0xFF, 0xFE], Bytes.lossy [b] = "\uFFFD" := fun b hb ↦ by
      have hnone : Bytes.text? [b] = none := by
        revert b
        decide +kernel
      rw [Bytes.lossy, hnone]
      rcases List.mem_pair.1 hb with rfl | rfl <;>
        simp [Bytes.repaired, Bytes.follow, Bytes.continuation?]
    have hlist : collidingEnd.heap.keyTexts ⟨0⟩ = [Bytes.lossy [0xFF], Bytes.lossy [0xFE]] := rfl
    rw [hlist, hlossy 0xFF (by decide), hlossy 0xFE (by decide)]
  obtain ⟨e, he, hdecodes⟩ := Heap.exists_decodes_of_isScalar (h := collidingEnd.heap) (t := ⟨0⟩)
    rfl fun u hu ↦ by rcases List.mem_pair.1 hu with rfl | rfl <;> trivial
  refine ⟨reachable_collidingEnd, rfl, rfl, ?_, e, he, fun F hlimit hback ↦ ?_⟩
  · rw [hkeys]
    decide
  · obtain ⟨h, x, hd, hlen⟩ := hdecodes F hlimit hback _ reachable_collidingEnd.valid.heap
    rw [hkeys] at hlen
    exact ⟨h, x, hd, hlen⟩

end Workspace

end SharedValue
