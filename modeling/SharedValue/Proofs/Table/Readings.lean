import SharedValue.Proofs.Table.WellFormed

/-!
# What a table shows

The readings of a table in terms of what is found under its keys. A slot that is bound shows the
content of its cell, a slot that is not shows its value, and each reading is a matter of what the
slots show: `Table.get?`, `Table.contains`, `Table.pairs` and `Table.len` agree on it
(`mem_pairs_iff`, `get?_eq_bind`, `contains_eq_isSome`, `WellFormed.len_eq`), and an iteration comes
to the pairs one after the other (`shownBy_eq_nextShown`). A copy of a table shows what the table
shows (`WellFormed.labelled_detached`). -/

namespace SharedValue

theorem Slot.load_binding (content : CellId → Value) (c : CellId) :
    (Slot.binding c).load content =
      if content c = .undefined then none else some (content c) := by
  rw [load]
  split
  next hc => rw [if_pos hc]
  next hne => rw [if_neg hne]

/-- A slot is vacant when it shows nothing. -/
theorem Slot.isVacant_eq (content : CellId → Value) (s : Slot) :
    s.isVacant content = (s.load content).isNone := by
  cases s with
  | value v => rfl
  | binding c =>
    rw [load_binding, isVacant]
    by_cases hc : content c = .undefined <;> simp [hc]

/-- An iteration hands out what the slot shows. -/
theorem Slot.map_value_observe (content : CellId → Value) (s : Slot) :
    (s.observe content).map SlotView.value = s.load content := by
  cases s with
  | value v => cases v <;> rfl
  | binding c =>
    rw [load, observe]
    cases content c <;> rfl

/-- What is shown is a value that was written: a slot that was not shows null, and a bound slot
whose cell is undefined shows nothing. -/
theorem Slot.load_ne_undefined (content : CellId → Value) (s : Slot) :
    s.load content ≠ some .undefined := by
  cases s with
  | value v => cases v <;> exact fun h ↦ nomatch h
  | binding c =>
    rw [load_binding]
    split
    next => exact fun h ↦ nomatch h
    next hne => exact fun h ↦ hne (Option.some.inj h)

namespace Table

variable {t : Table} {k : Key} {content : CellId → Value}

/-- A table is a list when its keys count its elements. -/
theorem isList_iff : t.isList content = true ↔ ∀ (i : Nat) (k : Key),
    (t.keys content)[i]? = some k → k.int?.map Int64.toInt = some (i : Int) := by
  rw [isList, List.all_eq_true]
  constructor
  · intro hall i k hk
    simpa using hall (k, i) (List.mk_mem_zipIdx_iff_getElem?.2 hk)
  · rintro hall ⟨k, i⟩ hmem
    simpa using hall i k (List.mk_mem_zipIdx_iff_getElem?.1 hmem)

/-- Looking a key up gives what its slot shows. -/
theorem get?_eq_bind (t : Table) (content : CellId → Value) (k : Key) :
    t.get? content k = (t.find? k.normalize).bind (·.load content) := by
  rw [get?, lookup]
  cases t.find? k.normalize with
  | none => rfl
  | some s =>
    rw [Option.filter_some, Slot.isVacant_eq]
    cases hl : s.load content <;> simp [hl]

/-- A key is shown when looking it up gives something. -/
theorem contains_eq_isSome (t : Table) (content : CellId → Value) (k : Key) :
    t.contains content k = (t.get? content k).isSome := by
  rw [contains, get?_eq_bind, lookup]
  cases t.find? k.normalize with
  | none => rfl
  | some s =>
    rw [Option.filter_some, Slot.isVacant_eq]
    cases hl : s.load content <;> simp [hl]

/-- The elements shown are the ones that are found, with what their slots show. -/
theorem mem_pairs_iff (hnd : t.storedKeys.Nodup) {v : Value} :
    (k, v) ∈ t.pairs content ↔ (t.find? k).bind (·.load content) = some v := by
  rw [pairs, labelled, List.map_filterMap, List.mem_filterMap]
  constructor
  · rintro ⟨e, he, hload⟩
    rw [Option.map_map, Option.map_eq_some_iff] at hload
    obtain ⟨u, hl, heq⟩ := hload
    obtain ⟨rfl, rfl⟩ := Prod.mk.inj heq
    rw [show e.label.key = e.key from rfl, find?_of_mem hnd he]
    exact hl
  · intro hb
    obtain ⟨s, hf, hl⟩ := Option.bind_eq_some_iff.1 hb
    obtain ⟨e, he, rfl, rfl⟩ := exists_entry_of_find? hf
    exact ⟨e, he, by rw [hl]; rfl⟩

/-- A key is shown when it is found with something to show. -/
theorem mem_keys_iff (hnd : t.storedKeys.Nodup) :
    k ∈ t.keys content ↔ ((t.find? k).bind (·.load content)).isSome := by
  rw [keys, List.mem_map, Option.isSome_iff_exists]
  constructor
  · rintro ⟨⟨k', v⟩, hmem, rfl⟩
    exact ⟨v, (mem_pairs_iff hnd).1 hmem⟩
  · rintro ⟨v, hv⟩
    exact ⟨(k, v), (mem_pairs_iff hnd).2 hv, rfl⟩

/-- The number of elements is the number of pairs. Where no slot is bound it is taken to be the
number of entries, and then every entry is shown. -/
theorem WellFormed.len_eq (h : t.WellFormed) (content : CellId → Value) :
    t.len content = (t.pairs content).length := by
  rw [pairs, List.length_map, labelled, List.length_filterMap_eq_countP, len]
  split
  next hb =>
    refine (List.countP_eq_length.2 fun e he ↦ ?_).symm
    obtain ⟨v, hv⟩ := h.exists_value hb he
    rw [hv]
    rfl
  next =>
    refine List.countP_congr fun e _ ↦ ?_
    rw [Slot.isVacant_eq]
    cases e.slot.load content <;> simp

/-! ### Iteration -/

/-- What entries show, in order. -/
def shownBy (content : CellId → Value) (entries : List Entry) : List (Key × Value) :=
  entries.filterMap fun e ↦ (e.slot.load content).map (e.key, ·)

theorem pairs_eq_shownBy (t : Table) (content : CellId → Value) :
    t.pairs content = shownBy content t.entries := by
  rw [pairs, labelled, List.map_filterMap, shownBy]
  refine List.filterMap_congr fun e _ ↦ ?_
  rw [Option.map_map]
  rfl

/-- What a table shows is what its keys show, in the order in which they are stored. -/
theorem pairs_eq_storedKeys (hnd : t.storedKeys.Nodup) (content : CellId → Value) :
    t.pairs content =
      t.storedKeys.filterMap fun k ↦ ((t.find? k).bind (·.load content)).map (k, ·) := by
  rw [pairs_eq_shownBy, shownBy, storedKeys, List.filterMap_map]
  refine List.filterMap_congr fun e he ↦ ?_
  rw [Function.comp_apply, find?_of_mem hnd he]
  rfl

/-- A table shows the same when its keys stay where they are and show the same; new keys that come
after them show nothing then. -/
theorem pairs_eq_of_start {t' : Table} {content' : CellId → Value} (hnd : t'.storedKeys.Nodup)
    (hp : t.storedKeys <+: t'.storedKeys)
    (hload : ∀ k, (t'.find? k).bind (·.load content') = (t.find? k).bind (·.load content)) :
    t'.pairs content' = t.pairs content := by
  obtain ⟨new, hnew⟩ := hp
  obtain ⟨hold, -, hdisjoint⟩ := List.nodup_append.1 (hnew ▸ hnd)
  have hnothing : new.filterMap (fun k ↦ ((t.find? k).bind (·.load content)).map (k, ·)) = [] := by
    refine List.filterMap_eq_nil_iff.2 fun k hk ↦ ?_
    rw [find?_eq_none_iff_notMem.2 fun hmem ↦ hdisjoint k hmem k hk rfl]
    rfl
  rw [pairs_eq_storedKeys hnd, pairs_eq_storedKeys hold, ← hnew, List.filterMap_append]
  simp only [hload]
  rw [hnothing, List.append_nil]

/-- An iteration comes to the first thing that the entries before it show. -/
theorem shownBy_eq_nextShown (content : CellId → Value) (entries : List Entry) :
    shownBy content entries =
      match nextShown content entries with
      | none => []
      | some (shown, rest) => shown :: shownBy content rest := by
  induction entries with
  | nil => rfl
  | cons e rest ih =>
    rw [nextShown, shownBy, List.filterMap_cons, ← Slot.map_value_observe, ← shownBy]
    cases e.slot.observe content with
    | none => exact ih
    | some view => rfl

/-! ### Copies -/

/-- A copy of an entry shows what the entry shows, whatever the cells hold then, and an entry that
is left out shows nothing. -/
theorem load_detachedEntry (content content' : CellId → Value) (e : Entry) :
    (detachedEntry content e).bind (fun e ↦ (e.slot.load content').map (e.label, ·)) =
      (e.slot.load content).map (e.label, ·) := by
  rw [detachedEntry]
  split
  next v hs =>
    rw [Option.bind_some, hs]
    rfl
  next c hs =>
    rw [hs, Slot.load]
    cases hc : content c <;> rfl

/-- **A copy shows what the table shows**, and goes on showing it whatever the cells hold later. -/
theorem WellFormed.labelled_detached (h : t.WellFormed) (content content' : CellId → Value) :
    (t.detached content).labelled content' = t.labelled content := by
  by_cases hb : t.bindings = 0
  · rw [detached_of_bindings_eq_zero content hb, labelled, labelled]
    refine List.filterMap_congr fun e he ↦ ?_
    obtain ⟨v, hs⟩ := h.exists_value hb he
    rw [hs, Slot.load, Slot.load]
  · rw [labelled, detached_entries_of_bindings_ne_zero content hb, List.filterMap_filterMap]
    exact List.filterMap_congr fun e _ ↦ load_detachedEntry content content' e

/-- What a table without bindings shows is no matter of the cells. -/
theorem WellFormed.pairs_congr (h : t.WellFormed) (hb : t.bindings = 0)
    (content content' : CellId → Value) : t.pairs content' = t.pairs content := by
  have hsame := h.labelled_detached content content'
  rw [detached_of_bindings_eq_zero content hb] at hsame
  rw [pairs, pairs, hsame]

end Table

end SharedValue
