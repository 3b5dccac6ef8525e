import SharedValue.Heap.Element
import SharedValue.Heap.Handle
import SharedValue.Proofs.Table.WellFormed

/-!
# What a heap mentions

Every handle inside a heap comes from one of its parts: from an entry of a table, from a record of
an object or a resource, or from the content of a cell (`Heap.mem_handles_iff`). A change of one
part can add only the handles of what was put in, and this is what the lemmas of the module say, one
for each change: a handle there afterwards was there before or is one of the new ones. -/

namespace SharedValue

/-! ### Stores -/

namespace Store

variable {α : Type} {s : Store α} {i : Nat} {a : α}

theorem lt_fresh_of_get? (h : s.get? i = some a) : i < s.fresh := by
  refine Nat.lt_of_not_le fun hle ↦ ?_
  rw [get?_of_fresh_le hle] at h
  cases h

theorem mem_toList_iff : a ∈ s.toList ↔ ∃ i, s.get? i = some a := by
  simp only [toList, get?, List.mem_filterMap, id, Array.mem_toList_iff, Array.mem_iff_getElem?,
    Option.join_eq_some_iff]
  constructor
  · rintro ⟨_, ⟨i, hi⟩, rfl⟩
    exact ⟨i, hi⟩
  · rintro ⟨i, hi⟩
    exact ⟨some a, ⟨i, hi⟩, rfl⟩

/-- A replaced thing is under its number, and every other thing under its own. -/
theorem get?_set_of_get? {b : α} (h : s.get? i = some b) (a : α) (j : Nat) :
    (s.set i a).get? j = if j = i then some a else s.get? j := by
  by_cases hj : j = i
  · subst hj
    rw [get?_set_self (lt_fresh_of_get? h), if_pos rfl]
  · rw [get?_set_ne s hj, if_neg hj]

/-- Where one thing was put, anything that is there is that thing or was there before. -/
theorem eq_or_get?_of_put {s' : Store α} {j : Nat} {b : α}
    (hs : ∀ i, s'.get? i = if i = j then some a else s.get? i) (hb : s'.get? i = some b) :
    a = b ∨ s.get? i = some b := by
  rw [hs] at hb
  split at hb
  · exact .inl (Option.some.inj hb)
  · exact .inr hb

theorem set_set (s : Store α) (i : Nat) (a b : α) : (s.set i a).set i b = s.set i b := by
  rw [set, set, set, Array.setIfInBounds_setIfInBounds]

/-- Putting a thing where it is already. -/
theorem set_of_get? (h : s.get? i = some a) : s.set i a = s := by
  rw [get?, Option.join_eq_some_iff] at h
  rw [set]
  congr 1
  refine Array.ext_getElem? fun j ↦ ?_
  rw [Array.getElem?_setIfInBounds]
  split
  next hj =>
    subst hj
    obtain ⟨hlt, -⟩ := Array.getElem?_eq_some_iff.1 h
    rw [h, if_pos hlt]
  · rfl

end Store

/-! ### Mentions of slots, entries and tables -/

namespace Entry

variable {e : Entry} {x : Handle}

theorem mem_handles_iff :
    x ∈ e.handles ↔ (∃ s, e.label.str? = some s ∧ x = .text s) ∨ e.slot.handle? = some x := by
  rw [handles, List.mem_append, Option.mem_toList, Option.mem_toList, Option.map_eq_some_iff]
  refine or_congr_left (exists_congr fun s ↦ and_congr_right fun _ ↦ eq_comm)

end Entry

namespace Table

variable {t : Table} {x : Handle}

theorem mem_handles_iff : x ∈ t.handles ↔ ∃ e ∈ t.entries, x ∈ e.handles :=
  List.mem_flatMap

theorem mem_handles_of_find? {k : Key} {s : Slot} (h : t.find? k = some s)
    (hs : s.handle? = some x) : x ∈ t.handles := by
  obtain ⟨e, he, -, rfl⟩ := exists_entry_of_find? h
  exact mem_handles_iff.2 ⟨e, he, Entry.mem_handles_iff.2 (.inr hs)⟩

@[simp]
theorem handles_empty : empty.handles = [] := rfl

theorem mem_handles_put {k : Key} {s : Slot} (h : x ∈ (t.put k s).handles) :
    x ∈ t.handles ∨ s.handle? = some x := by
  obtain ⟨e', he', hx⟩ := mem_handles_iff.1 h
  obtain ⟨e, he, rfl⟩ := List.mem_map.1 he'
  split at hx
  next hk =>
    rcases Entry.mem_handles_iff.1 hx with hl | hs
    · exact .inl (mem_handles_iff.2 ⟨e, he, Entry.mem_handles_iff.2 (.inl hl)⟩)
    · exact .inr hs
  next hk => exact .inl (mem_handles_iff.2 ⟨e, he, hx⟩)

theorem mem_handles_insertNew {l : Label} {s : Slot} (h : x ∈ (t.insertNew l s).handles) :
    x ∈ t.handles ∨ (∃ s, x = .text s) ∨ s.handle? = some x := by
  obtain ⟨e, he, hx⟩ := mem_handles_iff.1 h
  rcases List.mem_append.1 he with he | he
  · exact .inl (mem_handles_iff.2 ⟨e, he, hx⟩)
  · obtain rfl := List.mem_singleton.1 he
    rcases Entry.mem_handles_iff.1 hx with ⟨s, -, rfl⟩ | hs
    · exact .inr (.inl ⟨s, rfl⟩)
    · exact .inr (.inr hs)

theorem mem_handles_remove {k : Key} (h : x ∈ (t.remove k).handles) : x ∈ t.handles := by
  unfold remove at h
  split at h
  · exact h
  · obtain ⟨e, he, hx⟩ := mem_handles_iff.1 h
    exact mem_handles_iff.2 ⟨e, List.mem_of_mem_eraseP he, hx⟩

/-- A copy mentions what the table does, and what the contents of its bound cells do. -/
theorem mem_handles_detached {content : CellId → Value} (h : x ∈ (t.detached content).handles) :
    x ∈ t.handles ∨ ∃ c, .cell c ∈ t.handles ∧ (content c).handle? = some x := by
  by_cases hb : t.bindings = 0
  · rw [detached_of_bindings_eq_zero content hb] at h
    exact .inl h
  obtain ⟨e', he', hx⟩ := mem_handles_iff.1 h
  rw [detached_entries_of_bindings_ne_zero content hb] at he'
  obtain ⟨e, he, hd⟩ := List.mem_filterMap.1 he'
  obtain ⟨v, hv, hsource⟩ := value_of_detachedEntry hd
  rcases Entry.mem_handles_iff.1 hx with ⟨s, hl, rfl⟩ | hs
  · have hl' : e.label.str? = some s := by
      rcases hsource with hsame | ⟨c, hc, rfl⟩
      · simp only [detachedEntry, hsame, Option.some.injEq] at hd
        rwa [hd]
      · simp only [detachedEntry, hc] at hd
        split at hd
        · cases hd
        · rw [← Option.some.inj hd] at hl
          exact hl
    exact .inl (mem_handles_iff.2 ⟨e, he, Entry.mem_handles_iff.2 (.inl ⟨s, hl', rfl⟩)⟩)
  · rw [hv] at hs
    rcases hsource with hsame | ⟨c, hc, rfl⟩
    · refine .inl (mem_handles_iff.2 ⟨e, he, Entry.mem_handles_iff.2 (.inr ?_)⟩)
      rwa [hsame]
    · refine .inr ⟨c, mem_handles_iff.2 ⟨e, he, Entry.mem_handles_iff.2 (.inr ?_)⟩, hs⟩
      rw [hc]
      rfl

theorem mem_handles_ofList {vs : List Value} (h : x ∈ (ofList vs).handles) :
    ∃ v ∈ vs, v.handle? = some x := by
  suffices hgen : ∀ (vs : List Value) (j : Nat) (t : Table),
      x ∈ ((vs.zipIdx j).foldl (fun t (p : Value × Nat) ↦
        t.insertNew (Label.int (Int64.ofNat p.2)) (.value p.1)) t).handles →
      x ∈ t.handles ∨ ∃ v ∈ vs, v.handle? = some x by
    rcases hgen vs 0 empty h with h | h
    · cases h
    · exact h
  intro vs
  induction vs with
  | nil => exact fun j t h ↦ .inl h
  | cons v vs ih =>
    intro j t h
    rw [List.zipIdx_cons, List.foldl_cons] at h
    rcases ih _ _ h with h | ⟨u, hu, hx⟩
    · obtain ⟨e, he, hx⟩ := mem_handles_iff.1 h
      rcases List.mem_append.1 he with he | he
      · exact .inl (mem_handles_iff.2 ⟨e, he, hx⟩)
      · obtain rfl := List.mem_singleton.1 he
        rcases Entry.mem_handles_iff.1 hx with ⟨s, hl, -⟩ | hs
        · cases hl
        · exact .inr ⟨v, List.mem_cons_self, hs⟩
    · exact .inr ⟨u, List.mem_cons_of_mem _ hu, hx⟩

end Table

namespace Heap

variable {h : Heap} {x : Handle}

theorem table_of_get? {t : TableId} {T : Table} (ht : h.tables.get? t.index = some T) :
    h.table t = T := by
  simp [table, ht]

/-- A table in which something is found is there. -/
theorem get?_of_find? {t : TableId} {k : Key} {s : Slot} (hf : (h.table t).find? k = some s) :
    h.tables.get? t.index = some (h.table t) := by
  cases ht : h.tables.get? t.index with
  | none => simp [table, ht] at hf
  | some T => rw [table_of_get? ht]

/-- A cell with an array in it is there. -/
theorem get?_of_cell_eq_array {t : TableId} {c : CellId} (hc : h.cell c = .array t) :
    h.cells.get? c.index = some (.array t) := by
  rw [cell] at hc
  cases hg : h.cells.get? c.index with
  | none =>
    rw [hg] at hc
    cases hc
  | some v =>
    rw [hg] at hc
    exact congrArg some hc

theorem mem_handles_iff : x ∈ h.handles ↔
    (∃ i T, h.tables.get? i = some T ∧ x ∈ T.handles) ∨
    (∃ i r, h.objects.get? i = some r ∧ (x = .text r.className ∨ x = .table r.properties)) ∨
    (∃ i v, h.cells.get? i = some v ∧ v.handle? = some x) ∨
    (∃ i r, h.resources.get? i = some r ∧ x = .text r.kind) := by
  simp only [handles, handlesOf, List.mem_append, List.mem_flatMap, List.mem_filterMap,
    List.mem_map, Store.mem_toList_iff, List.mem_cons, List.not_mem_nil, or_false, or_assoc]
  constructor
  · rintro (⟨T, ⟨i, hi⟩, hx⟩ | ⟨r, ⟨i, hi⟩, hx⟩ | ⟨v, ⟨i, hi⟩, hx⟩ | ⟨r, ⟨i, hi⟩, rfl⟩)
    · exact .inl ⟨i, T, hi, hx⟩
    · exact .inr (.inl ⟨i, r, hi, hx⟩)
    · exact .inr (.inr (.inl ⟨i, v, hi, hx⟩))
    · exact .inr (.inr (.inr ⟨i, r, hi, rfl⟩))
  · rintro (⟨i, T, hi, hx⟩ | ⟨i, r, hi, hx⟩ | ⟨i, v, hi, hx⟩ | ⟨i, r, hi, rfl⟩)
    · exact .inl ⟨T, ⟨i, hi⟩, hx⟩
    · exact .inr (.inl ⟨r, ⟨i, hi⟩, hx⟩)
    · exact .inr (.inr (.inl ⟨v, ⟨i, hi⟩, hx⟩))
    · exact .inr (.inr (.inr ⟨r, ⟨i, hi⟩, rfl⟩))

theorem mem_handles_of_table {i : Nat} {T : Table} (hi : h.tables.get? i = some T)
    (hx : x ∈ T.handles) : x ∈ h.handles :=
  mem_handles_iff.2 (.inl ⟨i, T, hi, hx⟩)

theorem mem_handles_of_cell {i : Nat} {v : Value} (hi : h.cells.get? i = some v)
    (hx : v.handle? = some x) : x ∈ h.handles :=
  mem_handles_iff.2 (.inr (.inr (.inl ⟨i, v, hi, hx⟩)))

theorem mem_handles_of_object {i : Nat} {r : ObjectRecord} (hi : h.objects.get? i = some r) :
    .table r.properties ∈ h.handles :=
  mem_handles_iff.2 (.inr (.inl ⟨i, r, hi, .inr rfl⟩))

/-! ### Mentions after a change -/

/-- Where one table is put among the others. -/
theorem mem_handles_withTables {s : Store Table} {j : Nat} {T : Table}
    (hs : ∀ i, s.get? i = if i = j then some T else h.tables.get? i)
    (hx : x ∈ { h with tables := s }.handles) : x ∈ h.handles ∨ x ∈ T.handles := by
  rcases mem_handles_iff.1 hx with ⟨i, U, hi, hx⟩ | hrest
  · rcases Store.eq_or_get?_of_put hs hi with rfl | hi
    · exact .inr hx
    · exact .inl (mem_handles_of_table hi hx)
  · exact .inl (mem_handles_iff.2 (.inr hrest))

/-- Where the content of one cell is put among those of the others. -/
theorem mem_handles_withCells {s : Store Value} {j : Nat} {v : Value}
    (hs : ∀ i, s.get? i = if i = j then some v else h.cells.get? i)
    (hx : x ∈ { h with cells := s }.handles) : x ∈ h.handles ∨ v.handle? = some x := by
  rcases mem_handles_iff.1 hx with hT | hO | ⟨i, u, hi, hx⟩ | hR
  · exact .inl (mem_handles_iff.2 (.inl hT))
  · exact .inl (mem_handles_iff.2 (.inr (.inl hO)))
  · rcases Store.eq_or_get?_of_put hs hi with rfl | hi
    · exact .inr hx
    · exact .inl (mem_handles_of_cell hi hx)
  · exact .inl (mem_handles_iff.2 (.inr (.inr (.inr hR))))

/-- Where one object is put among the others. -/
theorem mem_handles_withObjects {s : Store ObjectRecord} {j : Nat} {r : ObjectRecord}
    (hs : ∀ i, s.get? i = if i = j then some r else h.objects.get? i)
    (hx : x ∈ { h with objects := s }.handles) :
    x ∈ h.handles ∨ x = .text r.className ∨ x = .table r.properties := by
  rcases mem_handles_iff.1 hx with hT | ⟨i, r', hi, hx⟩ | hrest
  · exact .inl (mem_handles_iff.2 (.inl hT))
  · rcases Store.eq_or_get?_of_put hs hi with rfl | hi
    · exact .inr hx
    · exact .inl (mem_handles_iff.2 (.inr (.inl ⟨i, r', hi, hx⟩)))
  · exact .inl (mem_handles_iff.2 (.inr (.inr hrest)))

theorem mem_handles_newTable {T : Table} (hx : x ∈ (h.newTable T).1.handles) :
    x ∈ h.handles ∨ x ∈ T.handles :=
  mem_handles_withTables (h.tables.get?_add T) hx

theorem mem_handles_newCell {v : Value} (hx : x ∈ (h.newCell v).1.handles) :
    x ∈ h.handles ∨ v.handle? = some x :=
  mem_handles_withCells (h.cells.get?_add v) hx

theorem mem_handles_newObject {s : Str} {t : TableId} (hx : x ∈ (h.newObject s t).1.handles) :
    x ∈ h.handles ∨ (∃ s, x = .text s) ∨ x = .table t := by
  rcases mem_handles_withObjects (h.objects.get?_add ⟨s, t⟩) hx with hx | hx | hx
  · exact .inl hx
  · exact .inr (.inl ⟨s, hx⟩)
  · exact .inr (.inr hx)

theorem mem_handles_newResource {n : Int64} {s : Str} (hx : x ∈ (h.newResource n s).1.handles) :
    x ∈ h.handles ∨ ∃ s, x = .text s := by
  rcases mem_handles_iff.1 hx with hT | hO | hC | ⟨i, r, -, rfl⟩
  · exact .inl (mem_handles_iff.2 (.inl hT))
  · exact .inl (mem_handles_iff.2 (.inr (.inl hO)))
  · exact .inl (mem_handles_iff.2 (.inr (.inr (.inl hC))))
  · exact .inr ⟨r.kind, rfl⟩

theorem mem_handles_setTable {t : TableId} {T T' : Table}
    (ht : h.tables.get? t.index = some T) (hx : x ∈ (h.setTable t T').handles) :
    x ∈ h.handles ∨ x ∈ T'.handles :=
  mem_handles_withTables (Store.get?_set_of_get? ht T') hx

theorem mem_handles_setCell {c : CellId} {u v : Value} (hc : h.cells.get? c.index = some u)
    (hx : x ∈ (h.setCell c v).handles) : x ∈ h.handles ∨ v.handle? = some x :=
  mem_handles_withCells (Store.get?_set_of_get? hc v) hx

theorem mem_handles_setProperties {o : ObjectId} {t : TableId}
    (hx : x ∈ (h.setProperties o t).handles) : x ∈ h.handles ∨ x = .table t := by
  unfold setProperties at hx
  split at hx
  · exact .inl hx
  next r hr =>
    rcases mem_handles_withObjects (Store.get?_set_of_get? hr _) hx with hx | hx | hx
    · exact .inl hx
    · exact .inl (mem_handles_iff.2 (.inr (.inl ⟨_, r, hr, .inl hx⟩)))
    · exact .inr hx

end Heap

end SharedValue
