import Mathlib.Algebra.Group.Nat.Defs
import Mathlib.Data.List.Basic
import SharedValue.Proofs.Table.NextFree

/-!
# Well-formed tables

A table is *well formed* when its stored keys are distinct and normal and the two facts that it
carries along are true: `bindings` is the number of its bound slots and `nextFree` the next free key
of its stored keys. The keys of vacant entries are stored like all others.

Each operation on tables has two lemmas here: what it does to the stored keys (`storedKeys_put`,
`storedKeys_insertNew`, `storedKeys_remove`, ...), and that it keeps a table well formed. Nothing
else is needed of a caller but that a new key is absent and normal.
-/

namespace SharedValue.Table

/-- The keys stored in a table, shown or not, in order. -/
def storedKeys (t : Table) : List Key := t.entries.map (·.key)

/-- The invariant of tables. -/
structure WellFormed (t : Table) : Prop where
  /-- No key is stored twice. -/
  keys_nodup : t.storedKeys.Nodup
  /-- No stored text spells an integer. -/
  keys_normal : ∀ k ∈ t.storedKeys, k.IsNormal
  /-- Bound slots are counted. -/
  bindings_eq : t.bindings = t.entries.countP (·.slot.isBinding)
  /-- The next free key is the one of the stored keys. -/
  nextFree_isNextFree : IsNextFree t.storedKeys t.nextFree

/-! ### Stored keys -/

variable {t : Table} {k : Key} {s : Slot}

/-- A key has no slot exactly if it is not stored. -/
theorem find?_eq_none_iff_notMem : t.find? k = none ↔ k ∉ t.storedKeys := by
  simp [find?, storedKeys]

/-- A key is stored exactly if it has a slot. -/
theorem mem_storedKeys_iff : k ∈ t.storedKeys ↔ ∃ s, t.find? k = some s := by
  rw [← Option.ne_none_iff_exists', Ne, find?_eq_none_iff_notMem, Decidable.not_not]

theorem mem_storedKeys_of_find? (h : t.find? k = some s) : k ∈ t.storedKeys :=
  mem_storedKeys_iff.2 ⟨s, h⟩

theorem stores_iff_mem : t.stores k = true ↔ k ∈ t.storedKeys := by
  simp [stores, storedKeys]

/-- What is found under a key is in an entry. -/
theorem exists_entry_of_find? (h : t.find? k = some s) :
    ∃ e ∈ t.entries, e.key = k ∧ e.slot = s := by
  obtain ⟨e, he, hs⟩ := Option.map_eq_some_iff.1 h
  exact ⟨e, List.mem_of_find?_eq_some he, by simpa using List.find?_some he, hs⟩

/-- Where keys are distinct, each entry is what is found under its key. -/
theorem find?_of_mem (hnd : t.storedKeys.Nodup) {e : Entry} (he : e ∈ t.entries) :
    t.find? e.key = some e.slot := by
  unfold find? storedKeys at *
  generalize t.entries = entries at *
  induction entries with
  | nil => cases he
  | cons a rest ih =>
    rw [List.map_cons, List.nodup_cons] at hnd
    rcases List.mem_cons.1 he with rfl | he
    · simp
    · have hne : a.key ≠ e.key := fun h ↦ hnd.1 (h ▸ List.mem_map_of_mem he)
      simpa [List.find?_cons, hne] using ih hnd.2 he

@[simp]
theorem storedKeys_empty : empty.storedKeys = [] := rfl

/-- Another slot under a key leaves the keys as they are. -/
@[simp]
theorem storedKeys_put (t : Table) (k : Key) (s : Slot) :
    (t.put k s).storedKeys = t.storedKeys :=
  map_key_put t k s

/-- A new key is last. -/
@[simp]
theorem storedKeys_insertNew (t : Table) (l : Label) (s : Slot) :
    (t.insertNew l s).storedKeys = t.storedKeys ++ [l.key] := by
  simp [storedKeys, insertNew]

private theorem map_key_eraseP (entries : List Entry) (k : Key) :
    (entries.eraseP fun e ↦ e.key = k).map (·.key) = (entries.map (·.key)).erase k := by
  rw [List.erase_eq_eraseP', List.eraseP_map]
  rfl

/-- A key that is taken out leaves the others in their order. -/
@[simp]
theorem storedKeys_remove (t : Table) (k : Key) :
    (t.remove k).storedKeys = t.storedKeys.erase k := by
  unfold remove
  split
  next h => rw [List.erase_of_not_mem (find?_eq_none_iff_notMem.1 h)]
  next s h => exact map_key_eraseP t.entries k

/-- A removed key is not found any more, and every other key is found as before. -/
theorem find?_remove (hnd : t.storedKeys.Nodup) (k j : Key) :
    (t.remove k).find? j = if j = k then none else t.find? j := by
  split
  next he =>
    rw [find?_eq_none_iff_notMem, storedKeys_remove, he]
    exact hnd.not_mem_erase
  next hne =>
    rw [remove]
    split
    · rfl
    · show ((t.entries.eraseP fun e ↦ e.key = k).find? fun e ↦ e.key = j).map (·.slot) = _
      rw [find?]
      congr 1
      clear hnd
      induction t.entries with
      | nil => rfl
      | cons e rest ih =>
        rw [List.eraseP_cons, List.find?_cons]
        by_cases hk : e.key = k
        · have hj : e.key ≠ j := fun he ↦ hne (he.symm.trans hk)
          simp [hk, hk ▸ hj]
        · simp only [hk, decide_false, cond_false, List.find?_cons, ih]

/-- Taking out a slot that is no binding leaves the count of bindings. -/
theorem bindings_remove {v : Value} (hf : t.find? k = some (.value v)) :
    (t.remove k).bindings = t.bindings := by
  rw [remove, hf]
  rfl

/-! ### What is kept -/

theorem wellFormed_empty : empty.WellFormed :=
  ⟨List.nodup_nil, fun _ h ↦ absurd h List.not_mem_nil, rfl, isNextFree_nil⟩

/-- A bound slot is counted, so there is one to take away when it goes. -/
theorem WellFormed.bindings_pos {c : CellId} (h : t.WellFormed)
    (hf : t.find? k = some (.binding c)) : 0 < t.bindings := by
  obtain ⟨e, he, -, hs⟩ := exists_entry_of_find? hf
  rw [h.bindings_eq, List.countP_pos_iff]
  exact ⟨e, he, by simp [hs, Slot.isBinding]⟩

/-- Without bindings every slot holds a value. -/
theorem WellFormed.exists_value (h : t.WellFormed) (hb : t.bindings = 0) {e : Entry}
    (he : e ∈ t.entries) : ∃ v, e.slot = .value v := by
  rw [h.bindings_eq, List.countP_eq_zero] at hb
  have := hb e he
  cases hs : e.slot with
  | value v => exact ⟨v, rfl⟩
  | binding c => simp [hs, Slot.isBinding] at this

/-- Without bindings, every slot has a value of its own. -/
theorem WellFormed.find?_of_bindings_eq_zero (h : t.WellFormed) (hb : t.bindings = 0)
    (hf : t.find? k = some s) : ∃ v, s = .value v := by
  obtain ⟨e, he, -, rfl⟩ := exists_entry_of_find? hf
  exact h.exists_value hb he

/-- Another slot in place of an entry counts for the one that was there. -/
private theorem countP_replace {entries : List Entry} (hnd : (entries.map (·.key)).Nodup)
    {e : Entry} (he : e ∈ entries) (s : Slot) :
    (entries.map fun a ↦ if a.key = e.key then { a with slot := s } else a).countP
        (·.slot.isBinding) + (if e.slot.isBinding then 1 else 0) =
      entries.countP (·.slot.isBinding) + if s.isBinding then 1 else 0 := by
  induction entries with
  | nil => cases he
  | cons a rest ih =>
    rw [List.map_cons, List.nodup_cons] at hnd
    simp only [List.map_cons, List.countP_cons]
    rcases List.mem_cons.1 he with rfl | he
    · -- the key occurs nowhere else, so the rest stays as it is
      have hrest : (rest.map fun a ↦ if a.key = e.key then { a with slot := s } else a) = rest := by
        refine (List.map_congr_left fun a ha ↦ if_neg fun hk ↦ hnd.1 ?_).trans (List.map_id _)
        exact hk ▸ List.mem_map_of_mem ha
      rw [hrest]
      simp only [if_true]
      omega
    · have hne : a.key ≠ e.key := fun h ↦ hnd.1 (h ▸ List.mem_map_of_mem he)
      rw [if_neg hne]
      have := ih hnd.2 he
      omega

/-- Replacing a slot changes the number of bound slots by what was there and what is there now. -/
theorem WellFormed.countP_put {old : Slot} (h : t.WellFormed) (hf : t.find? k = some old)
    (s : Slot) : (t.put k s).entries.countP (·.slot.isBinding) + (if old.isBinding then 1 else 0) =
      t.bindings + if s.isBinding then 1 else 0 := by
  obtain ⟨e, he, rfl, rfl⟩ := exists_entry_of_find? hf
  rw [h.bindings_eq]
  exact countP_replace h.keys_nodup he s

/-- A slot replaced by one of its sort. -/
theorem WellFormed.put {old : Slot} (h : t.WellFormed) (hf : t.find? k = some old)
    (hs : s.isBinding = old.isBinding) : (t.put k s).WellFormed where
  keys_nodup := by simpa using h.keys_nodup
  keys_normal := by simpa using h.keys_normal
  bindings_eq := by
    have hcount := h.countP_put hf s
    rw [hs] at hcount
    exact (Nat.add_right_cancel hcount).symm
  nextFree_isNextFree := by
    rw [storedKeys_put]
    exact h.nextFree_isNextFree

/-- A slot bound to a cell, counted if it was not bound before. -/
theorem WellFormed.put_binding {old : Slot} (h : t.WellFormed) (hf : t.find? k = some old)
    (c : CellId) : WellFormed { t.put k (.binding c) with
      bindings := if old.isBinding then t.bindings else t.bindings + 1 } where
  keys_nodup := by
    have hnd := h.keys_nodup
    rwa [← storedKeys_put t k (.binding c)] at hnd
  keys_normal := by
    have hn := h.keys_normal
    rwa [← storedKeys_put t k (.binding c)] at hn
  bindings_eq := by
    have hcount := h.countP_put hf (.binding c)
    cases hb : old.isBinding <;> simp_all [Slot.isBinding]
  nextFree_isNextFree := by
    have hnext := h.nextFree_isNextFree
    rwa [← storedKeys_put t k (.binding c)] at hnext

/-- A new entry. -/
theorem WellFormed.insertNew {l : Label} (h : t.WellFormed) (hf : t.find? l.key = none)
    (hn : l.key.IsNormal) (s : Slot) : (t.insertNew l s).WellFormed where
  keys_nodup := by
    have habsent := find?_eq_none_iff_notMem.1 hf
    rw [storedKeys_insertNew, List.nodup_append]
    refine ⟨h.keys_nodup, by simp, fun a ha b hb ↦ ?_⟩
    obtain rfl : b = l.key := by simpa using hb
    exact fun hab ↦ habsent (hab ▸ ha)
  keys_normal := by
    intro k hk
    rw [storedKeys_insertNew, List.mem_append, List.mem_singleton] at hk
    rcases hk with hk | rfl
    · exact h.keys_normal k hk
    · exact hn
  bindings_eq := by
    simp only [Table.insertNew, List.countP_append, List.countP_singleton, ← h.bindings_eq]
    cases s.isBinding <;> simp
  nextFree_isNextFree := by
    rw [storedKeys_insertNew]
    exact h.nextFree_isNextFree.noteKey l.key

/-- An entry that is taken out is counted no longer. -/
private theorem countP_eraseP_key {entries : List Entry} (hnd : (entries.map (·.key)).Nodup)
    {e : Entry} (he : e ∈ entries) :
    (entries.eraseP fun a ↦ a.key = e.key).countP (·.slot.isBinding) +
        (if e.slot.isBinding then 1 else 0) = entries.countP (·.slot.isBinding) := by
  induction entries with
  | nil => cases he
  | cons a rest ih =>
    rw [List.map_cons, List.nodup_cons] at hnd
    rcases List.mem_cons.1 he with rfl | he
    · simp [List.countP_cons]
    · have hne : a.key ≠ e.key := fun h ↦ hnd.1 (h ▸ List.mem_map_of_mem he)
      have := ih hnd.2 he
      rw [List.eraseP_cons_of_neg (by simpa using hne)]
      simp only [List.countP_cons]
      omega

/-- An entry taken out. -/
theorem WellFormed.remove (h : t.WellFormed) (k : Key) : (t.remove k).WellFormed where
  keys_nodup := by
    rw [storedKeys_remove]
    exact h.keys_nodup.erase k
  keys_normal := by
    intro j hj
    rw [storedKeys_remove] at hj
    exact h.keys_normal j (List.mem_of_mem_erase hj)
  bindings_eq := by
    unfold Table.remove
    split
    next => exact h.bindings_eq
    next s hf =>
      obtain ⟨e, he, rfl, rfl⟩ := exists_entry_of_find? hf
      have hcount := countP_eraseP_key h.keys_nodup he
      have hall := h.bindings_eq
      dsimp only
      split at hcount
      · simp_all
        omega
      · simp_all
  nextFree_isNextFree := by
    rw [storedKeys_remove]
    unfold Table.remove
    split
    next hf =>
      rw [List.erase_of_not_mem (find?_eq_none_iff_notMem.1 hf)]
      exact h.nextFree_isNextFree
    next s hf =>
      dsimp only
      split
      next =>
        have hfresh := isNextFree_nextFreeOf (t.entries.eraseP fun e ↦ e.key = k)
        rwa [map_key_eraseP] at hfresh
      next hh => exact h.nextFree_isNextFree.erase (by simpa using hh)

/-! ### Copies -/

/-- What a copy holds in place of an entry. -/
def detachedEntry (content : CellId → Value) (e : Entry) : Option Entry :=
  match e.slot with
  | .value _ => some e
  | .binding c =>
    match content c with
    | .undefined => none
    | v => some { e with slot := .value v }

/-- Nothing is to be detached from a table without bindings. -/
theorem detached_of_bindings_eq_zero (content : CellId → Value) (h : t.bindings = 0) :
    t.detached content = t := by
  simp [detached, h]

/-- The entries of a detached table are the detached entries. -/
theorem detached_entries_of_bindings_ne_zero (content : CellId → Value) (h : t.bindings ≠ 0) :
    (t.detached content).entries = t.entries.filterMap (detachedEntry content) := by
  rw [detached, if_neg h]
  rfl

/-- A detached table has no bindings. -/
@[simp]
theorem bindings_detached (t : Table) (content : CellId → Value) :
    (t.detached content).bindings = 0 := by
  unfold detached
  split <;> simp_all

/-- A detached entry keeps its key. -/
theorem key_of_detachedEntry {content : CellId → Value} {e e' : Entry}
    (h : detachedEntry content e = some e') : e'.key = e.key := by
  unfold detachedEntry at h
  split at h
  · rw [← Option.some.inj h]
  · split at h
    · cases h
    · rw [← Option.some.inj h]

/-- A detached entry has the value of the slot, or the content of the cell that it was bound to. -/
theorem value_of_detachedEntry {content : CellId → Value} {e e' : Entry}
    (h : detachedEntry content e = some e') :
    ∃ v, e'.slot = .value v ∧ (e.slot = .value v ∨ ∃ c, e.slot = .binding c ∧ content c = v) := by
  unfold detachedEntry at h
  split at h
  next v hs =>
    rw [← Option.some.inj h]
    exact ⟨v, hs, .inl hs⟩
  next c hs =>
    split at h
    · cases h
    · rw [← Option.some.inj h]
      exact ⟨content c, rfl, .inr ⟨c, hs, rfl⟩⟩

private theorem map_key_detachedEntry_sublist (content : CellId → Value) (entries : List Entry) :
    ((entries.filterMap (detachedEntry content)).map (·.key)).Sublist (entries.map (·.key)) := by
  induction entries with
  | nil => exact .slnil
  | cons e rest ih =>
    rw [List.map_cons]
    cases h : detachedEntry content e with
    | none =>
      rw [List.filterMap_cons_none h]
      exact ih.cons _
    | some e' =>
      rw [List.filterMap_cons_some h, List.map_cons, key_of_detachedEntry h]
      exact ih.cons_cons _

/-- A copy stores some of the keys, in their order. -/
theorem storedKeys_detached_sublist (t : Table) (content : CellId → Value) :
    (t.detached content).storedKeys.Sublist t.storedKeys := by
  by_cases hb : t.bindings = 0
  · rw [detached_of_bindings_eq_zero content hb]
  · rw [storedKeys, detached_entries_of_bindings_ne_zero content hb]
    exact map_key_detachedEntry_sublist content t.entries

/-- A copy of a table. -/
theorem WellFormed.detached (h : t.WellFormed) (content : CellId → Value) :
    (t.detached content).WellFormed where
  keys_nodup := h.keys_nodup.sublist (t.storedKeys_detached_sublist content)
  keys_normal := fun k hk ↦ h.keys_normal k ((t.storedKeys_detached_sublist content).subset hk)
  bindings_eq := by
    by_cases hb : t.bindings = 0
    · rw [detached_of_bindings_eq_zero content hb]
      exact h.bindings_eq
    · rw [bindings_detached, detached_entries_of_bindings_ne_zero content hb]
      refine (List.countP_eq_zero.2 fun e he ↦ ?_).symm
      obtain ⟨e₀, -, h₀⟩ := List.mem_filterMap.1 he
      obtain ⟨v, hv, -⟩ := value_of_detachedEntry h₀
      simp [hv, Slot.isBinding]
  nextFree_isNextFree := by
    by_cases hb : t.bindings = 0
    · rw [detached_of_bindings_eq_zero content hb]
      exact h.nextFree_isNextFree
    · have hfresh := isNextFree_nextFreeOf (t.entries.filterMap (detachedEntry content))
      rw [storedKeys, detached_entries_of_bindings_ne_zero content hb, Table.detached, if_neg hb]
      change IsNextFree _ (if (t.entries.filterMap (detachedEntry content)).length =
        t.entries.length then t.nextFree else nextFreeOf _)
      split
      next hlen =>
        -- nothing was left out, so the keys are the same
        have hsame : (t.entries.filterMap (detachedEntry content)).map (·.key) = t.storedKeys :=
          (map_key_detachedEntry_sublist content t.entries).eq_of_length (by simpa using hlen)
        rw [hsame]
        exact h.nextFree_isNextFree
      next => exact hfresh

/-! ### Lists -/

/-- The table of a list: as long as there is an index for every value, no index is used twice. -/
theorem wellFormed_ofList {vs : List Value} (hlen : vs.length ≤ 2 ^ 63) :
    (ofList vs).WellFormed := by
  suffices h : ∀ (vs : List Value) (j : Nat) (t : Table), j + vs.length ≤ 2 ^ 63 → t.WellFormed →
      (∀ m : Int64, .int m ∈ t.storedKeys → m.toInt < j) →
      ((vs.zipIdx j).foldl (fun t (p : Value × Nat) ↦
        t.insertNew (Label.int (Int64.ofNat p.2)) (.value p.1)) t).WellFormed from
    h vs 0 empty (by omega) wellFormed_empty (by simp)
  intro vs
  induction vs with
  | nil => exact fun j t _ ht _ ↦ ht
  | cons v vs ih =>
    intro j t hj ht hlt
    rw [List.length_cons] at hj
    have hto : (Int64.ofNat j).toInt = j := Int64.toInt_ofNat_of_lt (by omega)
    have habsent : t.find? (Label.int (Int64.ofNat j)).key = none := by
      rw [find?_eq_none_iff_notMem]
      intro hmem
      have := hlt _ hmem
      omega
    rw [List.zipIdx_cons, List.foldl_cons]
    refine ih (j + 1) _ (by omega) (ht.insertNew habsent trivial _) fun m hm ↦ ?_
    rw [storedKeys_insertNew, List.mem_append, List.mem_singleton] at hm
    rcases hm with hm | hm
    · have := hlt m hm
      omega
    · obtain rfl : m = Int64.ofNat j := by simpa [Label.int] using hm
      omega

end SharedValue.Table
