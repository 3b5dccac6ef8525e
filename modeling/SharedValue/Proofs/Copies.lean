import SharedValue.Proofs.Readings
import SharedValue.Proofs.Workspace.Writing

/-!
# Copies of a table of variables

There are two ways to copy the array behind a table of variables. A handle shares the table as long
as nothing is bound in it, and else is given a table that was rebuilt slot by slot; a snapshot is a
new array to which what an iteration gives is assigned, one element after the other. Both show what
the table of variables shows at that moment and have no bindings (`Heap.IsCopy`), and everything
else that can be read off an array follows from that: its length, whether it is a list and the key
that is appended next. The keys of emptied bindings have no part in it.

* `Heap.storeAll_eq`, `Table.pairs_addAll`: assigning to new keys in turn puts them last in turn;
* `Heap.Valid.isCopy`: what follows from the pairs of a copy;
* `Reachable.copies_agree`: both ways to copy give a copy.
-/

namespace SharedValue

/-! ### Assigning to new keys in turn -/

namespace Table

/-- A table with values under new keys put last in turn. -/
def addAll (t : Table) (elements : List (Label × Value)) : Table :=
  elements.foldl (fun t p ↦ t.insertNew p.1.normalize (.value p.2)) t

/-- Entries that are added are shown last. -/
theorem pairs_addAll (t : Table) (elements : List (Label × Value)) (content : CellId → Value) :
    (t.addAll elements).pairs content =
      t.pairs content ++ elements.map fun p ↦ (p.1.key.normalize, p.2.shown) := by
  induction elements generalizing t with
  | nil => rw [List.map_nil, List.append_nil, addAll, List.foldl_nil]
  | cons p rest ih =>
    rw [addAll, List.foldl_cons, ← addAll, ih, pairs_insertNew, Label.key_normalize,
      List.append_assoc, List.singleton_append, List.map_cons]

end Table

namespace Heap

variable {h h' : Heap} {t t' : TableId}

/-- Assigning to a key that is not stored adds it at the end. -/
theorem store_of_find?_eq_none {l : Label} (hf : (h.table t).find? l.key = none) (v : Value) :
    h.store t l v = (h.setTable t ((h.table t).insertNew l (.value v)), none) := by
  rw [store, hf]

/-- Storing under new keys in turn adds the entries. -/
theorem storeAll_eq (ht : h.Knows t) {elements : List (Label × Value)}
    (hnd : ((h.table t).storedKeys ++ elements.map (·.1.key.normalize)).Nodup) :
    h.storeAll t elements = h.setTable t ((h.table t).addAll elements) := by
  induction elements generalizing h with
  | nil => exact (setTable_self ht).symm
  | cons p rest ih =>
    rw [List.map_cons] at hnd
    have habsent : (h.table t).find? p.1.normalize.key = none := by
      rw [Table.find?_eq_none_iff_notMem, Label.key_normalize]
      exact fun hmem ↦ (List.nodup_append.1 hnd).2.2 _ hmem _ List.mem_cons_self rfl
    have hstore := store_of_find?_eq_none habsent p.2
    have htable := table_setTable_self (Store.lt_fresh_of_get? ht.get?)
      ((h.table t).insertNew p.1.normalize (.value p.2))
    have hrest := ih (knows_setTable ht ht) (h := h.setTable t _) (by
      rw [htable, Table.storedKeys_insertNew, Label.key_normalize, List.append_assoc]
      exact hnd)
    rw [storeAll, List.foldl_cons, hstore, ← storeAll, hrest, htable, setTable_setTable]
    rfl

/-! ### Copies -/

/-- Whether an array is a copy of another one, which may belong to a table of variables: it has the
elements that the other one shows, none of them is bound, and all else that is read off it is what
the elements make it. -/
structure IsCopy (h' : Heap) (t' : TableId) (h : Heap) (t : TableId) : Prop where
  pairs_eq : h'.pairs t' = h.pairs t
  bindings_eq_zero : (h'.table t').bindings = 0
  exists_value : ∀ e ∈ (h'.table t').entries, ∃ v, e.slot = .value v
  len_eq : h'.len t' = h.len t
  isList_eq : h'.isList t' = h.isList t
  /-- The next key is one past the largest integer among the keys that are shown. -/
  nextIndex_eq : h'.nextIndex t' = nextKey ((h.table t).keys h.cell)

/-- Being a list is a matter of the pairs. -/
theorem isList_eq_of_pairs_eq (hp : h'.pairs t' = h.pairs t) : h'.isList t' = h.isList t := by
  rw [isList, isList, Table.isList, Table.isList, ← keys_pairs, ← keys_pairs, hp]

/-- **An array without bindings that has the elements of another one is a copy of it.** -/
theorem Valid.isCopy (hv : h.Valid) (hv' : h'.Valid) (ht' : h'.Sound (.table t'))
    (hp : h'.pairs t' = h.pairs t) : h'.IsCopy t' h t where
  pairs_eq := hp
  bindings_eq_zero := ht'.bindings_eq_zero
  exists_value := fun _ he ↦ (hv'.table_wellFormed t').exists_value ht'.bindings_eq_zero he
  len_eq := by rw [hv'.len_eq, hv.len_eq, hp]
  isList_eq := isList_eq_of_pairs_eq hp
  nextIndex_eq := by rw [hv'.nextIndex_eq ht', hp, keys_pairs]

/-- A snapshot shows the elements that the array shows. -/
theorem Valid.pairs_snapshot (hv : h.Valid) (t : TableId) :
    (h.snapshot t).1.pairs (h.snapshot t).2 = h.pairs t := by
  have hknows : (h.newTable Table.empty).1.Knows (h.newTable Table.empty).2 :=
    (sound_newTable rfl).knows
  have hempty : (h.newTable Table.empty).1.table (h.newTable Table.empty).2 = Table.empty := by
    rw [table_newTable, if_pos rfl]
  have hshown : ((h.table t).labelled h.cell).map (fun p ↦ (p.1.key.normalize, p.2.shown)) =
      h.pairs t := by
    rw [pairs, Table.pairs]
    refine List.map_congr_left fun p hp ↦ ?_
    have hmem : (p.1.key, p.2) ∈ h.pairs t := List.mem_map.2 ⟨p, hp, rfl⟩
    -- keys are stored in their normal form, and what is shown is shown as it is
    have hkey := Key.normalize_of_isNormal (hv.isNormal_keys (List.mem_map_of_mem hmem))
    have hvalue : p.2.shown = p.2 := by
      have hne := ne_undefined_of_mem_pairs hmem
      generalize p.2 = v at hne
      cases v <;> first | rfl | exact absurd rfl hne
    rw [hkey, hvalue]
  have hnd : (((h.newTable Table.empty).1.table (h.newTable Table.empty).2).storedKeys ++
      ((h.table t).labelled h.cell).map (·.1.key.normalize)).Nodup := by
    have hkeys := congrArg (List.map Prod.fst) hshown
    rw [List.map_map] at hkeys
    rw [hempty, Table.storedKeys_empty, List.nil_append]
    exact hkeys ▸ hv.nodup_keys t
  rw [snapshot]
  dsimp only
  rw [storeAll_eq hknows hnd, pairs, table_setTable_self (Store.lt_fresh_of_get? hknows.get?),
    hempty, Table.pairs_addAll, hshown]
  rfl

end Heap

namespace Workspace

variable {w : Workspace} {name : String} {s : SymbolTable}

/-- **The two ways to copy a table of variables agree.** In every workspace that a program leads to,
another handle to the array behind a table of variables and a snapshot of it are both copies of what
it shows: of the same elements in the same order, without bindings, and with the same length,
listness and next key, in which the keys of emptied bindings have no part. -/
theorem Reachable.copies_agree (hw : w.Reachable) (hs : w.symbolTables.get? name = some s) :
    (w.copySymbols name).1.heap.IsCopy (w.copySymbols name).2 w.heap s.table ∧
      (w.snapshotSymbols name).1.heap.IsCopy (w.snapshotSymbols name).2 w.heap s.table := by
  have hv := hw.valid
  have htable := tableAt_symbols hs
  constructor
  · refine hv.heap.isCopy ((quietly_copySymbols hv name).valid hv).heap (sound_copySymbols hv hs) ?_
    rw [← htable]
    exact Heap.pairs_copyArray hv.heap _
  · refine hv.heap.isCopy ((quietly_snapshotSymbols hv name).valid hv).heap
      (sound_snapshotSymbols hv name) ?_
    rw [← htable]
    exact hv.heap.pairs_snapshot _

/-- An emptied binding under `3` keeps its key, so the table of variables would append under `4`;
its copies append under `3`. -/
theorem Reachable.copies_agree_mixingEnd :
    mixingEnd.Reachable ∧ mixingEnd.symbolTables.get? "s" = some ⟨⟨0⟩, {}⟩ ∧
      mixingEnd.heap.nextIndex ⟨0⟩ = some 4 ∧
      (mixingEnd.copySymbols "s").1.heap.nextIndex (mixingEnd.copySymbols "s").2 = some 3 ∧
      (mixingEnd.snapshotSymbols "s").1.heap.nextIndex (mixingEnd.snapshotSymbols "s").2 = some 3 := by
  have hs : mixingEnd.symbolTables.get? "s" = some ⟨⟨0⟩, {}⟩ := rfl
  obtain ⟨hcopy, hsnapshot⟩ := reachable_mixingEnd.copies_agree hs
  have hkeys : (mixingEnd.heap.table ⟨0⟩).keys mixingEnd.heap.cell =
      [.text [117], .int 1, .int 2] := rfl
  have hnext : nextKey ((mixingEnd.heap.table ⟨0⟩).keys mixingEnd.heap.cell) = some 3 := by
    rw [hkeys]
    decide
  exact ⟨reachable_mixingEnd, hs, rfl, hcopy.nextIndex_eq.trans hnext,
    hsnapshot.nextIndex_eq.trans hnext⟩

end Workspace

end SharedValue
