import SharedValue.Proofs.Table.WellFormed
import SharedValue.Symbols

/-!
# Workspaces without the buffers of keys

The buffer that a stored key came in is kept with its entry, and no operation on arrays and tables
of variables looks at it. So the operations commute with `Workspace.bare`, which forgets these
buffers: the same operation on the bare workspace, with the bare key, gives the same answer and the
bare result.

The lemmas follow the definitions from tables over heaps to workspaces. Each moves `bare` out of an
operation.
-/

namespace SharedValue

/-! ### Tables -/

/-- A label without its buffer. -/
def Label.bare (l : Label) : Label := ⟨l.key, .interned⟩

/-- An entry without the buffer of its key. -/
def Entry.bare (e : Entry) : Entry := { e with buffer := .interned }

/-- A table without the buffers of its keys. -/
def Table.bare (t : Table) : Table := { t with entries := t.entries.map Entry.bare }

namespace Label

@[simp]
theorem key_bare (l : Label) : l.bare.key = l.key := rfl

@[simp]
theorem normalize_bare (l : Label) : l.bare.normalize = l.normalize.bare := by
  rw [normalize, normalize, key_bare]
  split <;> rfl

/-- Labels with the same key differ in their buffers alone. -/
theorem bare_eq_bare_iff {l l' : Label} : l.bare = l'.bare ↔ l.key = l'.key :=
  ⟨congrArg key, fun h ↦ by rw [bare, bare, h]⟩

end Label

namespace Entry

@[simp]
theorem key_bare (e : Entry) : e.bare.key = e.key := rfl

@[simp]
theorem slot_bare (e : Entry) : e.bare.slot = e.slot := rfl

end Entry

namespace Table

variable {t : Table} {content : CellId → Value}

@[simp]
theorem entries_bare (t : Table) : t.bare.entries = t.entries.map Entry.bare := rfl

@[simp]
theorem nextFree_bare (t : Table) : t.bare.nextFree = t.nextFree := rfl

@[simp]
theorem bindings_bare (t : Table) : t.bare.bindings = t.bindings := rfl

@[simp]
theorem bare_empty : empty.bare = empty := rfl

@[simp]
theorem find?_bare (t : Table) (k : Key) : t.bare.find? k = t.find? k := by
  rw [find?, find?, entries_bare, List.find?_map, Option.map_map]
  rfl

@[simp]
theorem stores_bare (t : Table) (k : Key) : t.bare.stores k = t.stores k := by
  rw [stores, stores, entries_bare, List.any_map]
  rfl

@[simp]
theorem put_bare (t : Table) (k : Key) (s : Slot) : t.bare.put k s = (t.put k s).bare := by
  simp only [put, bare, List.map_map, mk.injEq, and_true]
  refine List.map_congr_left fun e _ ↦ ?_
  by_cases he : e.key = k <;> simp [Entry.bare, he]

@[simp]
theorem insertNew_bare (t : Table) (l : Label) (s : Slot) :
    t.bare.insertNew l.bare s = (t.insertNew l s).bare := by
  simp [insertNew, bare, Label.bare, Entry.bare]

@[simp]
theorem nextFreeOf_bare (entries : List Entry) :
    nextFreeOf (entries.map Entry.bare) = nextFreeOf entries := by
  rw [nextFreeOf, nextFreeOf, List.foldl_map]
  rfl

@[simp]
theorem remove_bare (t : Table) (k : Key) : t.bare.remove k = (t.remove k).bare := by
  rw [remove, remove, find?_bare]
  split
  · rfl
  · have herase : (t.entries.map Entry.bare).eraseP (fun e ↦ e.key = k) =
        (t.entries.eraseP fun e ↦ e.key = k).map Entry.bare := List.eraseP_map ..
    simp only [bare, herase, nextFreeOf_bare]

theorem detachedEntry_bare (content : CellId → Value) (e : Entry) :
    detachedEntry content e.bare = (detachedEntry content e).map Entry.bare := by
  rw [detachedEntry, detachedEntry, Entry.slot_bare]
  split
  · rfl
  · split <;> rfl

@[simp]
theorem detached_bare (t : Table) (content : CellId → Value) :
    t.bare.detached content = (t.detached content).bare := by
  have hentries : (t.entries.map Entry.bare).filterMap (detachedEntry content) =
      (t.entries.filterMap (detachedEntry content)).map Entry.bare := by
    rw [List.filterMap_map, List.map_filterMap]
    exact List.filterMap_congr fun e _ ↦ detachedEntry_bare content e
  by_cases hb : t.bindings = 0
  · rw [detached_of_bindings_eq_zero content hb]
    exact detached_of_bindings_eq_zero content hb
  · rw [detached, detached, if_neg hb, bindings_bare, if_neg hb]
    change Table.mk ((t.entries.map Entry.bare).filterMap (detachedEntry content)) _ 0 =
      ⟨(t.entries.filterMap (detachedEntry content)).map Entry.bare, _, 0⟩
    congr 1
    change (if ((t.entries.map Entry.bare).filterMap (detachedEntry content)).length =
      (t.entries.map Entry.bare).length then _ else
        nextFreeOf ((t.entries.map Entry.bare).filterMap (detachedEntry content))) = _
    rw [hentries, List.length_map, List.length_map, nextFreeOf_bare]
    rfl

@[simp]
theorem get?_bare (t : Table) (content : CellId → Value) (k : Key) :
    t.bare.get? content k = t.get? content k := by
  rw [get?, get?, lookup, lookup, find?_bare]

@[simp]
theorem contains_bare (t : Table) (content : CellId → Value) (k : Key) :
    t.bare.contains content k = t.contains content k := by
  rw [contains, contains, lookup, lookup, find?_bare]

/-- Only strings are mentioned by keys. -/
theorem count_handles_bare (t : Table) {x : Handle} (hx : ∀ s, x ≠ .text s) :
    t.bare.handles.count x = t.handles.count x := by
  have hlabel : ∀ l : Label, (l.str?.map Handle.text).toList.count x = 0 := by
    intro l
    rw [List.count_eq_zero]
    intro hmem
    obtain ⟨str, -, hstr⟩ := Option.map_eq_some_iff.1 (Option.mem_toList.1 hmem)
    exact hx str hstr.symm
  rw [handles, handles, entries_bare, List.flatMap_map, List.count_flatMap, List.count_flatMap]
  refine congrArg List.sum (List.map_congr_left fun e _ ↦ ?_)
  simp only [Function.comp_apply, Entry.handles, List.count_append, hlabel, Entry.slot_bare]

end Table

/-! ### Stores -/

/-- Every thing of a store changed in the same way. -/
def Store.map {α β : Type} (f : α → β) (s : Store α) : Store β := ⟨s.items.map (Option.map f)⟩

namespace Store

variable {α β : Type} (f : α → β)

@[simp]
theorem fresh_map (s : Store α) : (s.map f).fresh = s.fresh := by
  simp [fresh, map]

@[simp]
theorem get?_map (s : Store α) (i : Nat) : (s.map f).get? i = (s.get? i).map f := by
  simp only [get?, map, Array.getElem?_map]
  rcases s.items[i]? with _ | _ | a <;> rfl

theorem map_set (s : Store α) (i : Nat) (a : α) : (s.map f).set i (f a) = (s.set i a).map f := by
  simp [map, set]

theorem map_add (s : Store α) (a : α) : (s.map f).add (f a) = (s.add a).map f := by
  simp [map, add]

theorem toList_map (s : Store α) : (s.map f).toList = s.toList.map f := by
  simp [map, toList, List.filterMap_map, List.map_filterMap]

end Store

/-! ### Heaps -/

/-- A heap without the buffers of its keys. -/
def Heap.bare (h : Heap) : Heap := { h with tables := h.tables.map Table.bare }

namespace Heap

variable {h : Heap} {t : TableId}

@[simp]
theorem cell_bare (h : Heap) : h.bare.cell = h.cell := rfl

@[simp]
theorem fresh_bare (h : Heap) : h.bare.tables.fresh = h.tables.fresh := Store.fresh_map _ _

@[simp]
theorem table_bare (h : Heap) (t : TableId) : h.bare.table t = (h.table t).bare := by
  rw [table, table, bare, Store.get?_map]
  cases h.tables.get? t.index <;> rfl

theorem setTable_bare (h : Heap) (t : TableId) (T : Table) :
    h.bare.setTable t T.bare = (h.setTable t T).bare := by
  rw [setTable, bare, Store.map_set]
  rfl

@[simp]
theorem setCell_bare (h : Heap) (c : CellId) (v : Value) :
    h.bare.setCell c v = (h.setCell c v).bare := rfl

@[simp]
theorem newCell_bare (h : Heap) (v : Value) :
    h.bare.newCell v = ((h.newCell v).1.bare, (h.newCell v).2) := rfl

theorem newTable_bare (h : Heap) (T : Table) :
    h.bare.newTable T.bare = ((h.newTable T).1.bare, (h.newTable T).2) := by
  rw [newTable, fresh_bare, bare, Store.map_add]
  rfl

@[simp]
theorem setProperties_bare (h : Heap) (o : ObjectId) (t : TableId) :
    h.bare.setProperties o t = (h.setProperties o t).bare := by
  have hobjects : h.bare.objects = h.objects := rfl
  rw [setProperties, setProperties, hobjects]
  split <;> rfl

@[simp]
theorem slot?_bare (h : Heap) (e : Element) : h.bare.slot? e = h.slot? e := by
  rw [slot?, slot?, table_bare, Table.find?_bare]

@[simp]
theorem binding?_bare (h : Heap) (e : Element) : h.bare.binding? e = h.binding? e := by
  rw [binding?, binding?, slot?_bare]

@[simp]
theorem read_bare (h : Heap) (e : Element) : h.bare.read e = h.read e := by
  rw [read, read, slot?_bare, cell_bare]

@[simp]
theorem write_bare (h : Heap) (e : Element) (v : Value) :
    h.bare.write e v = (h.write e v).bare := by
  rw [write, write, slot?_bare]
  split
  · rw [table_bare, Table.put_bare, setTable_bare]
  · rfl
  · rfl

@[simp]
theorem replace_bare (h : Heap) (e : Element) (v : Value) :
    h.bare.replace e v = ((h.replace e v).1.bare, (h.replace e v).2) := by
  rw [replace, replace, read_bare]
  split
  · rw [binding?_bare, write_bare]
    split <;> rfl
  · rw [write_bare]

@[simp]
theorem materialize_bare (h : Heap) (t : TableId) (l : Label) :
    h.bare.materialize t l.bare = (h.materialize t l).bare := by
  rw [materialize, materialize, table_bare, Table.find?_bare, Label.key_bare]
  split
  · rw [Table.insertNew_bare, setTable_bare]
  · rw [read_bare, write_bare]
    split <;> rfl

@[simp]
theorem store_bare (h : Heap) (t : TableId) (l : Label) (v : Value) :
    h.bare.store t l.bare v = ((h.store t l v).1.bare, (h.store t l v).2) := by
  rw [store, store, table_bare, Table.find?_bare, Label.key_bare]
  split
  · rw [Table.insertNew_bare, setTable_bare]
  · rw [materialize_bare, replace_bare]
    rfl

@[simp]
theorem bind_bare (h : Heap) (t : TableId) (l : Label) (c : CellId) :
    h.bare.bind t l.bare c = (h.bind t l c).bare := by
  rw [bind, bind]
  dsimp only
  rw [table_bare, Table.find?_bare, Label.key_bare]
  split
  · rw [Table.insertNew_bare, setTable_bare]
  · rw [Table.put_bare, Table.bindings_bare, ← setTable_bare]
    rfl

@[simp]
theorem get?_bare (h : Heap) (t : TableId) (k : Key) : h.bare.get? t k = h.get? t k := by
  rw [get?, get?, table_bare, Table.get?_bare, cell_bare]

@[simp]
theorem contains_bare (h : Heap) (t : TableId) (k : Key) :
    h.bare.contains t k = h.contains t k := by
  rw [contains, contains, table_bare, Table.contains_bare, cell_bare]

theorem count_handles_bare (h : Heap) {x : Handle} (hx : ∀ s, x ≠ .text s) :
    h.bare.handles.count x = h.handles.count x := by
  have htables : (h.bare.tables.toList.flatMap Table.handles).count x =
      (h.tables.toList.flatMap Table.handles).count x := by
    rw [bare, Store.toList_map, List.flatMap_map, List.count_flatMap, List.count_flatMap]
    exact congrArg List.sum (List.map_congr_left fun T _ ↦ T.count_handles_bare hx)
  simp only [handles, List.count_append, htables]
  rfl

theorem chase_bare (h : Heap) (limit : Nat) (v : Value) :
    h.bare.chase limit v = h.chase limit v := by
  induction limit generalizing v with
  | zero => cases v <;> rfl
  | succ limit ih =>
    cases v with
    | reference c => exact ih _
    | _ => rfl

@[simp]
theorem dereference_bare (h : Heap) (limit : Nat) (v : Value) :
    h.bare.dereference limit v = h.dereference limit v := by
  rw [dereference, dereference, chase_bare]

@[simp]
theorem coerceKey_bare (h : Heap) (limit : Nat) (v : Value) :
    h.bare.coerceKey limit v = h.coerceKey limit v := by
  have hkey : h.bare.keyOfValue = h.keyOfValue := rfl
  rw [coerceKey, coerceKey, dereference_bare, hkey]

/-- Assigning to a key in two heaps that differ in buffers alone, where the key may come in another
buffer too. -/
theorem store_congr {h h' : Heap} (hh : h.bare = h'.bare) {l l' : Label} (hl : l.key = l'.key)
    (t : TableId) (v : Value) : (h.store t l v).1.bare = (h'.store t l' v).1.bare ∧
      (h.store t l v).2 = (h'.store t l' v).2 := by
  have hstore := h.store_bare t l v
  rw [hh, Label.bare_eq_bare_iff.2 hl, store_bare] at hstore
  exact ⟨(congrArg Prod.fst hstore).symm, (congrArg Prod.snd hstore).symm⟩

end Heap

@[simp]
theorem KeySource.label?_bare (h : Heap) (limit : Nat) (s : KeySource) :
    s.label? h.bare limit = s.label? h limit := by
  cases s with
  | value v => exact h.coerceKey_bare limit v
  | label l => rfl

/-! ### Workspaces -/

/-- A workspace without the buffers of its keys. -/
def Workspace.bare (w : Workspace) : Workspace := { w with heap := w.heap.bare }

namespace Workspace

variable {w : Workspace} {p : Place} {operands : List Value}

@[simp]
theorem heap_bare (w : Workspace) : w.bare.heap = w.heap.bare := rfl

/-- Another heap in two workspaces that differ in buffers alone. -/
theorem bare_congr {w' : Workspace} (hw : w.bare = w'.bare) {h h' : Heap} (hh : h.bare = h'.bare) :
    { w with heap := h }.bare = { w' with heap := h' }.bare := by
  show { w.bare with heap := h.bare } = { w'.bare with heap := h'.bare }
  rw [hw, hh]

@[simp]
theorem configOf_bare (w : Workspace) (s : String) : w.bare.configOf s = w.configOf s := rfl

@[simp]
theorem valueAt_bare (w : Workspace) (p : Place) : w.bare.valueAt p = w.valueAt p := by
  cases p with
  | element e => exact w.heap.read_bare e
  | properties o =>
    rw [valueAt, valueAt, heap_bare, Heap.properties, Heap.properties, Heap.fresh_bare]
    rfl
  | _ => rfl

@[simp]
theorem tableAt_bare (w : Workspace) (p : Place) : w.bare.tableAt p = w.tableAt p := by
  rw [tableAt, tableAt, valueAt_bare, heap_bare, Heap.fresh_bare]

@[simp]
theorem isShared_bare (w : Workspace) (t : TableId) (operands : List Value) :
    w.bare.isShared t operands = w.isShared t operands := by
  have hroots : w.bare.roots = w.roots := rfl
  have hcount : w.heap.bare.handles.count (.table t) = w.heap.handles.count (.table t) :=
    w.heap.count_handles_bare fun _ he ↦ nomatch he
  rw [isShared, isShared, holders, holders, List.count_append, List.count_append, hroots, heap_bare,
    hcount]

@[simp]
theorem putAt_bare (w : Workspace) (p : Place) (v : Value) :
    w.bare.putAt p v = (w.putAt p v).bare := by
  cases p with
  | register name => rfl
  | element e =>
    rw [putAt, putAt, heap_bare, Heap.write_bare]
    rfl
  | content c => rfl
  | symbols name =>
    cases v with
    | array t =>
      have hsym : w.bare.symbolTables = w.symbolTables := rfl
      rw [putAt, putAt, hsym]
      split <;> rfl
    | _ => rfl
  | properties o =>
    cases v with
    | array t =>
      rw [putAt, putAt, heap_bare, Heap.setProperties_bare]
      rfl
    | _ => rfl

@[simp]
theorem separate_bare (w : Workspace) (p : Place) (operands : List Value) :
    w.bare.separate p operands =
      ((w.separate p operands).1.bare, (w.separate p operands).2) := by
  rw [separate, separate, tableAt_bare]
  dsimp only
  rw [isShared_bare, heap_bare, Heap.table_bare, Heap.cell_bare, Table.detached_bare,
    Heap.newTable_bare]
  split
  · exact congrArg (·, _) (putAt_bare { w with heap := _ } p _)
  · rfl

@[simp]
theorem openElement_bare (w : Workspace) (p : Place) (l : Label) (operands : List Value) :
    w.bare.openElement p l.bare operands =
      ((w.openElement p l operands).1.bare, (w.openElement p l operands).2) := by
  rw [openElement, openElement, separate_bare]
  dsimp only
  rw [heap_bare, Label.normalize_bare, Heap.materialize_bare]
  rfl

@[simp]
theorem replace_bare (w : Workspace) (e : Element) (v : Value) :
    w.bare.replace e v = ((w.replace e v).1.bare, (w.replace e v).2) := by
  rw [replace, replace, heap_bare, Heap.replace_bare]
  rfl

@[simp]
theorem assign_bare (w : Workspace) (e : Element) (v : Value) :
    w.bare.assign e v = (w.assign e v).bare := by
  rw [assign, assign, replace_bare]

@[simp]
theorem storeKey_bare (w : Workspace) (p : Place) (l : Label) (v : Value) (operands : List Value) :
    w.bare.storeKey p l.bare v operands =
      ((w.storeKey p l v operands).1.bare, (w.storeKey p l v operands).2) := by
  rw [storeKey, storeKey, separate_bare]
  dsimp only
  rw [heap_bare, Label.normalize_bare, Heap.store_bare]
  rfl

@[simp]
theorem unsetKey_bare (w : Workspace) (p : Place) (k : Key) :
    w.bare.unsetKey p k = ((w.unsetKey p k).1.bare, (w.unsetKey p k).2) := by
  rw [unsetKey, unsetKey, tableAt_bare, heap_bare, Heap.table_bare, Table.stores_bare,
    separate_bare]
  split
  · dsimp only
    rw [heap_bare, Heap.table_bare, Table.remove_bare, Heap.setTable_bare]
    rfl
  · rfl

@[simp]
theorem bindKey_bare (w : Workspace) (s : String) (l : Label) (c : CellId) :
    w.bare.bindKey s l.bare c = (w.bindKey s l c).bare := by
  rw [bindKey, bindKey, separate_bare]
  dsimp only
  rw [heap_bare, Label.normalize_bare, Heap.bind_bare]
  rfl

@[simp]
theorem unsetSymbolKey_bare (w : Workspace) (s : String) (k : Key) :
    w.bare.unsetSymbolKey s k = (w.unsetSymbolKey s k).bare := by
  rw [unsetSymbolKey, unsetSymbolKey, tableAt_bare, heap_bare, Heap.table_bare, Table.find?_bare]
  split
  · rfl
  · rw [unsetKey_bare]
  · rw [Heap.cell_bare]
    split <;> rfl

end Workspace

end SharedValue
