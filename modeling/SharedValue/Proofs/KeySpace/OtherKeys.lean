import SharedValue.Proofs.Acyclic.Clear
import SharedValue.Proofs.Forest.Represents
import SharedValue.Proofs.Workspace.Writing

/-!
# What writing under a key leaves alone

Writing to an element changes its slot, and the cells that the element leads to if it is bound or
holds a reference; every other slot of every table stays (`Heap.WritesAt`). The operations on the
array at a place first separate the place, which copies the array slot by slot, and then write to
one element. So the slots under the other keys are afterwards what they were
(`Workspace.slotAt_of_writesAt`).

One case is apart: the element may refer to the very cell that the array is in. The write would go
to that cell, which is borrowed while the array in it is changed, so it is not carried out
(`Workspace.edit_insert_of_refers`).
-/

namespace SharedValue

/-! ### Writing to one element -/

namespace Heap

variable {h h' h'' : Heap} {e : Element} {cs cs' : Set CellId} {t : TableId} {l : Label} {v : Value}

/-- A change of the slot of one element, and of the content of some cells. -/
structure WritesAt (h : Heap) (e : Element) (cs : Set CellId) (h' : Heap) : Prop where
  objects : h'.objects = h.objects
  fresh : h'.tables.fresh = h.tables.fresh
  table : ∀ {u}, u ≠ e.table → h'.table u = h.table u
  find? : ∀ {k}, k ≠ e.key → (h'.table e.table).find? k = (h.table e.table).find? k
  cell : ∀ {c}, c ∉ cs → h'.cell c = h.cell c

/-- Nothing was written. -/
theorem WritesAt.refl (h : Heap) (e : Element) (cs : Set CellId) : h.WritesAt e cs h :=
  ⟨rfl, rfl, fun _ ↦ rfl, fun _ ↦ rfl, fun _ ↦ rfl⟩

/-- Written to the same element, and once more. -/
theorem WritesAt.trans (hw : h.WritesAt e cs h') (hw' : h'.WritesAt e cs h'') :
    h.WritesAt e cs h'' where
  objects := hw'.objects.trans hw.objects
  fresh := hw'.fresh.trans hw.fresh
  table := fun hu ↦ (hw'.table hu).trans (hw.table hu)
  find? := fun hk ↦ (hw'.find? hk).trans (hw.find? hk)
  cell := fun hc ↦ (hw'.cell hc).trans (hw.cell hc)

/-- More cells may have been written to. -/
theorem WritesAt.mono (hw : h.WritesAt e cs h') (hcs : cs ⊆ cs') : h.WritesAt e cs' h' :=
  { hw with cell := fun hc ↦ hw.cell fun hmem ↦ hc (hcs hmem) }

/-- Writing to one of the cells. -/
theorem writesAt_setCell {c : CellId} (hc : c ∈ cs) (v : Value) :
    h.WritesAt e cs (h.setCell c v) where
  objects := rfl
  fresh := rfl
  table := fun _ ↦ rfl
  find? := fun _ ↦ rfl
  cell := fun hn ↦ cell_setCell_ne _ (fun he ↦ hn (by rwa [he])) v

/-- A table that is replaced by one with the same other slots. -/
theorem writesAt_setTable {T : Table}
    (hT : ∀ k, k ≠ e.key → T.find? k = (h.table e.table).find? k) :
    h.WritesAt e cs (h.setTable e.table T) where
  objects := rfl
  fresh := Store.fresh_set _ _ _
  table := fun hu ↦ table_setTable_ne _ hu T
  find? := fun {k} hk ↦ by
    by_cases hlt : e.table.index < h.tables.fresh
    · rw [table_setTable_self hlt, hT k hk]
    · -- a table that is not there stays away
      have hle := Nat.le_of_not_lt hlt
      have hset : (h.setTable e.table T).table e.table = h.table e.table := by
        rw [Heap.table, Heap.table, setTable, Store.get?_of_fresh_le hle,
          Store.get?_of_fresh_le (by rwa [Store.fresh_set])]
      rw [hset]
  cell := fun _ ↦ rfl

/-- Another slot for the element. -/
theorem writesAt_put (s : Slot) :
    h.WritesAt e cs (h.setTable e.table ((h.table e.table).put e.key s)) :=
  writesAt_setTable fun k hk ↦ by rw [Table.find?_put, if_neg hk]

/-- A slot for an element that was not there. -/
theorem writesAt_insertNew (hl : (h.table t).find? l.key = none) (s : Slot) :
    h.WritesAt ⟨t, l.key⟩ cs (h.setTable t ((h.table t).insertNew l s)) :=
  writesAt_setTable fun k hk ↦ by rw [Table.find?_insertNew hl, if_neg hk]

/-- The cells that an element leads to: the one that it is bound to and the one that it refers to.
-/
def cellsAt (h : Heap) (e : Element) : Set CellId :=
  {c | h.slot? e = some (.binding c) ∨ h.read e = .reference c}

/-- Writing to an element, or to the cell that it is bound to. -/
theorem writesAt_write (hcs : ∀ c, h.slot? e = some (.binding c) → c ∈ cs) (v : Value) :
    h.WritesAt e cs (h.write e v) := by
  rw [write]
  split
  · exact writesAt_put _
  next c hs => exact writesAt_setCell (hcs c hs) v
  · exact .refl h e cs

/-- Assigning to an element, or to the cells that it stands for. -/
theorem writesAt_replace (hcs : h.cellsAt e ⊆ cs) (v : Value) :
    h.WritesAt e cs (h.replace e v).1 := by
  have hwrite := writesAt_write (fun _ hs ↦ hcs (.inl hs)) v
  rw [replace]
  split
  next c hread =>
    split
    · exact hwrite
    · exact writesAt_setCell (hcs (.inr hread)) v
  · exact hwrite

/-- Making a key ready changes a cell only if the key is bound to it and it is undefined. -/
theorem writesAt_materialize (t : TableId) (l : Label) :
    h.WritesAt ⟨t, l.key⟩ {c | h.slot? ⟨t, l.key⟩ = some (.binding c) ∧ h.cell c = .undefined}
      (h.materialize t l) := by
  rw [materialize]
  split
  next hf => exact writesAt_insertNew hf _
  · split
    next hread =>
      refine writesAt_write (fun c hs ↦ ?_) _
      rw [read, hs] at hread
      exact ⟨hs, hread⟩
    · exact .refl h _ _

/-- An element that is not bound has the value that was written. -/
theorem slot?_write_value {u : Value} (hs : h.slot? e = some (.value u)) (v : Value) :
    (h.write e v).slot? e = some (.value v) := by
  have hf : (h.table e.table).find? e.key = some (.value u) := hs
  rw [write, hs]
  dsimp only
  rw [slot?, table_setTable_self (Store.lt_fresh_of_get? (get?_of_find? hf)), Table.find?_put,
    if_pos rfl, hf]
  rfl

/-- A key that was made ready leads to no other cell. -/
theorem cellsAt_materialize {s : Slot} (hf : (h.table t).find? l.key = some s) :
    (h.materialize t l).cellsAt ⟨t, l.key⟩ ⊆ h.cellsAt ⟨t, l.key⟩ := by
  have hslot : h.slot? ⟨t, l.key⟩ = some s := hf
  rw [materialize, hf]
  dsimp only
  split
  next hread =>
    cases s with
    | value u =>
      have hnull : (h.write ⟨t, l.key⟩ .null).slot? ⟨t, l.key⟩ = some (.value .null) :=
        slot?_write_value hslot _
      rintro c (hs | hr)
      · rw [hnull] at hs
        cases hs
      · rw [read, hnull] at hr
        cases hr
    | binding d =>
      rw [write, hslot]
      rintro c (hs | hr)
      · exact .inl hs
      · -- the cell is null now, or is not there
        rw [read, hslot] at hread
        have hslot' : (h.setCell d .null).slot? ⟨t, l.key⟩ = some (.binding d) := hslot
        have hcell := (gains_setCell t d rfl : h.Gains t {.null} (h.setCell d .null)).cell d
        rw [read, hslot'] at hr
        dsimp only at hr hread
        rw [hread, hr] at hcell
        rcases hcell with he | he <;> cases he
  · exact fun _ hc ↦ hc

/-- Storing under a key writes at its element. -/
theorem writesAt_store (t : TableId) (l : Label) (v : Value) :
    h.WritesAt ⟨t, l.key⟩ (h.cellsAt ⟨t, l.key⟩) (h.store t l v).1 := by
  rw [store]
  split
  next hf => exact writesAt_insertNew hf _
  next hf =>
    have hready := h.writesAt_materialize t l
    exact (hready.mono fun _ hc ↦ .inl hc.1).trans (writesAt_replace (cellsAt_materialize hf) v)

/-- So does binding it. -/
theorem writesAt_bind (t : TableId) (l : Label) (c : CellId) :
    h.WritesAt ⟨t, l.key⟩ cs (h.bind t l c) := by
  rw [bind]
  dsimp only
  split
  next hf => exact writesAt_insertNew hf _
  next s _ =>
    exact writesAt_setTable fun k hk ↦
      ((h.table t).find?_put l.key (.binding c) k).trans (if_neg hk)

/-- So does taking it out. -/
theorem writesAt_remove (ht : (h.table t).storedKeys.Nodup) (k : Key) :
    h.WritesAt ⟨t, k⟩ cs (h.setTable t ((h.table t).remove k)) :=
  writesAt_setTable fun j hj ↦ by rw [Table.find?_remove ht, if_neg hj]

end Heap

namespace Workspace

variable {w : Workspace} {p : Place} {operands : List Value} {t : TableId} {e : Element} {k : Key}
  {cs : Set CellId} {h : Heap}

/-! ### Separation -/

/-- An element that holds an array, before and after the array is separated. -/
private theorem slot?_separate (hv : w.Valid) (hops : ∀ v ∈ operands, w.heap.Admits v)
    (hval : w.valueAt (.element e) = .array t) :
    (∃ u, w.heap.slot? e = some (.value u) ∧ (w.separate (.element e) operands).1.heap.slot? e =
      some (.value (.array (w.separate (.element e) operands).2))) ∨
    ∃ c, w.heap.slot? e = some (.binding c) ∧
      (w.separate (.element e) operands).1.heap.slot? e = some (.binding c) ∧
      (w.separate (.element e) operands).1.heap.cell c =
        .array (w.separate (.element e) operands).2 := by
  have hknows := knows_of_valueAt_element hval
  have hread := hval
  rw [valueAt, Heap.read] at hread
  cases hs : w.isShared (w.tableAt (.element e)) operands with
  | false =>
    rw [separate_of_not_isShared hs, tableAt_of_valueAt hval]
    split at hread
    next u hslot => exact .inl ⟨u, hslot, hread ▸ hslot⟩
    next c hslot => exact .inr ⟨c, hslot, hslot, hread⟩
    · cases hread
  | true =>
    obtain ⟨t', hval', ht, hsound⟩ := exists_array_of_isShared hv hops hs
    have hsame : (w.withCopy t').heap.slot? e = w.heap.slot? e := by
      rw [Heap.slot?, table_withCopy hsound, if_neg (ne_copyId_of_knows hknows)]
      rfl
    rw [separate_of_isShared hs, ht]
    show (∃ u, _ ∧ ((w.withCopy t').heap.write e _).slot? e = _) ∨
      ∃ c, _ ∧ ((w.withCopy t').heap.write e _).slot? e = _ ∧
        ((w.withCopy t').heap.write e _).cell c = _
    split at hread
    next u hslot => exact .inl ⟨u, hslot, Heap.slot?_write_value (hsame.trans hslot) _⟩
    next c hslot =>
      refine .inr ⟨c, hslot, ?_⟩
      rw [Heap.write, hsame, hslot]
      exact ⟨hsame.trans hslot, Heap.cell_setCell_self
        (Store.lt_fresh_of_get? (Heap.get?_of_cell_eq_array hread)) _⟩
    · cases hread

/-- **A separation leaves an array where it was.** -/
theorem valueAt_separate (hv : w.Valid) (hops : ∀ v ∈ operands, w.heap.Admits v)
    (hval : w.valueAt p = .array t) :
    (w.separate p operands).1.valueAt p = .array (w.separate p operands).2 := by
  by_cases hp : ∃ e, p = .element e
  · obtain ⟨e, rfl⟩ := hp
    rcases slot?_separate hv hops hval with ⟨u, -, hslot⟩ | ⟨c, -, hslot, hcell⟩
    · rw [valueAt, Heap.read, hslot]
    · rw [valueAt, Heap.read, hslot]
      exact hcell
  · have hp : ∀ e, p ≠ .element e := fun e he ↦ hp ⟨e, he⟩
    cases hs : w.isShared (w.tableAt p) operands with
    | false =>
      rw [separate_of_not_isShared hs, tableAt_of_valueAt hval]
      exact hval
    | true =>
      obtain ⟨t', hval', ht, hsound⟩ := exists_array_of_isShared hv hops hs
      have hh := holds_seat hval' (Store.lt_fresh_of_get? hsound.knows.get?)
      rw [separate_of_isShared hs, ht]
      -- a copy that no place has yet changes nothing at the place
      have hcopy : (w.withCopy t').Holds t' p := by
        cases p with
        | element e => exact absurd rfl (hp e)
        | _ => exact hh
      exact (putAt_of_holds hp ((quietly_withCopy hv t').valid hv) hcopy _).2

/-- A separation leaves a place where it was. -/
theorem seat_separate (hv : w.Valid) (hops : ∀ v ∈ operands, w.heap.Admits v)
    (hval : w.valueAt p = .array t) : (w.separate p operands).1.seat p = w.seat p := by
  cases p with
  | element e =>
    rcases slot?_separate hv hops hval with ⟨u, hslot, hslot'⟩ | ⟨c, hslot, hslot', -⟩ <;>
      rw [seat, seat, Heap.binding?, Heap.binding?, hslot, hslot']
  | _ => rfl

/-! ### The other keys of an array -/

/-- The slot under a key of the array at a place. -/
def slotAt (w : Workspace) (p : Place) (k : Key) : Option Slot :=
  (w.heap.table (w.tableAt p)).find? k

/-- An array is no element of itself. -/
theorem table_ne_of_valueAt_element (hv : w.Valid) (ha : w.heap.Acyclic)
    (hval : w.valueAt (.element e) = .array t) : e.table ≠ t := by
  intro he
  rw [valueAt, Heap.read] at hval
  split at hval
  next u hslot =>
    obtain rfl := hval
    exact ha.not_below ⟨e.key, he ▸ hslot⟩ .refl
  next c hslot =>
    have hadmits := hv.heap.admits_cell c
    rw [hval] at hadmits
    exact hv.bindings_ne_zero hslot (he ▸ (Heap.admits_array_iff.1 hadmits).bindings_eq_zero)
  · cases hval

/-- An array stays where it is when one of its elements is written to, unless the write goes to the
cell that the array is in. -/
theorem valueAt_of_writesAt (hv : w.Valid) (ha : w.heap.Acyclic) (hval : w.valueAt p = .array t)
    (hw : w.heap.WritesAt ⟨t, k⟩ cs h) (hcs : ∀ c, w.seat p = .content c → c ∉ cs) :
    { w with heap := h }.valueAt p = .array t := by
  cases p with
  | content c => exact (hw.cell (hcs c rfl)).trans hval
  | properties o =>
    rw [← hval, valueAt, valueAt, Heap.properties, Heap.properties]
    dsimp only
    rw [hw.objects, hw.fresh]
  | element e =>
    have hne := table_ne_of_valueAt_element hv ha hval
    rw [valueAt, Heap.read] at hval
    have hsame : h.slot? e = w.heap.slot? e := by rw [Heap.slot?, hw.table hne]; rfl
    show h.read e = _
    rw [Heap.read, hsame]
    split at hval
    next u hslot => exact hval
    next c hslot =>
      refine (hw.cell (hcs c ?_)).trans hval
      rw [seat, Heap.binding?_eq_some_iff.2 hslot]
    · cases hval
  | _ => exact hval

/-- **Writing under a key leaves the slots under the other keys alone.** The array is separated and
one element of it is written to, which may change the cells that the element leads to. -/
theorem slotAt_of_writesAt (hv : w.Valid) (ha : w.heap.Acyclic)
    (hops : ∀ v ∈ operands, w.heap.Admits v) (hval : w.valueAt p = .array t)
    (hw : (w.separate p operands).1.heap.WritesAt ⟨(w.separate p operands).2, k⟩ cs h)
    (hcs : ∀ c, w.seat p = .content c → c ∉ cs) {j : Key} (hj : j ≠ k) :
    { (w.separate p operands).1 with heap := h }.slotAt p j = w.slotAt p j := by
  rw [← seat_separate hv hops hval] at hcs
  have hstays := valueAt_of_writesAt ((quietly_separate hv p hops).valid hv)
    (acyclic_separate ha hv hops) (valueAt_separate hv hops hval) hw hcs
  rw [slotAt, tableAt_of_valueAt hstays, slotAt, ← table_separate hv p hops]
  exact hw.find? hj

/-- The elements of an array without bindings, when it has been separated: none is bound, and what
they hold is what they held before. -/
theorem not_binding_separate_of_bindings (k : Key) (hv : w.Valid)
    (hops : ∀ v ∈ operands, w.heap.Admits v) (hval : w.valueAt p = .array t)
    (hb : (w.heap.table t).bindings = 0) :
    (∀ d, (w.separate p operands).1.heap.slot? ⟨(w.separate p operands).2, k⟩ ≠ some (.binding d)) ∧
      (w.separate p operands).1.heap.read ⟨(w.separate p operands).2, k⟩ =
        w.heap.read ⟨t, k⟩ := by
  have hslot : (w.separate p operands).1.heap.slot? ⟨(w.separate p operands).2, k⟩ =
      w.heap.slot? ⟨t, k⟩ := by
    rw [Heap.slot?, Heap.slot?, table_separate hv p hops, tableAt_of_valueAt hval]
  have hunbound : ∀ d, w.heap.slot? ⟨t, k⟩ ≠ some (.binding d) := find?_ne_binding hv hb k
  refine ⟨fun d hd ↦ hunbound d (hslot ▸ hd), ?_⟩
  rw [Heap.read, Heap.read, hslot]
  split
  · rfl
  next d hd => exact absurd hd (hunbound d)
  · rfl

/-- The cell that an array is in, when the array has been separated: no key is bound to it, and a
key that refers to it did so before. -/
theorem not_binding_separate (k : Key) (hv : w.Valid) (hops : ∀ v ∈ operands, w.heap.Admits v)
    (hval : w.valueAt p = .array t) {c : CellId} (hseat : w.seat p = .content c) :
    (∀ d, (w.separate p operands).1.heap.slot? ⟨(w.separate p operands).2, k⟩ ≠ some (.binding d)) ∧
      (w.separate p operands).1.heap.read ⟨(w.separate p operands).2, k⟩ =
        w.heap.read ⟨t, k⟩ := by
  have hadmits := hv.heap.admits_cell c
  rw [cell_of_seat hseat, hval] at hadmits
  exact not_binding_separate_of_bindings k hv hops hval
    (Heap.admits_array_iff.1 hadmits).bindings_eq_zero

/-! ### The operations that write under a key -/

/-- Making an element ready leaves the slots under all other keys. -/
theorem slotAt_openElement (hv : w.Valid) (ha : w.heap.Acyclic)
    (hops : ∀ v ∈ operands, w.heap.Admits v) (hval : w.valueAt p = .array t) (l : Label) {j : Key}
    (hj : j ≠ l.normalize.key) : (w.openElement p l operands).1.slotAt p j = w.slotAt p j := by
  rw [openElement_eq]
  exact slotAt_of_writesAt hv ha hops hval (Heap.writesAt_materialize _ _)
    (fun _ hseat hc ↦ (not_binding_separate _ hv hops hval hseat).1 _ hc.1) hj

/-- Assigning under a key, unless the key refers to the cell that the array is in. -/
theorem slotAt_storeKey (hv : w.Valid) (ha : w.heap.Acyclic)
    (hops : ∀ v ∈ operands, w.heap.Admits v) (hval : w.valueAt p = .array t) (l : Label) (v : Value)
    (hd : ∀ c, w.heap.read ⟨t, l.normalize.key⟩ = .reference c → w.seat p ≠ .content c) {j : Key}
    (hj : j ≠ l.normalize.key) : (w.storeKey p l v operands).1.slotAt p j = w.slotAt p j := by
  rw [storeKey_eq]
  refine slotAt_of_writesAt hv ha hops hval (Heap.writesAt_store _ _ v) (fun c hseat hc ↦ ?_) hj
  obtain ⟨hunbound, hread⟩ := not_binding_separate _ hv hops hval hseat
  exact hc.elim (hunbound c) fun hr ↦ hd c (hread ▸ hr) hseat

/-- **Assigning under a key that refers to the cell that the array is in** is not carried out, as
that cell is borrowed while the array is changed. -/
theorem edit_insert_of_refers {borrowed : List CellId}
    (hb : ∀ c, w.seat p = .content c → c ∈ borrowed) (hval : w.valueAt p = .array t) (l : Label)
    (v : Value) {c : CellId} (hread : w.heap.read ⟨t, l.normalize.key⟩ = .reference c)
    (hseat : w.seat p = .content c) : w.edit p borrowed (.insert l v) = none := by
  have hcell : w.heap.cell c = .array t := (cell_of_seat hseat).trans hval
  -- an element that is bound to the cell would read as the array
  have hunbound : w.heap.binding? ⟨t, l.normalize.key⟩ ≠ some c := fun hbound ↦ by
    rw [Heap.read, Heap.binding?_eq_some_iff.1 hbound] at hread
    cases hread.symm.trans hcell
  have hblocked : w.isBlocked ⟨w.tableAt p, l.normalize.key⟩ borrowed = true := by
    rw [tableAt_of_valueAt hval, isBlocked, hread]
    exact Bool.and_eq_true_iff.2 ⟨List.contains_iff_mem.2 (hb c hseat), decide_eq_true hunbound⟩
  rw [edit, if_pos hblocked]

/-- So does taking a key out. -/
theorem slotAt_unsetKey (hv : w.Valid) (ha : w.heap.Acyclic) (hval : w.valueAt p = .array t)
    (k : Key) {j : Key} (hj : j ≠ k.normalize) : (w.unsetKey p k).1.slotAt p j = w.slotAt p j := by
  rw [unsetKey]
  split
  · have hformed := ((quietly_separate hv p Heap.admits_of_mem_nil).valid hv).heap.table_wellFormed
      (w.separate p []).2
    have hw : (w.separate p []).1.heap.WritesAt ⟨(w.separate p []).2, k.normalize⟩ ∅ _ :=
      Heap.writesAt_remove hformed.keys_nodup k.normalize
    exact slotAt_of_writesAt hv ha Heap.admits_of_mem_nil hval hw (fun _ _ hc ↦ hc) hj
  · rfl

/-- A table of variables is no content of a cell, so no write goes to where it is. -/
theorem slotAt_symbols_of_writesAt {s : String} (hv : w.Valid) (ha : w.heap.Acyclic)
    (hops : ∀ v ∈ operands, w.heap.Admits v) (hval : w.valueAt (.symbols s) = .array t)
    (hw : (w.separate (.symbols s) operands).1.heap.WritesAt
      ⟨(w.separate (.symbols s) operands).2, k⟩ Set.univ h) {j : Key} (hj : j ≠ k) :
    { (w.separate (.symbols s) operands).1 with heap := h }.slotAt (.symbols s) j =
      w.slotAt (.symbols s) j :=
  slotAt_of_writesAt hv ha hops hval hw (fun _ hseat ↦ by cases hseat) hj

/-- So does binding a variable. -/
theorem slotAt_bindKey {s : String} (hv : w.Valid) (ha : w.heap.Acyclic)
    (hval : w.valueAt (.symbols s) = .array t) (l : Label) (c : CellId) {j : Key}
    (hj : j ≠ l.normalize.key) :
    (w.bindKey s l c).slotAt (.symbols s) j = w.slotAt (.symbols s) j :=
  slotAt_symbols_of_writesAt hv ha Heap.admits_of_mem_nil hval (Heap.writesAt_bind _ _ c) hj

/-- A new cell is no part of a table. -/
theorem slotAt_bindKey_newCell {s : String} (hv : w.Valid) (ha : w.heap.Acyclic)
    (hval : w.valueAt (.symbols s) = .array t) (l : Label) {v : Value} (hadm : w.heap.Admits v)
    {j : Key} (hj : j ≠ l.normalize.key) :
    (bindKey { w with heap := (w.heap.newCell v).1 } s l (w.heap.newCell v).2).slotAt
      (.symbols s) j = w.slotAt (.symbols s) j := by
  have hq : w.Quietly { w with heap := (w.heap.newCell v).1 } :=
    quietly_heap (.of_quiet (.newCell hadm))
  have hnew := slotAt_bindKey (hq.valid hv) (ha.of_child fun hc ↦ hc) hval l (w.heap.newCell v).2 hj
  exact hnew

/-- Assigning to the element of a variable that was opened. -/
theorem slotAt_assign_openElement {s : String} (hv : w.Valid) (ha : w.heap.Acyclic)
    (hops : ∀ v ∈ operands, w.heap.Admits v) (hval : w.valueAt (.symbols s) = .array t) (l : Label)
    (v : Value) {j : Key} (hj : j ≠ l.normalize.key) :
    ((w.openElement (.symbols s) l operands).1.assign (w.openElement (.symbols s) l operands).2
      v).slotAt (.symbols s) j = w.slotAt (.symbols s) j := by
  have hready := (w.separate (.symbols s) operands).1.heap.writesAt_materialize
    (w.separate (.symbols s) operands).2 l.normalize
  have hw := (hready.mono fun _ _ ↦ trivial).trans
    (Heap.writesAt_replace (fun _ _ ↦ trivial) v)
  rw [openElement_eq, assign, replace]
  exact slotAt_symbols_of_writesAt hv ha hops hval hw hj

/-- So does deleting one. -/
theorem slotAt_unsetSymbolKey {s : String} (hv : w.Valid) (ha : w.heap.Acyclic)
    (hval : w.valueAt (.symbols s) = .array t) (k : Key) {j : Key} (hj : j ≠ k.normalize) :
    (w.unsetSymbolKey s k).slotAt (.symbols s) j = w.slotAt (.symbols s) j := by
  rw [unsetSymbolKey]
  split
  · rfl
  · exact slotAt_unsetKey hv ha hval k hj
  · split <;> rfl

end Workspace

end SharedValue
