import SharedValue.Proofs.Heap.Destination

/-!
# What an assignment changes

Assigning under a key of the array at a place separates the place, and then puts the value where an
assignment under that key goes (`Workspace.storeKey_eq_deliver`). A separation changes nothing but
the table that the place has (`changesOnly_separate`), and the table that it gives the place has the
same slots. So one location is written to: a new entry at the end, the slot under the key, or one
cell (`Workspace.Delivered`). What is given back is what that location held before, if the key was
shown.
-/

namespace SharedValue

namespace Heap

variable {h h' : Heap} {e e' : Element} {t t' : TableId} {k : Key}

/-! ### Elements that agree -/

section Agree

variable (hs : h'.slot? e' = h.slot? e)
  (hc : ∀ c, h.slot? e = some (.binding c) → h'.cell c = h.cell c)

include hs hc in
/-- An element reads the same with the same slot and the same cells. -/
theorem read_congr : h'.read e' = h.read e := by
  rw [read, read, hs]
  split
  · rfl
  next c hb => exact hc c hb
  · rfl

include hs hc in
/-- And it is there or not as before. -/
theorem contains_congr (hk : e.key.IsNormal) (hk' : e'.key = e.key) :
    h'.contains e'.table e'.key = h.contains e.table e.key := by
  have hf : (h'.table e'.table).find? e.key = (h.table e.table).find? e.key := by
    rw [← hk']
    exact hs.trans (by rw [hk', slot?])
  rw [hk', contains, contains, Table.contains_eq_isSome, Table.contains_eq_isSome,
    Table.get?_eq_bind, Table.get?_eq_bind, Key.normalize_of_isNormal hk, hf]
  cases hslot : (h.table e.table).find? e.key with
  | none => rfl
  | some s =>
    cases s with
    | value v => rfl
    | binding c =>
      rw [Option.bind_some, Option.bind_some, Slot.load_binding, Slot.load_binding, hc c hslot]

include hs hc in
/-- And what an assignment would return is the same. -/
theorem former_congr {d : Destination} (hd : ∀ c, d = .cell c → h'.cell c = h.cell c) :
    h'.former e' d = h.former e d := by
  cases d with
  | last => rfl
  | slot => rw [former, former, read_congr hs hc]
  | cell c => rw [former, former, hd c rfl]

end Agree

end Heap

namespace Workspace

variable {w w' : Workspace} {p : Place} {operands : List Value} {t x : TableId} {l : Label}
  {k : Key} {v : Value} {c : CellId} {cs : Set CellId} {s : String}

/-! ### What a separation changes -/

/-- What a write to the array at a place leaves alone: every slot but the one that the array is in,
of every table but the one that is written to, with the order of their keys; every cell but the one
that the array is in, and some others; and all other objects, registers and tables of variables. -/
structure ChangesOnly (w : Workspace) (p : Place) (t : TableId) (cs : Set CellId)
    (w' : Workspace) : Prop where
  find?_eq : ∀ {x k}, w.heap.Knows x → x ≠ t → w.seat p ≠ .element ⟨x, k⟩ →
    (w'.heap.table x).find? k = (w.heap.table x).find? k
  storedKeys_eq : ∀ {x}, w.heap.Knows x → x ≠ t →
    (w'.heap.table x).storedKeys = (w.heap.table x).storedKeys
  nextIndex_eq : ∀ {x}, w.heap.Knows x → x ≠ t → w'.heap.nextIndex x = w.heap.nextIndex x
  cell_eq : ∀ {c}, w.seat p ≠ .content c → c ∉ cs → w'.heap.cell c = w.heap.cell c
  get?_object : ∀ {o}, w.seat p ≠ .properties o →
    w'.heap.objects.get? o.index = w.heap.objects.get? o.index
  resources_eq : w'.heap.resources = w.heap.resources
  get?_register : ∀ {name}, p ≠ .register name → w'.registers.get? name = w.registers.get? name
  get?_symbolTable : ∀ {s}, p ≠ .symbols s → w'.symbolTables.get? s = w.symbolTables.get? s
  configOf_eq : ∀ s, w'.configOf s = w.configOf s
  held_eq : w'.held = w.held

/-- Nothing changed. -/
theorem ChangesOnly.refl (w : Workspace) (p : Place) (t : TableId) (cs : Set CellId) :
    w.ChangesOnly p t cs w :=
  ⟨fun _ _ _ ↦ rfl, fun _ _ ↦ rfl, fun _ _ ↦ rfl, fun _ _ ↦ rfl, fun _ ↦ rfl, rfl, fun _ ↦ rfl,
    fun _ ↦ rfl, fun _ ↦ rfl, rfl⟩

/-- Putting an array into a place changes the heap at the seat of the place, if at all. -/
theorem heap_putAt_cases (w : Workspace) (p : Place) (n : TableId) :
    (w.putAt p (.array n)).heap = w.heap ∨
    (∃ e u, w.seat p = .element e ∧ w.heap.slot? e = some (.value u) ∧ (w.putAt p (.array n)).heap =
      w.heap.setTable e.table ((w.heap.table e.table).put e.key (.value (.array n)))) ∨
    (∃ c, w.seat p = .content c ∧ (w.putAt p (.array n)).heap = w.heap.setCell c (.array n)) ∨
    ∃ o r, w.seat p = .properties o ∧ (w.putAt p (.array n)).heap =
      { w.heap with objects := w.heap.objects.set o.index r } := by
  cases p with
  | register name => exact .inl rfl
  | symbols name =>
    refine .inl ?_
    rw [putAt]
    split <;> rfl
  | element e =>
    have hput : (w.putAt (.element e) (.array n)).heap = w.heap.write e (.array n) := rfl
    rw [hput, Heap.write, seat, Heap.binding?]
    cases hs : w.heap.slot? e with
    | none => exact .inl rfl
    | some s =>
      cases s with
      | value u => exact .inr (.inl ⟨e, u, rfl, hs, rfl⟩)
      | binding c => exact .inr (.inr (.inl ⟨c, rfl, rfl⟩))
  | content c => exact .inr (.inr (.inl ⟨c, rfl, rfl⟩))
  | properties o =>
    have hput : (w.putAt (.properties o) (.array n)).heap = w.heap.setProperties o n := rfl
    rw [hput, Heap.setProperties]
    split
    · exact .inl rfl
    next r hr => exact .inr (.inr (.inr ⟨o, _, rfl, rfl⟩))

/-- Putting an array into a place that is no table of variables leaves all of these. -/
theorem get?_symbolTable_putAt (hs : p ≠ .symbols s) (n : TableId) :
    (w.putAt p (.array n)).symbolTables.get? s = w.symbolTables.get? s := by
  cases p with
  | symbols name =>
    have hne : s ≠ name := fun he ↦ hs (he ▸ rfl)
    rw [putAt]
    split
    · exact (w.symbolTables.get?_set _ _ _).trans (if_neg hne)
    · rfl
  | _ => rfl

/-- A table of variables keeps its settings when it is given another table. -/
theorem configOf_putAt (w : Workspace) (p : Place) (n : TableId) (s : String) :
    (w.putAt p (.array n)).configOf s = w.configOf s := by
  by_cases hp : p = .symbols s
  · subst hp
    rw [putAt, configOf, configOf]
    split
    next T hT => rw [Registry.get?_set, if_pos rfl, hT]; rfl
    · rfl
  · rw [configOf, configOf, get?_symbolTable_putAt hp]

/-- **Putting an array into a place changes that place only.** -/
theorem changesOnly_putAt (w : Workspace) (p : Place) (n t : TableId) :
    w.ChangesOnly p t ∅ (w.putAt p (.array n)) := by
  have hregister : ∀ {name}, p ≠ .register name →
      (w.putAt p (.array n)).registers.get? name = w.registers.get? name := fun hp ↦
    get?_register_putAt hp n
  have hsymbols : ∀ {s}, p ≠ .symbols s →
      (w.putAt p (.array n)).symbolTables.get? s = w.symbolTables.get? s := fun hp ↦
    get?_symbolTable_putAt hp n
  have hconfig := w.configOf_putAt p n
  have hheld := w.held_putAt p n
  have hheap := w.heap_putAt_cases p n
  generalize w.putAt p (.array n) = w' at *
  obtain ⟨h, registers, symbolTables, held⟩ := w'
  rcases hheap with rfl | ⟨e, u, hseat, hs, rfl⟩ | ⟨d, hseat, rfl⟩ | ⟨o', r, hseat, rfl⟩
  · exact ⟨fun _ _ _ ↦ rfl, fun _ _ ↦ rfl, fun _ _ ↦ rfl, fun _ _ ↦ rfl, fun _ ↦ rfl, rfl,
      hregister, hsymbols, hconfig, hheld⟩
  · have htable : ∀ x, (w.heap.setTable e.table ((w.heap.table e.table).put e.key
        (.value (.array n)))).table x =
          if x = e.table then (w.heap.table x).put e.key (.value (.array n)) else w.heap.table x := by
      intro x
      split
      next hx =>
        rw [hx, Heap.table_setTable_self (Store.lt_fresh_of_get? (Heap.get?_of_find? hs))]
      next hx => exact Heap.table_setTable_ne _ hx _
    refine ⟨fun {x k} _ _ hne ↦ ?_, fun {x} _ _ ↦ ?_, fun {x} _ _ ↦ ?_, fun _ _ ↦ rfl, fun _ ↦ rfl,
      rfl, hregister, hsymbols, hconfig, hheld⟩
    · dsimp only
      rw [htable]
      split
      next hx =>
        have hk : k ≠ e.key := fun hk ↦ hne (by rw [hseat, hx, hk])
        rw [Table.find?_put, if_neg hk]
      · rfl
    · dsimp only
      rw [htable]
      split
      · exact Table.storedKeys_put _ _ _
      · rfl
    · rw [Heap.nextIndex, Heap.nextIndex]
      dsimp only
      rw [htable]
      split <;> rfl
  · exact ⟨fun _ _ _ ↦ rfl, fun _ _ ↦ rfl, fun _ _ ↦ rfl,
      fun hne _ ↦ Heap.cell_setCell_ne _ (fun he ↦ hne (by rw [hseat, he])) _, fun _ ↦ rfl, rfl,
      hregister, hsymbols, hconfig, hheld⟩
  · refine ⟨fun _ _ _ ↦ rfl, fun _ _ ↦ rfl, fun _ _ ↦ rfl, fun _ _ ↦ rfl, fun {o} hne ↦ ?_, rfl,
      hregister, hsymbols, hconfig, hheld⟩
    exact Store.get?_set_ne _ (fun he ↦ hne (by cases o; cases o'; simp_all)) _

/-- **A separation gives the place another table, if anything.** -/
theorem changesOnly_separate (hv : w.Valid) (hops : ∀ v ∈ operands, w.heap.Admits v) :
    w.ChangesOnly p (w.separate p operands).2 ∅ (w.separate p operands).1 := by
  cases hs : w.isShared (w.tableAt p) operands with
  | false =>
    rw [separate_of_not_isShared hs]
    exact .refl w p _ ∅
  | true =>
    obtain ⟨t, hval, ht, hsound⟩ := exists_array_of_isShared hv hops hs
    have hput := (w.withCopy t).changesOnly_putAt p w.copyId w.copyId
    have hknows : ∀ {x}, w.heap.Knows x → (w.withCopy t).heap.Knows x := fun hx ↦
      (quietly_withCopy hv t).heap_quietly.knows hx
    -- a table that was there is no copy
    have hcopy : ∀ {x}, w.heap.Knows x → (w.withCopy t).heap.table x = w.heap.table x := fun hx ↦
      (table_withCopy hsound _).trans (if_neg (ne_copyId_of_knows hx))
    have hseat := seat_withCopy hval hsound
    rw [separate_of_isShared hs, ht]
    exact
      { find?_eq := fun hx hne hp ↦ by rw [hput.find?_eq (hknows hx) hne (by rwa [hseat]), hcopy hx]
        storedKeys_eq := fun hx hne ↦ by rw [hput.storedKeys_eq (hknows hx) hne, hcopy hx]
        nextIndex_eq := fun hx hne ↦ by
          rw [hput.nextIndex_eq (hknows hx) hne, Heap.nextIndex, hcopy hx, Heap.nextIndex]
        cell_eq := fun hp ↦ hput.cell_eq (by rwa [hseat])
        get?_object := fun hp ↦ hput.get?_object (by rwa [hseat])
        resources_eq := hput.resources_eq
        get?_register := hput.get?_register
        get?_symbolTable := hput.get?_symbolTable
        configOf_eq := hput.configOf_eq
        held_eq := hput.held_eq }

/-- Separating does not write to a cell that an element of the array is bound to. -/
theorem cell_separate_of_binding (hv : w.Valid) (hops : ∀ v ∈ operands, w.heap.Admits v)
    (hs : w.heap.slot? ⟨w.tableAt p, k⟩ = some (.binding c)) :
    (w.separate p operands).1.heap.cell c = w.heap.cell c := by
  have hshared : w.isShared (w.tableAt p) operands = false :=
    hv.isShared_eq_false hops (hv.bindings_ne_zero hs)
  rw [separate_of_not_isShared hshared]

/-! ### One write -/

/-- Where an assignment under a key of the array at a place goes. -/
def destination (w : Workspace) (p : Place) (k : Key) : Destination :=
  w.heap.destination ⟨w.tableAt p, k⟩

/-- A value goes to the end if its key has no slot. -/
theorem destination_eq_last_iff : w.destination p k = .last ↔ w.slotAt p k = none :=
  Heap.destination_eq_last_iff

/-- What there is where an assignment under a key of the array at a place goes. -/
def former (w : Workspace) (p : Place) (k : Key) : Option Value :=
  w.heap.former ⟨w.tableAt p, k⟩ (w.destination p k)

/-- **An assignment separates the place and writes once**, and gives what was there before if the
key was shown. -/
theorem storeKey_eq_deliver (hv : w.Valid) (hops : ∀ v ∈ operands, w.heap.Admits v) (l : Label)
    (v : Value)
    (hfree : ∀ c, w.destination p l.normalize.key = .cell c → w.seat p ≠ .content c) :
    w.storeKey p l v operands =
      ({ (w.separate p operands).1 with
          heap := (w.separate p operands).1.heap.deliver (w.separate p operands).2 l.normalize v
            (w.destination p l.normalize.key) },
        if w.heap.contains (w.tableAt p) l.normalize.key then w.former p l.normalize.key
        else none) := by
  have hs : (w.separate p operands).1.heap.slot? ⟨(w.separate p operands).2, l.normalize.key⟩ =
      w.heap.slot? ⟨w.tableAt p, l.normalize.key⟩ := by
    rw [Heap.slot?, Heap.slot?, table_separate hv p hops]
  have hc : ∀ c, w.heap.slot? ⟨w.tableAt p, l.normalize.key⟩ = some (.binding c) →
      (w.separate p operands).1.heap.cell c = w.heap.cell c := fun c ↦
    cell_separate_of_binding hv hops
  have hdestination := Heap.destination_congr hs hc
  have hcontains := Heap.contains_congr hs hc l.normalize_isNormal rfl
  have hformer := Heap.former_congr hs hc fun c hd ↦
    (changesOnly_separate hv hops).cell_eq (hfree c hd) (Set.notMem_empty c)
  dsimp only at hcontains
  rw [storeKey_eq, Heap.store_eq_deliver ((quietly_separate hv p hops).valid hv).heap
    l.normalize_isNormal, hdestination, hcontains, former, ← hformer, destination]

/-- A delivery changes its destination only. -/
theorem ChangesOnly.deliver (hc : w.ChangesOnly p t ∅ w') (l : Label) (v : Value)
    (d : Destination) :
    w.ChangesOnly p t {c | d = .cell c} { w' with heap := w'.heap.deliver t l v d } := by
  have htable : ∀ {x}, x ≠ t → (w'.heap.deliver t l v d).table x = w'.heap.table x := by
    intro x hx
    cases d with
    | cell c => rfl
    | _ => exact Heap.table_setTable_ne _ hx _
  refine ⟨fun hx hne hseat ↦ ?_, fun hx hne ↦ ?_, fun hx hne ↦ ?_, fun {c} hseat hd ↦ ?_,
    fun {o} ho ↦ ?_, ?_, hc.get?_register, hc.get?_symbolTable, hc.configOf_eq, hc.held_eq⟩
  · dsimp only
    rw [htable hne, hc.find?_eq hx hne hseat]
  · dsimp only
    rw [htable hne, hc.storedKeys_eq hx hne]
  · rw [← hc.nextIndex_eq hx hne, Heap.nextIndex, Heap.nextIndex]
    dsimp only
    rw [htable hne]
  · rw [← hc.cell_eq hseat (Set.notMem_empty c)]
    cases d with
    | cell b => exact Heap.cell_setCell_ne _ (fun he ↦ hd (congrArg _ he.symm)) v
    | _ => rfl
  · rw [← hc.get?_object ho]
    cases d <;> rfl
  · rw [← hc.resources_eq]
    cases d <;> rfl

/-- The slots of the array at a place, in the order of their keys. -/
def slotsAt (w : Workspace) (p : Place) : Pairs Slot := (w.heap.table (w.tableAt p)).slots

/-- What an assignment under a key of the array at a place changes: the one location where it
goes. -/
structure Delivered (w : Workspace) (p : Place) (k : Key) (v : Value) (w' : Workspace) : Prop where
  /-- The array is where it was. -/
  valueAt_eq : w'.valueAt p = .array (w'.tableAt p)
  last : w.destination p k = .last → w'.slotsAt p = (w.slotsAt p).add k (.value v)
  slot : w.destination p k = .slot → w'.slotsAt p = (w.slotsAt p).put k (.value v)
  cell : ∀ {c}, w.destination p k = .cell c → w'.slotsAt p = w.slotsAt p ∧ w'.heap.cell c = v
  slotAt_eq : ∀ {j}, j ≠ k → w'.slotAt p j = w.slotAt p j
  /-- A key that was stored keeps the order of the keys, and the next key. -/
  stored : w.destination p k ≠ .last → (w'.slotsAt p).keys = (w.slotsAt p).keys ∧
    w'.heap.nextIndex (w'.tableAt p) = w.heap.nextIndex (w.tableAt p)
  /-- Everything outside the array, but for the cell that is written to. -/
  rest : w.ChangesOnly p (w'.tableAt p) {c | w.destination p k = .cell c} w'

theorem slotsAt_keys (w : Workspace) (p : Place) :
    (w.slotsAt p).keys = (w.heap.table (w.tableAt p)).storedKeys :=
  (w.heap.table (w.tableAt p)).matches_slots.keys_eq.symm

/-- **An assignment writes to one location.** -/
theorem delivered_storeKey (hv : w.Valid) (ha : w.heap.Acyclic)
    (hops : ∀ v ∈ operands, w.heap.Admits v) (hval : w.valueAt p = .array t) (ht : w.heap.Knows t)
    (l : Label) (v : Value)
    (hfree : ∀ c, w.destination p l.normalize.key = .cell c → w.seat p ≠ .content c) :
    w.Delivered p l.normalize.key v (w.storeKey p l v operands).1 := by
  have hknows := knows_separate hv hops (tableAt_of_valueAt hval ▸ ht)
  have hread : ∀ c, w.heap.read ⟨t, l.normalize.key⟩ = .reference c → w.seat p ≠ .content c :=
    fun c hr ↦ hfree c (Heap.destination_of_read (tableAt_of_valueAt hval ▸ hr))
  have hval' := valueAt_storeKey hv ha hops hval l v hread
  have hplace := tableAt_of_valueAt hval'
  have heq := congrArg Prod.fst (storeKey_eq_deliver hv hops l v hfree)
  have hcell : ∀ {c}, w.destination p l.normalize.key = .cell c →
      c.index < (w.separate p operands).1.heap.cells.fresh := fun hd ↦
    have hsound := (quietly_separate hv p hops).heap_quietly.sound (hv.heap.sound_of_destination hd)
    Store.lt_fresh_of_get? hsound.choose_spec
  have hold : w.slotsAt p =
      ((w.separate p operands).1.heap.table (w.separate p operands).2).slots := by
    rw [slotsAt, table_separate hv p hops]
  have hnew : (w.storeKey p l v operands).1.slotsAt p = (((w.separate p operands).1.heap.deliver
      (w.separate p operands).2 l.normalize v (w.destination p l.normalize.key)).table
        (w.separate p operands).2).slots := by
    rw [slotsAt, hplace, heq]
  obtain ⟨hlast, hslot, hthrough⟩ := Heap.slots_deliver hknows l.normalize v
  have hstored := fun hd ↦ Heap.storedKeys_deliver hknows (d := w.destination p l.normalize.key) hd
    l.normalize v
  refine ⟨hplace ▸ hval', fun hd ↦ ?_, fun hd ↦ ?_, fun {c} hd ↦ ⟨?_, ?_⟩,
    fun hj ↦ slotAt_storeKey hv ha hops hval l v hread hj, fun hd ↦ ⟨?_, ?_⟩, ?_⟩
  · rw [hnew, hd, hlast, hold]
  · rw [hnew, hd, hslot, hold]
  · rw [hnew, hd, hthrough, hold]
  · rw [heq, hd]
    exact Heap.cell_setCell_self (hcell hd) v
  · rw [slotsAt_keys, slotsAt_keys, hplace, heq, ← table_separate hv p hops]
    exact (hstored hd).1
  · rw [hplace, heq]
    refine (hstored hd).2.trans ?_
    rw [Heap.nextIndex, table_separate hv p hops, Heap.nextIndex]
  · rw [hplace, heq]
    exact (changesOnly_separate hv hops).deliver l.normalize v _

/-! ### Assigning under a key -/

/-- There is something where an assignment goes under a key that is shown. -/
theorem isSome_former (hc : w.heap.contains (w.tableAt p) l.normalize.key = true) :
    (w.former p l.normalize.key).isSome := by
  have hne := Heap.destination_ne_last hc l.normalize_isNormal
  rw [former]
  cases hd : w.destination p l.normalize.key with
  | last => exact absurd hd hne
  | slot => rfl
  | cell c => rfl

/-- **An assignment writes to exactly one location and reports what it overwrote.** In every
workspace that a program leads to, assigning a value under a key of the array at a place puts it
where an assignment under that key goes, and gives what was there if, and only if, the key was
shown. Nothing else changes. Only an assignment that would go to the very cell that the array is in,
which is borrowed while the array is changed, is not carried out. -/
theorem Reachable.assigned_once (hw : w.Reachable) (hval : w.valueAt p = .array t)
    (ht : w.heap.Knows t) (hadm : w.heap.Admits v) (l : Label) :
    ((∀ c, w.destination p l.normalize.key = .cell c → w.seat p ≠ .content c) →
      w.Delivered p l.normalize.key v (w.insertKey p l v).1 ∧
      ((w.insertKey p l v).2.isSome ↔ w.heap.contains t l.key = true) ∧
      ∀ old, (w.insertKey p l v).2 = some old → w.former p l.normalize.key = some old) ∧
    (∀ c borrowed, c ∈ borrowed → w.destination p l.normalize.key = .cell c →
      w.seat p = .content c → w.edit p borrowed (.insert l v) = none) ∧
    ∀ s source, p = .symbols s → w.symbolLabel s source = .ok l →
      w.setSymbol s source v = ((w.insertKey p l v).1, .ok ()) := by
  have hv := hw.valid
  have hops := hadm.of_mem_singleton
  have hplace := tableAt_of_valueAt hval
  have hcontains : w.heap.contains (w.tableAt p) l.normalize.key = w.heap.contains t l.key := by
    rw [hplace, Heap.contains, Heap.contains, Table.contains, Table.contains, Label.key_normalize,
      Key.normalize_normalize]
  refine ⟨fun hfree ↦ ⟨delivered_storeKey hv hw.acyclic hops hval ht l v hfree, ?_⟩,
    fun c borrowed hmem hd hseat ↦ ?_, fun s source hp hl ↦ ?_⟩
  · rw [insertKey, storeKey_eq_deliver hv hops l v hfree]
    dsimp only
    rw [hcontains]
    split
    next hc =>
      exact ⟨iff_of_true (isSome_former (hcontains.trans hc)) hc, fun old he ↦ he⟩
    next hc => exact ⟨iff_of_false Bool.false_ne_true hc, by rintro old ⟨⟩⟩
  · -- a key of an array in a cell is bound to none, so it refers to the cell
    have hread : w.heap.read ⟨t, l.normalize.key⟩ = .reference c := by
      rw [destination, hplace] at hd
      refine (Heap.mem_cellsAt_of_destination hd).resolve_left ?_
      have hadmits := hv.heap.admits_cell c
      rw [cell_of_seat hseat, hval] at hadmits
      exact find?_ne_binding hv (Heap.admits_array_iff.1 hadmits).bindings_eq_zero _ c
    refine edit_insert_of_refers (fun d hd ↦ ?_) hval l v hread hseat
    rwa [Place.content.inj (hd.symm.trans hseat)]
  · subst hp
    exact setSymbol_eq_storeKey hv hval ht hl hadm

/-- A program that binds names to a cell that refers to another one, to that one, to a cell that
refers to itself, and to the end of a chain of three cells. -/
def aliasingProgram : List Statement :=
  [⟨.array (.constant (.int 7)), some "n"⟩, ⟨.array (.cell "n"), some "c"⟩,
    ⟨.array (.cell "c"), some "d"⟩, ⟨.array (.cell "d"), some "e"⟩,
    ⟨.array (.cell "n"), some "f"⟩, ⟨.array (.setCell "f" "f"), none⟩,
    ⟨.symbols "s" (.create { maxReferenceDepth := 1 }), none⟩,
    ⟨.symbols "s" (.bind (.key (.int 1)) "d"), none⟩,
    ⟨.symbols "s" (.bind (.key (.int 2)) "c"), none⟩,
    ⟨.symbols "s" (.bind (.key (.int 3)) "f"), none⟩,
    ⟨.symbols "s" (.bind (.key (.int 4)) "e"), none⟩]

/-- Where that program ends. -/
def aliasingEnd : Workspace := ((empty.run aliasingProgram).map (·.1)).getD empty

theorem reachable_aliasingEnd : aliasingEnd.Reachable := ⟨aliasingProgram, _, rfl⟩

/-- The first name is bound to a cell that refers to another one, which is written to. -/
theorem Reachable.assigned_once_aliasingEnd :
    aliasingEnd.Reachable ∧ aliasingEnd.destination (.symbols "s") (.int 1) = .cell ⟨0⟩ ∧
      (aliasingEnd.insertKey (.symbols "s") (Label.int 1) (.int 5)).1.heap.cell ⟨0⟩ = .int 5 ∧
      (aliasingEnd.insertKey (.symbols "s") (Label.int 1) (.int 5)).1.heap.cell ⟨1⟩ =
        aliasingEnd.heap.cell ⟨1⟩ ∧
      (aliasingEnd.insertKey (.symbols "s") (Label.int 1) (.int 5)).2 = some (.int 7) := by
  obtain ⟨hwrites, -, -⟩ := reachable_aliasingEnd.assigned_once (p := .symbols "s") (t := ⟨0⟩) rfl
    ⟨_, rfl⟩ (Heap.admits_of_handle?_eq_none (v := .int 5) rfl) (Label.int 1)
  obtain ⟨hdelivered, -, -⟩ := hwrites fun c _ hseat ↦ nomatch hseat
  refine ⟨reachable_aliasingEnd, rfl, (hdelivered.cell rfl).2,
    hdelivered.rest.cell_eq (fun he ↦ nomatch he) ?_, rfl⟩
  rintro ⟨⟩

end Workspace

end SharedValue
