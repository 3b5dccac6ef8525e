import SharedValue.Navigation
import SharedValue.Proofs.Workspace.Quiet

/-!
# The operations of a workspace

Every operation on arrays, cells and tables of variables is a number of quiet changes, and among
them at most one that is not quiet: `Workspace.Effect` says so, and the module has a lemma for each
operation. The lemmas ask only that what is stored is admitted, so they hold of every valid
workspace, whoever else holds the table that is written to.
-/

namespace SharedValue.Workspace

variable {w w' w'' : Workspace} {p : Place} {operands : List Value} {may : String → Key → Prop}

/-- What an operation does: quiet changes, and then at most one that is not. After that one the
result may be held or put into a register, but the heap and the tables of variables stay as they
are. -/
inductive Effect (w : Workspace) (may : String → Key → Prop) (w' : Workspace) : Prop
  | quiet (hq : w.Quietly w')
  | loud {w₁ w₂ : Workspace} (hq : w.Quietly w₁) (hl : w₁.Loud may w₂) (hq' : w₂.Quietly w')
      (hheap : w'.heap = w₂.heap) (hsym : w'.symbolTables = w₂.symbolTables)

theorem effect_of_loud {w₁ : Workspace} (hq : w.Quietly w₁) (hl : w₁.Loud may w') :
    w.Effect may w' :=
  .loud hq hl (.refl w') rfl rfl

/-- Holding or delivering a result. -/
theorem Effect.trans_quietly (he : w.Effect may w') (hq : w'.Quietly w'')
    (hheap : w''.heap = w'.heap) (hsym : w''.symbolTables = w'.symbolTables) :
    w.Effect may w'' := by
  cases he with
  | quiet hq₁ => exact .quiet (hq₁.trans hq)
  | loud hq₁ hl hq₂ hheap₂ hsym₂ =>
    exact .loud hq₁ hl (hq₂.trans hq) (hheap.trans hheap₂) (hsym.trans hsym₂)

theorem Quietly.trans_effect (hq : w.Quietly w') (he : w'.Effect may w'') : w.Effect may w'' := by
  cases he with
  | quiet hq₁ => exact .quiet (hq.trans hq₁)
  | loud hq₁ hl hq₂ hheap hsym => exact .loud (hq.trans hq₁) hl hq₂ hheap hsym

theorem Effect.valid (he : w.Effect may w') (hv : w.Valid) : w'.Valid := by
  cases he with
  | quiet hq => exact hq.valid hv
  | loud hq hl hq' _ _ => exact hq'.valid (hl.valid (hq.valid hv))

theorem Loud.cells_eq (hl : w.Loud may w') : w'.heap.cells = w.heap.cells := by
  cases hl with
  | bind hs hl hc hu _ =>
    rw [Heap.bind]
    dsimp only
    split <;> rfl
  | _ => rfl

/-- A cell that is there stays there. -/
theorem Effect.sound_cell (he : w.Effect may w') {c : CellId} (hc : w.heap.Sound (.cell c)) :
    w'.heap.Sound (.cell c) := by
  cases he with
  | quiet hq => exact hq.heap_quietly.sound hc
  | loud hq hl hq' _ _ =>
    refine hq'.heap_quietly.sound ?_
    rw [Heap.Sound, hl.cells_eq]
    exact hq.heap_quietly.sound hc

/-! ### Holding and putting -/

theorem quietly_hold {vs : List Value} (ha : ∀ v ∈ vs, w.heap.Admits v) : w.Quietly (w.hold vs) :=
  .of_quiet (.hold ha)

theorem quietly_setRegister (name : String) {v : Value} (ha : w.heap.Admits v) :
    w.Quietly (w.setRegister name v) :=
  .of_quiet (.setRegister name ha)

theorem quietly_dropRegister (w : Workspace) (name : String) :
    w.Quietly (w.dropRegister name).1 :=
  .of_quiet (.dropRegister name)

/-- Another table at a place. A place that is the content of a cell needs the cell to be there, and
a table of variables must not lose bindings. -/
theorem quietly_putAt (hv : w.Valid) {t : TableId} (hc : ∀ c, p = .content c → w.heap.Sound (.cell c))
    (hs : ∀ name s, p = .symbols name → w.symbolTables.get? name = some s →
      (w.heap.table s.table).bindings = 0)
    (ht : w.heap.Sound (.table t)) (hnew : ∀ q ∈ w.symbolTables, q.2.table ≠ t) :
    w.Quietly (w.putAt p (.array t)) := by
  have ha := Heap.admits_array_iff.2 ht
  cases p with
  | register name => exact quietly_setRegister name ha
  | symbols name =>
    rw [putAt]
    split
    next s hget => exact .of_quiet (.repoint hget (hs name s rfl hget) ht.knows hnew)
    · exact .refl w
  | element e => exact quietly_heap (Heap.quietly_write hv.heap e ha)
  | content c => exact quietly_heap (.of_quiet (.setCell (hc c rfl) ha))
  | properties o => exact quietly_heap (.of_quiet (.setProperties o ht))

/-- No table of variables has the table that is made next. -/
theorem Valid.table_ne_fresh (hv : w.Valid) {q : String × SymbolTable}
    (hq : q ∈ w.symbolTables) : q.2.table ≠ ⟨w.heap.tables.fresh⟩ := by
  intro he
  have hlt := Store.lt_fresh_of_get? (hv.knows hq).get?
  rw [he] at hlt
  exact Nat.lt_irrefl _ hlt

/-! ### Separation -/

theorem expectArray_eq_ok_iff {v : Value} {t : TableId} :
    v.expectArray = .ok t ↔ v = .array t := by
  cases v <;> simp [Value.expectArray]

theorem tableAt_eq_fresh (h : ∀ t, w.valueAt p ≠ .array t) : w.tableAt p = ⟨w.heap.tables.fresh⟩ := by
  rw [tableAt]
  split
  next t ht => exact absurd ht (h t)
  · rfl

theorem tableAt_of_valueAt {t : TableId} (h : w.valueAt p = .array t) : w.tableAt p = t := by
  rw [tableAt, h]

theorem writable_tableAt (hv : w.Valid) (p : Place) : w.heap.Writable (w.tableAt p) := by
  rw [tableAt]
  split
  next t ht =>
    have hplain : (∀ name, p ≠ .symbols name) → (∀ o, p ≠ .properties o) → w.heap.Writable t := by
      intro hsym hprop
      have ha := hv.admits_valueAt hsym fun o ho ↦ absurd ho (hprop o)
      rw [ht] at ha
      exact (Heap.admits_array_iff.1 ha).knows.writable
    cases p with
    | symbols name =>
      rw [valueAt] at ht
      split at ht
      next s hs =>
        rw [← Value.array.inj ht]
        exact (hv.knows_of_get? hs).writable
      · cases ht
    | properties o =>
      have ht : w.heap.properties o = t := Value.array.inj ht
      cases ho : w.heap.objects.get? o.index with
      | none =>
        right
        rw [← ht, Heap.properties, ho]
        rfl
      | some r =>
        rw [← ht]
        exact (hv.heap.sound_properties ⟨r, ho⟩).knows.writable
    | _ => exact hplain (by simp) (by simp)
  · exact .inr rfl

/-- The workspace with a copy of a table, which no place has yet. -/
def withCopy (w : Workspace) (t : TableId) : Workspace :=
  { w with heap := (w.heap.newTable ((w.heap.table t).detached w.heap.cell)).1 }

/-- The name of that copy. -/
def copyId (w : Workspace) : TableId := ⟨w.heap.tables.fresh⟩

theorem separate_of_isShared (hs : w.isShared (w.tableAt p) operands = true) :
    w.separate p operands = ((w.withCopy (w.tableAt p)).putAt p (.array w.copyId), w.copyId) := by
  rw [separate, if_pos hs]
  rfl

theorem separate_of_not_isShared (hs : w.isShared (w.tableAt p) operands = false) :
    w.separate p operands = (w, w.tableAt p) := by
  rw [separate, if_neg (by simp [hs])]

theorem quietly_withCopy (hv : w.Valid) (t : TableId) : w.Quietly (w.withCopy t) :=
  quietly_heap (Heap.quietly_detached hv.heap t)

theorem sound_copyId (w : Workspace) (t : TableId) :
    (w.withCopy t).heap.Sound (.table w.copyId) :=
  Heap.sound_newTable (Table.bindings_detached _ _)

/-- Where a table is shared there is an array. -/
theorem exists_array_of_isShared (hv : w.Valid) (hops : ∀ v ∈ operands, w.heap.Admits v)
    (hs : w.isShared (w.tableAt p) operands = true) :
    ∃ t, w.valueAt p = .array t ∧ w.tableAt p = t ∧ w.heap.Sound (.table t) := by
  have hsound := hv.sound_of_isShared hops hs
  by_cases hp : ∃ t, w.valueAt p = .array t
  · obtain ⟨t, ht⟩ := hp
    rw [tableAt_of_valueAt ht] at hsound
    exact ⟨t, ht, tableAt_of_valueAt ht, hsound⟩
  · obtain ⟨T, hT, -⟩ := hsound
    rw [tableAt_eq_fresh fun t ht ↦ hp ⟨t, ht⟩] at hT
    exact absurd (Store.lt_fresh_of_get? hT) (Nat.lt_irrefl _)

/-- A place whose table is shared can be given the copy. -/
theorem quietly_putAt_copyId (hv : w.Valid) (hops : ∀ v ∈ operands, w.heap.Admits v)
    (hs : w.isShared (w.tableAt p) operands = true) : (w.withCopy (w.tableAt p)).Quietly
      ((w.withCopy (w.tableAt p)).putAt p (.array w.copyId)) := by
  have hsound := hv.sound_of_isShared hops hs
  have hq := quietly_withCopy hv (w.tableAt p)
  refine quietly_putAt (hq.valid hv) ?_ ?_ (sound_copyId w _) fun q hq' ↦
    hv.table_ne_fresh hq'
  · -- a cell that is not there shows no array, and then nothing is shared
    rintro c rfl
    obtain ⟨t, ht, -, -⟩ := exists_array_of_isShared hv hops hs
    refine hq.heap_quietly.sound ?_
    cases hc : w.heap.cells.get? c.index with
    | none => simp [valueAt, Heap.cell, hc] at ht
    | some v => exact ⟨v, hc⟩
  · rintro name s rfl hget
    have hget : w.symbolTables.get? name = some s := hget
    have ht : w.tableAt (.symbols name) = s.table :=
      tableAt_of_valueAt (by rw [valueAt, hget])
    rw [(hq.heap_quietly.keeps (hv.knows_of_get? hget)).bindings_eq, ← ht]
    exact hsound.bindings_eq_zero

theorem quietly_separate (hv : w.Valid) (p : Place) (hops : ∀ v ∈ operands, w.heap.Admits v) :
    w.Quietly (w.separate p operands).1 := by
  cases hs : w.isShared (w.tableAt p) operands with
  | true =>
    rw [separate_of_isShared hs]
    exact (quietly_withCopy hv _).trans (quietly_putAt_copyId hv hops hs)
  | false =>
    rw [separate_of_not_isShared hs]
    exact .refl w

theorem writable_separate (hv : w.Valid) (p : Place) (hops : ∀ v ∈ operands, w.heap.Admits v) :
    (w.separate p operands).1.heap.Writable (w.separate p operands).2 := by
  cases hs : w.isShared (w.tableAt p) operands with
  | true =>
    rw [separate_of_isShared hs]
    have hq := (quietly_putAt_copyId hv hops hs).heap_quietly
    exact (hq.knows (sound_copyId w _).knows).writable
  | false =>
    rw [separate_of_not_isShared hs]
    exact writable_tableAt hv p

/-- **Separating copies the table as it stands.** A table is copied only if it is shared, and then
it has no bindings that a copy would leave out. -/
theorem table_separate (hv : w.Valid) (p : Place) (hops : ∀ v ∈ operands, w.heap.Admits v) :
    (w.separate p operands).1.heap.table (w.separate p operands).2 =
      w.heap.table (w.tableAt p) := by
  cases hs : w.isShared (w.tableAt p) operands with
  | false => rw [separate_of_not_isShared hs]
  | true =>
    obtain ⟨t, hval, ht, hsound⟩ := exists_array_of_isShared hv hops hs
    have hcopy : (w.withCopy t).heap.table w.copyId = w.heap.table t := by
      rw [withCopy, Heap.table_newTable, if_pos (show w.copyId = (Heap.newTable _ _).2 from rfl),
        Table.detached_of_bindings_eq_zero _ hsound.bindings_eq_zero]
    rw [separate_of_isShared hs, ht]
    cases p with
    | element e =>
      -- the element is in a table that was there before the copy
      have hknows : w.heap.Knows e.table := by
        rw [valueAt, Heap.read, Heap.slot?] at hval
        split at hval
        next hf => exact Heap.knows_of_find? hf
        next hf => exact Heap.knows_of_find? hf
        · cases hval
      have hne : w.copyId ≠ e.table := by
        intro he
        have hlt := Store.lt_fresh_of_get? hknows.get?
        rw [← he] at hlt
        exact Nat.lt_irrefl _ hlt
      rw [← hcopy]
      show ((w.withCopy t).heap.write e _).table w.copyId = _
      rw [Heap.write]
      split
      · exact Heap.table_setTable_ne _ hne _
      · rfl
      · rfl
    | symbols name =>
      rw [← hcopy, putAt]
      split <;> rfl
    | properties o =>
      rw [← hcopy]
      show ((w.withCopy t).heap.setProperties o w.copyId).table w.copyId = _
      rw [Heap.setProperties]
      split <;> rfl
    | _ => exact hcopy

/-! ### Writing to arrays -/

theorem openElement_eq (w : Workspace) (p : Place) (l : Label) (operands : List Value) :
    w.openElement p l operands =
      ({ (w.separate p operands).1 with
          heap := (w.separate p operands).1.heap.materialize (w.separate p operands).2 l.normalize },
        ⟨(w.separate p operands).2, l.normalize.key⟩) := by
  rw [openElement]

theorem storeKey_eq (w : Workspace) (p : Place) (l : Label) (v : Value) (operands : List Value) :
    w.storeKey p l v operands =
      ({ (w.separate p operands).1 with
          heap :=
            ((w.separate p operands).1.heap.store (w.separate p operands).2 l.normalize v).1 },
        ((w.separate p operands).1.heap.store (w.separate p operands).2 l.normalize v).2) := by
  rw [storeKey]

theorem quietly_openElement (hv : w.Valid) (p : Place) (l : Label)
    (hops : ∀ v ∈ operands, w.heap.Admits v) : w.Quietly (w.openElement p l operands).1 := by
  have hq := quietly_separate hv p hops
  rw [openElement_eq]
  exact hq.trans (quietly_heap (Heap.quietly_materialize (hq.valid hv).heap
    (writable_separate hv p hops) l.normalize_isNormal))

theorem quietly_replace (hv : w.Valid) (e : Element) {v : Value} (ha : w.heap.Admits v) :
    w.Quietly (w.replace e v).1 :=
  quietly_heap (Heap.quietly_replace hv.heap e ha)

theorem quietly_assign (hv : w.Valid) (e : Element) {v : Value} (ha : w.heap.Admits v) :
    w.Quietly (w.assign e v) :=
  quietly_replace hv e ha

theorem quietly_overwrite (hv : w.Valid) (e : Element) {v : Value} (ha : w.heap.Admits v) :
    w.Quietly (w.overwrite e v) :=
  quietly_heap (Heap.quietly_write hv.heap e ha)

theorem quietly_append (hv : w.Valid) (p : Place) (hops : ∀ v ∈ operands, w.heap.Admits v) :
    w.Quietly (w.append p operands).1 := by
  rw [append]
  dsimp only
  split
  · exact .refl w
  next n hn =>
    split
    · exact .refl w
    next hstored =>
      have hq := quietly_separate hv p hops
      refine hq.trans (quietly_heap (Heap.quietly_insertNew (writable_separate hv p hops) ?_ trivial
        Heap.admits_null))
      rw [table_separate hv p hops, Table.find?_eq_none_iff]
      exact Bool.eq_false_iff.2 hstored

theorem quietly_storeKey (hv : w.Valid) (p : Place) (l : Label) {v : Value}
    (hops : ∀ v ∈ operands, w.heap.Admits v) (ha : w.heap.Admits v) :
    w.Quietly (w.storeKey p l v operands).1 := by
  have hq := quietly_separate hv p hops
  rw [storeKey_eq]
  exact hq.trans (quietly_heap (Heap.quietly_store (hq.valid hv).heap (writable_separate hv p hops)
    l.normalize_isNormal (hq.admits ha)))

theorem admits_storeKey (hv : w.Valid) {l : Label} {v old : Value}
    (hops : ∀ v ∈ operands, w.heap.Admits v) (ha : w.heap.Admits v)
    (ho : (w.storeKey p l v operands).2 = some old) :
    (w.storeKey p l v operands).1.heap.Admits old := by
  have hq := quietly_separate hv p hops
  rw [storeKey_eq] at ho ⊢
  exact Heap.admits_store (hq.valid hv).heap l.normalize_isNormal (hq.admits ha) ho

theorem quietly_insert (hv : w.Valid) (p : Place) (k : KeySource) {v : Value}
    (ha : w.heap.Admits v) : w.Quietly (w.insert p k v).1 := by
  rw [insert]
  split
  · exact .refl w
  · show w.Quietly (w.insertKey p _ v).1
    exact quietly_storeKey hv p _ ha.of_mem_singleton ha

theorem admits_insert (hv : w.Valid) {k : KeySource} {v old : Value} (ha : w.heap.Admits v)
    (ho : (w.insert p k v).2 = .ok (some old)) : (w.insert p k v).1.heap.Admits old := by
  rw [insert] at ho ⊢
  split at ho
  · cases ho
  · exact admits_storeKey hv ha.of_mem_singleton ha (Except.ok.inj ho)

theorem quietly_push (hv : w.Valid) (p : Place) {v : Value} (ha : w.heap.Admits v) :
    w.Quietly (w.push p v).1 := by
  have hq := quietly_append hv p ha.of_mem_singleton
  rw [push]
  split
  next w' e heq =>
    rw [heq] at hq
    exact hq
  next w' e heq =>
    rw [heq] at hq
    exact hq.trans (quietly_assign (hq.valid hv) e (hq.admits ha))

theorem quietly_openAt (hv : w.Valid) (p : Place) (k : KeySource) :
    w.Quietly (w.openAt p k).1 := by
  rw [openAt]
  split
  · exact .refl w
  · exact quietly_openElement hv p _ Heap.admits_of_mem_nil

theorem quietly_extend (hv : w.Valid) (p : Place) {pairs : List (Label × Value)}
    (ha : ∀ q ∈ pairs, w.heap.Admits q.2) : w.Quietly (w.extend p pairs) := by
  induction pairs generalizing w with
  | nil => exact .refl w
  | cons q rest ih =>
    obtain ⟨l, v⟩ := q
    have hv₁ := ha (l, v) List.mem_cons_self
    have hq : w.Quietly (w.storeKey p l v (v :: rest.map (·.2))).1 := by
      refine quietly_storeKey hv p l (fun u hu ↦ ?_) hv₁
      rcases List.mem_cons.1 hu with rfl | hu
      · exact hv₁
      · obtain ⟨r, hr, rfl⟩ := List.mem_map.1 hu
        exact ha r (List.mem_cons_of_mem _ hr)
    exact hq.trans (ih (hq.valid hv) fun r hr ↦ hq.admits (ha r (List.mem_cons_of_mem _ hr)))

/-- A new array at a place that has one. -/
theorem quietly_clear (hv : w.Valid) {t : TableId} (ht : w.valueAt p = .array t)
    (hsym : ∀ name, p ≠ .symbols name) : w.Quietly (w.clear p) := by
  have hq := quietly_heap (w := w) (Heap.quietly_newTable_empty w.heap)
  refine hq.trans (quietly_putAt (hq.valid hv) ?_ (fun name _ hp _ ↦ absurd hp (hsym name))
    (Heap.sound_newTable rfl) fun q hq' ↦ hv.table_ne_fresh hq')
  rintro c rfl
  refine hq.heap_quietly.sound ?_
  cases hc : w.heap.cells.get? c.index with
  | none => simp [valueAt, Heap.cell, hc] at ht
  | some v => exact ⟨v, hc⟩

/-- An entry taken out of an array: the one change here that is not quiet. -/
theorem effect_unsetKey (hv : w.Valid) (p : Place) (k : Key)
    (hk : ∀ c, (w.heap.table (w.tableAt p)).find? k.normalize ≠ some (.binding c)) :
    w.Effect may (w.unsetKey p k).1 := by
  rw [unsetKey]
  split
  next hs =>
    have hq := quietly_separate hv p Heap.admits_of_mem_nil
    have htable := table_separate hv p Heap.admits_of_mem_nil
    obtain ⟨s, hf⟩ := Table.mem_storedKeys_iff.1 (Table.stores_iff_mem.1 hs)
    cases s with
    | binding c => exact absurd hf (hk c)
    | value v =>
      rw [← htable] at hf
      exact effect_of_loud hq (.remove hf)
  · exact .quiet (.refl w)

/-- An array without bindings binds no key. -/
theorem find?_ne_binding (hv : w.Valid) {t : TableId} (hb : (w.heap.table t).bindings = 0) (k : Key)
    (c : CellId) : (w.heap.table t).find? k ≠ some (.binding c) :=
  fun hf ↦ Nat.ne_of_gt ((hv.heap.table_wellFormed t).bindings_pos hf) hb

/-- The array at a place other than a table of variables has no bindings. -/
theorem bindings_tableAt (hv : w.Valid) (hsym : ∀ name, p ≠ .symbols name)
    (ho : ∀ o, p = .properties o → w.heap.Sound (.object o)) :
    (w.heap.table (w.tableAt p)).bindings = 0 := by
  rw [tableAt]
  split
  next t ht =>
    have ha := hv.admits_valueAt hsym ho
    rw [ht] at ha
    exact (Heap.admits_array_iff.1 ha).bindings_eq_zero
  · rw [Heap.table, Store.get?_of_fresh_le (Nat.le_refl _)]
    rfl

theorem effect_unset (hv : w.Valid) (k : KeySource) (hsym : ∀ name, p ≠ .symbols name)
    (ho : ∀ o, p = .properties o → w.heap.Sound (.object o)) : w.Effect may (w.unset p k).1 := by
  rw [unset]
  split
  · exact .quiet (.refl w)
  · exact effect_unsetKey hv p _ fun c ↦ find?_ne_binding hv (bindings_tableAt hv hsym ho) _ c

/-! ### Building arrays -/

theorem quietly_collect (hv : w.Valid) {pairs : List (Label × Value)}
    (ha : ∀ q ∈ pairs, w.heap.Admits q.2) : w.Quietly (w.collect pairs).1 := by
  have hq := Heap.quietly_newTable_empty w.heap
  exact quietly_heap (hq.trans (Heap.quietly_storeAll (hq.valid hv.heap)
    (Heap.sound_newTable rfl).knows fun q hmem ↦ hq.admits (ha q hmem)))

theorem sound_collect (hv : w.Valid) {pairs : List (Label × Value)}
    (ha : ∀ q ∈ pairs, w.heap.Admits q.2) :
    (w.collect pairs).1.heap.Sound (.table (w.collect pairs).2) := by
  have hq := Heap.quietly_newTable_empty w.heap
  exact (Heap.quietly_storeAll (hq.valid hv.heap) (Heap.sound_newTable rfl).knows
    fun q hmem ↦ hq.admits (ha q hmem)).sound (Heap.sound_newTable rfl)

theorem quietly_assignPairs (hv : w.Valid) {t : TableId} (ht : w.heap.Knows t)
    {pairs : List (KeySource × Value)} (ha : ∀ q ∈ pairs, w.heap.Admits q.2) :
    w.Quietly (w.assignPairs t pairs).1 := by
  induction pairs generalizing w with
  | nil => exact .refl w
  | cons q rest ih =>
    obtain ⟨k, v⟩ := q
    rw [assignPairs]
    split
    · exact .refl w
    next l _ =>
      have hq : w.Quietly { w with heap := (w.heap.store t l.normalize v).1 } :=
        quietly_heap (Heap.quietly_store hv.heap ht.writable l.normalize_isNormal
          (ha (k, v) List.mem_cons_self))
      exact hq.trans (ih (hq.valid hv) (hq.heap_quietly.knows ht) fun r hr ↦
        hq.admits (ha r (List.mem_cons_of_mem _ hr)))

theorem quietly_newFromPairs (hv : w.Valid) {pairs : List (KeySource × Value)}
    (ha : ∀ q ∈ pairs, w.heap.Admits q.2) : w.Quietly (w.newFromPairs pairs).1 := by
  have hq := quietly_heap (w := w) (Heap.quietly_newTable_empty w.heap)
  have hq' := quietly_assignPairs (hq.valid hv) (Heap.sound_newTable rfl).knows
    fun q hmem ↦ hq.admits (ha q hmem)
  rw [newFromPairs]
  dsimp only
  split <;> next heq =>
    rw [heq] at hq'
    exact hq.trans hq'

theorem sound_newFromPairs (hv : w.Valid) {pairs : List (KeySource × Value)}
    (ha : ∀ q ∈ pairs, w.heap.Admits q.2) {t : TableId} (ht : (w.newFromPairs pairs).2 = .ok t) :
    (w.newFromPairs pairs).1.heap.Sound (.table t) := by
  have hq := quietly_heap (w := w) (Heap.quietly_newTable_empty w.heap)
  have hq' := quietly_assignPairs (hq.valid hv) (Heap.sound_newTable rfl).knows
    fun q hmem ↦ hq.admits (ha q hmem)
  rw [newFromPairs] at ht ⊢
  dsimp only at ht ⊢
  split at ht
  next heq =>
    rw [heq] at hq'
    rw [← Except.ok.inj ht]
    exact hq'.heap_quietly.sound (Heap.sound_newTable rfl)
  · cases ht

end SharedValue.Workspace
