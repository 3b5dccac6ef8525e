import Mathlib.Logic.Relation
import SharedValue.Proofs.Heap.Mention

/-!
# Valid heaps and quiet changes

A handle is *sound* in a heap when the thing it mentions is there and, if it is a table, has no
bindings: a table with bindings belongs to a table of variables, and no value ever mentions it. A
heap is *valid* when its tables are well formed and every handle inside it is sound.

A *quiet* change adds a thing, replaces the content of a cell or of a slot that is not bound, or
adds an entry: it takes no entry out and binds nothing. `Heap.Quiet` lists these changes with what
each of them asks for, so it says once what an operation can do to a heap in one step. Everything
that holds of all of them is derived from the list:

* a table keeps its bound slots, and its keys stay where they are (`Quiet.keeps_table`);
* what was sound stays sound (`Quiet.sound`);
* a valid heap stays valid (`Quiet.valid`).

`Heap.Quietly` is any number of quiet changes in turn.
-/

namespace SharedValue

/-- What a quiet change keeps of a table: how many slots are bound, the keys and their order, and
the bound slots themselves. New keys come after the old ones. -/
structure Table.Keeps (t t' : Table) : Prop where
  bindings_eq : t'.bindings = t.bindings
  keys_grow : t.storedKeys <+: t'.storedKeys
  find?_binding : ∀ {k : Key} {c : CellId},
    t.find? k = some (.binding c) → t'.find? k = some (.binding c)

namespace Table

variable {t t' t'' : Table}

theorem Keeps.refl (t : Table) : t.Keeps t := ⟨rfl, List.prefix_rfl, id⟩

theorem Keeps.trans (h : t.Keeps t') (h' : t'.Keeps t'') : t.Keeps t'' where
  bindings_eq := h'.bindings_eq.trans h.bindings_eq
  keys_grow := h.keys_grow.trans h'.keys_grow
  find?_binding := fun hf ↦ h'.find?_binding (h.find?_binding hf)

theorem keeps_put {k : Key} {u : Value} (hf : t.find? k = some (.value u)) (v : Value) :
    t.Keeps (t.put k (.value v)) where
  bindings_eq := rfl
  keys_grow := storedKeys_put t k _ ▸ List.prefix_rfl
  find?_binding := by
    intro j c hj
    rw [find?_put]
    split
    next he =>
      rw [he, hf] at hj
      cases hj
    · exact hj

theorem keeps_insertNew {l : Label} (hf : t.find? l.key = none) (v : Value) :
    t.Keeps (t.insertNew l (.value v)) where
  bindings_eq := rfl
  keys_grow := by
    rw [storedKeys_insertNew]
    exact List.prefix_append _ _
  find?_binding := by
    intro j c hj
    rw [find?_insertNew hf]
    split
    next he =>
      rw [he, hf] at hj
      cases hj
    · exact hj

end Table

namespace Heap

variable {h h' : Heap}

/-! ### Sound handles -/

/-- Whether a table is there. -/
def Knows (h : Heap) (t : TableId) : Prop := ∃ T, h.tables.get? t.index = some T

/-- Whether what a handle mentions is there, and without bindings if it is a table. -/
def Sound (h : Heap) : Handle → Prop
  | .table t => ∃ T, h.tables.get? t.index = some T ∧ T.bindings = 0
  | .object o => ∃ r, h.objects.get? o.index = some r
  | .cell c => ∃ v, h.cells.get? c.index = some v
  | .resource r => ∃ s, h.resources.get? r.index = some s
  | .text _ => True

/-- Whether a value may be put anywhere: what it mentions is sound. -/
def Admits (h : Heap) (v : Value) : Prop := ∀ x, v.handle? = some x → h.Sound x

/-- The invariant of heaps. -/
structure Valid (h : Heap) : Prop where
  /-- Every table is well formed. -/
  wellFormed : ∀ {i : Nat} {T : Table}, h.tables.get? i = some T → T.WellFormed
  /-- Every handle inside the heap is sound. -/
  sound : ∀ {x : Handle}, x ∈ h.handles → h.Sound x

theorem Sound.knows {t : TableId} (ht : h.Sound (.table t)) : h.Knows t :=
  ht.imp fun _ hT ↦ hT.1

theorem Sound.bindings_eq_zero {t : TableId} (ht : h.Sound (.table t)) :
    (h.table t).bindings = 0 := by
  obtain ⟨T, hT, hb⟩ := ht
  rw [table_of_get? hT, hb]

theorem Knows.get? {t : TableId} (ht : h.Knows t) :
    h.tables.get? t.index = some (h.table t) := by
  obtain ⟨T, hT⟩ := ht
  rw [table_of_get? hT, hT]

/-- A new table leaves the ones that are there. -/
theorem table_newTable_of_knows {t : TableId} (ht : h.Knows t) (T : Table) :
    (h.newTable T).1.table t = h.table t := by
  rw [table_newTable, if_neg]
  rintro rfl
  exact Nat.lt_irrefl _ (Store.lt_fresh_of_get? ht.get?)

theorem setTable_self {t : TableId} (ht : h.Knows t) : h.setTable t (h.table t) = h := by
  rw [setTable, Store.set_of_get? ht.get?]

theorem knows_of_find? {t : TableId} {k : Key} {s : Slot}
    (hf : (h.table t).find? k = some s) : h.Knows t :=
  ⟨_, get?_of_find? hf⟩

theorem Knows.sound {t : TableId} (ht : h.Knows t) (hb : (h.table t).bindings = 0) :
    h.Sound (.table t) :=
  ⟨_, ht.get?, hb⟩

/-- A value that mentions nothing may be put anywhere. -/
theorem admits_of_handle?_eq_none {v : Value} (hv : v.handle? = none) : h.Admits v := by
  intro x hx
  rw [hv] at hx
  cases hx

theorem admits_undefined : h.Admits .undefined := admits_of_handle?_eq_none rfl

theorem admits_null : h.Admits .null := admits_of_handle?_eq_none rfl

theorem admits_array_iff {t : TableId} : h.Admits (.array t) ↔ h.Sound (.table t) := by
  simp [Admits, Value.handle?]

theorem admits_reference_iff {c : CellId} : h.Admits (.reference c) ↔ h.Sound (.cell c) := by
  simp [Admits, Value.handle?]

theorem admits_object_iff {o : ObjectId} : h.Admits (.object o) ↔ h.Sound (.object o) := by
  simp [Admits, Value.handle?]

theorem admits_string (s : Str) : h.Admits (.string s) := by
  simp [Admits, Value.handle?, Sound]

/-- No operands are admitted. -/
theorem admits_of_mem_nil : ∀ v ∈ ([] : List Value), h.Admits v := fun _ hv ↦ nomatch hv

theorem Admits.of_mem_singleton {v : Value} (hv : h.Admits v) : ∀ u ∈ [v], h.Admits u := by
  intro u hu
  rwa [List.mem_singleton.1 hu]

theorem Admits.shown {v : Value} (hv : h.Admits v) : h.Admits v.shown := by
  cases v with
  | undefined => exact admits_null
  | _ => exact hv

namespace Valid

theorem table_wellFormed (hv : h.Valid) (t : TableId) : (h.table t).WellFormed := by
  unfold Heap.table
  cases ht : h.tables.get? t.index with
  | none => exact Table.wellFormed_empty
  | some T => exact hv.wellFormed ht

theorem sound_of_mem_table (hv : h.Valid) {t : TableId} {x : Handle}
    (hx : x ∈ (h.table t).handles) : h.Sound x := by
  unfold Heap.table at hx
  cases ht : h.tables.get? t.index with
  | none =>
    rw [ht] at hx
    cases hx
  | some T =>
    rw [ht] at hx
    exact hv.sound (mem_handles_of_table ht hx)

theorem sound_binding (hv : h.Valid) {t : TableId} {k : Key} {c : CellId}
    (hf : (h.table t).find? k = some (.binding c)) : h.Sound (.cell c) :=
  hv.sound_of_mem_table (Table.mem_handles_of_find? hf rfl)

theorem admits_value (hv : h.Valid) {t : TableId} {k : Key} {v : Value}
    (hf : (h.table t).find? k = some (.value v)) : h.Admits v :=
  fun _ hx ↦ hv.sound_of_mem_table (Table.mem_handles_of_find? hf hx)

theorem admits_cell (hv : h.Valid) (c : CellId) : h.Admits (h.cell c) := by
  unfold Heap.cell
  cases hc : h.cells.get? c.index with
  | none => exact admits_undefined
  | some v => exact fun x hx ↦ hv.sound (mem_handles_of_cell hc hx)

theorem sound_properties (hv : h.Valid) {o : ObjectId} (ho : h.Sound (.object o)) :
    h.Sound (.table (h.properties o)) := by
  obtain ⟨r, hr⟩ := ho
  have hp : h.properties o = r.properties := by simp [properties, hr]
  rw [hp]
  exact hv.sound (mem_handles_of_object hr)

/-- A copy of any table may be added. -/
theorem sound_of_mem_detached (hv : h.Valid) {t : TableId} {x : Handle}
    (hx : x ∈ ((h.table t).detached h.cell).handles) : h.Sound x := by
  rcases Table.mem_handles_detached hx with hx | ⟨c, -, hx⟩
  · exact hv.sound_of_mem_table hx
  · exact hv.admits_cell c x hx

end Valid

/-! ### Another table under a name -/

/-- Everything but the table that is replaced stays sound. -/
theorem sound_setTable {t : TableId} {T : Table} {x : Handle} (hne : x ≠ .table t)
    (hx : h.Sound x) : (h.setTable t T).Sound x := by
  cases x with
  | table u =>
    obtain ⟨U, hU, hb⟩ := hx
    have hi : u.index ≠ t.index := fun he ↦ hne (by cases u; cases t; simp_all)
    exact ⟨U, by rw [setTable, Store.get?_set_ne _ hi, hU], hb⟩
  | _ => exact hx

theorem knows_setTable {t u : TableId} {T : Table} (ht : h.Knows t) (hu : h.Knows u) :
    (h.setTable t T).Knows u := by
  rw [Knows, setTable, Store.get?_set_of_get? ht.get?]
  split
  · exact ⟨T, rfl⟩
  · exact hu

theorem Valid.wellFormed_setTable (hv : h.Valid) {t : TableId} {T U : Table} {i : Nat}
    (ht : h.Knows t) (hT : T.WellFormed) (hi : (h.setTable t T).tables.get? i = some U) :
    U.WellFormed := by
  rw [setTable, Store.get?_set_of_get? ht.get?] at hi
  split at hi
  · rwa [← Option.some.inj hi]
  · exact hv.wellFormed hi

/-! ### Quiet changes -/

/-- One change that takes no entry out and binds nothing. -/
inductive Quiet (h : Heap) : Heap → Prop
  | buffer : Quiet h { h with buffers := h.buffers + 1 }
  | newTable {T : Table} (hT : T.WellFormed) (hb : T.bindings = 0)
      (hx : ∀ x ∈ T.handles, h.Sound x) : Quiet h (h.newTable T).1
  | newCell {v : Value} (hv : h.Admits v) : Quiet h (h.newCell v).1
  | newObject (s : Str) {t : TableId} (ht : h.Sound (.table t)) : Quiet h (h.newObject s t).1
  | newResource (n : Int64) (s : Str) : Quiet h (h.newResource n s).1
  | setCell {c : CellId} {v : Value} (hc : h.Sound (.cell c)) (hv : h.Admits v) :
      Quiet h (h.setCell c v)
  | setProperties (o : ObjectId) {t : TableId} (ht : h.Sound (.table t)) :
      Quiet h (h.setProperties o t)
  | put {t : TableId} {k : Key} {u v : Value} (hf : (h.table t).find? k = some (.value u))
      (hv : h.Admits v) : Quiet h (h.setTable t ((h.table t).put k (.value v)))
  | add {t : TableId} {l : Label} {v : Value} (ht : h.Knows t)
      (hf : (h.table t).find? l.key = none) (hl : l.key.IsNormal) (hv : h.Admits v) :
      Quiet h (h.setTable t ((h.table t).insertNew l (.value v)))

/-- Any number of quiet changes in turn. -/
def Quietly : Heap → Heap → Prop := Relation.ReflTransGen Quiet

/-- A table replaced by one that keeps what it must. -/
private theorem keeps_table_setTable {t : TableId} {i : Nat} {T T' : Table}
    (hT : (h.table t).Keeps T') (ht : h.Knows t) (hi : h.tables.get? i = some T) :
    ∃ U, (h.setTable t T').tables.get? i = some U ∧ T.Keeps U := by
  rw [setTable, Store.get?_set_of_get? ht.get?]
  split
  next he =>
    rw [he, ht.get?, Option.some.injEq] at hi
    exact ⟨T', rfl, hi ▸ hT⟩
  · exact ⟨T, hi, .refl T⟩

/-- A quiet change keeps every table, up to new keys and the values of slots that are not bound. -/
theorem Quiet.keeps_table (hq : h.Quiet h') {i : Nat} {T : Table}
    (hi : h.tables.get? i = some T) : ∃ T', h'.tables.get? i = some T' ∧ T.Keeps T' := by
  cases hq with
  | newTable _ _ _ =>
    refine ⟨T, ?_, .refl T⟩
    have hlt := Store.lt_fresh_of_get? hi
    rw [Heap.newTable, Store.get?_add, if_neg (Nat.ne_of_lt hlt), hi]
  | setProperties o _ =>
    refine ⟨T, ?_, .refl T⟩
    rw [Heap.setProperties]
    split <;> exact hi
  | put hf _ => exact keeps_table_setTable (Table.keeps_put hf _) (knows_of_find? hf) hi
  | add ht hf _ _ => exact keeps_table_setTable (Table.keeps_insertNew hf _) ht hi
  | _ => exact ⟨T, hi, .refl T⟩

/-- **A quiet change keeps handles sound.** -/
theorem Quiet.sound (hq : h.Quiet h') {x : Handle} (hx : h.Sound x) : h'.Sound x := by
  cases x with
  | text s => trivial
  | table t =>
    obtain ⟨T, hT, hb⟩ := hx
    obtain ⟨T', hT', hk⟩ := hq.keeps_table hT
    exact ⟨T', hT', hk.bindings_eq.trans hb⟩
  | object o =>
    obtain ⟨r, hr⟩ := hx
    cases hq with
    | newObject s _ =>
      refine ⟨r, ?_⟩
      have hlt := Store.lt_fresh_of_get? hr
      rw [Heap.newObject, Store.get?_add, if_neg (Nat.ne_of_lt hlt), hr]
    | setProperties o' _ =>
      unfold Heap.setProperties
      split
      · exact ⟨r, hr⟩
      next r' hr' =>
        dsimp only [Sound]
        rw [Store.get?_set_of_get? hr']
        split
        · exact ⟨_, rfl⟩
        · exact ⟨r, hr⟩
    | _ => exact ⟨r, hr⟩
  | cell c =>
    obtain ⟨v, hv⟩ := hx
    cases hq with
    | newCell _ =>
      refine ⟨v, ?_⟩
      have hlt := Store.lt_fresh_of_get? hv
      rw [Heap.newCell, Store.get?_add, if_neg (Nat.ne_of_lt hlt), hv]
    | setCell hc _ =>
      obtain ⟨u, hu⟩ := hc
      dsimp only [Sound, Heap.setCell]
      rw [Store.get?_set_of_get? hu]
      split
      · exact ⟨_, rfl⟩
      · exact ⟨v, hv⟩
    | setProperties o _ =>
      unfold Heap.setProperties
      split <;> exact ⟨v, hv⟩
    | _ => exact ⟨v, hv⟩
  | resource r =>
    obtain ⟨s, hs⟩ := hx
    cases hq with
    | newResource _ _ =>
      refine ⟨s, ?_⟩
      have hlt := Store.lt_fresh_of_get? hs
      rw [Heap.newResource, Store.get?_add, if_neg (Nat.ne_of_lt hlt), hs]
    | setProperties o _ =>
      unfold Heap.setProperties
      split <;> exact ⟨s, hs⟩
    | _ => exact ⟨s, hs⟩

/-- **A quiet change keeps a valid heap valid.** -/
theorem Quiet.valid (hq : h.Quiet h') (hv : h.Valid) : h'.Valid where
  wellFormed := by
    intro i T hi
    cases hq with
    | newTable hT _ _ =>
      rw [Heap.newTable, Store.get?_add] at hi
      split at hi
      · rwa [← Option.some.inj hi]
      · exact hv.wellFormed hi
    | setProperties o _ =>
      rw [Heap.setProperties] at hi
      split at hi <;> exact hv.wellFormed hi
    | put hf _ =>
      refine hv.wellFormed_setTable (knows_of_find? hf) ?_ hi
      exact (hv.table_wellFormed _).put hf rfl
    | add ht hf hl _ =>
      exact hv.wellFormed_setTable ht ((hv.table_wellFormed _).insertNew hf hl _) hi
    | _ => exact hv.wellFormed hi
  sound := by
    intro x hx
    refine hq.sound ?_
    cases hq with
    | buffer => exact hv.sound hx
    | newTable _ _ hT => exact (mem_handles_newTable hx).elim hv.sound (hT x)
    | newCell hu => exact (mem_handles_newCell hx).elim hv.sound (hu x)
    | newObject s ht =>
      rcases mem_handles_newObject hx with hx | ⟨s, rfl⟩ | rfl
      · exact hv.sound hx
      · trivial
      · exact ht
    | newResource n s =>
      rcases mem_handles_newResource hx with hx | ⟨s, rfl⟩
      · exact hv.sound hx
      · trivial
    | setCell hc hu =>
      obtain ⟨u, hc⟩ := hc
      exact (mem_handles_setCell hc hx).elim hv.sound (hu x)
    | setProperties o ht =>
      rcases mem_handles_setProperties hx with hx | rfl
      · exact hv.sound hx
      · exact ht
    | put hf hu =>
      rcases mem_handles_setTable (get?_of_find? hf) hx with hx | hx
      · exact hv.sound hx
      rcases Table.mem_handles_put hx with hx | hx
      · exact hv.sound_of_mem_table hx
      · exact hu x hx
    | add ht hf _ hu =>
      rcases mem_handles_setTable ht.get? hx with hx | hx
      · exact hv.sound hx
      rcases Table.mem_handles_insertNew hx with hx | ⟨s, rfl⟩ | hx
      · exact hv.sound_of_mem_table hx
      · trivial
      · exact hu x hx

/-! ### Any number of quiet changes -/

namespace Quietly

variable {h'' : Heap}

theorem refl (h : Heap) : h.Quietly h := Relation.ReflTransGen.refl

theorem trans (hq : h.Quietly h') (hq' : h'.Quietly h'') : h.Quietly h'' :=
  Relation.ReflTransGen.trans hq hq'

theorem of_quiet (hq : h.Quiet h') : h.Quietly h' := .single hq

theorem keeps_table (hq : h.Quietly h') {i : Nat} {T : Table}
    (hi : h.tables.get? i = some T) : ∃ T', h'.tables.get? i = some T' ∧ T.Keeps T' := by
  induction hq with
  | refl => exact ⟨T, hi, .refl T⟩
  | tail _ hq ih =>
    obtain ⟨T₁, hT₁, hk₁⟩ := ih
    obtain ⟨T₂, hT₂, hk₂⟩ := hq.keeps_table hT₁
    exact ⟨T₂, hT₂, hk₁.trans hk₂⟩

theorem sound (hq : h.Quietly h') {x : Handle} (hx : h.Sound x) : h'.Sound x := by
  induction hq with
  | refl => exact hx
  | tail _ hq ih => exact hq.sound ih

theorem admits (hq : h.Quietly h') {v : Value} (hv : h.Admits v) : h'.Admits v :=
  fun x hx ↦ hq.sound (hv x hx)

theorem valid (hq : h.Quietly h') (hv : h.Valid) : h'.Valid := by
  induction hq with
  | refl => exact hv
  | tail _ hq ih => exact hq.valid ih

theorem knows (hq : h.Quietly h') {t : TableId} (ht : h.Knows t) : h'.Knows t := by
  obtain ⟨T, hT⟩ := ht
  obtain ⟨T', hT', -⟩ := hq.keeps_table hT
  exact ⟨T', hT'⟩

/-- The tables that are known, as readers see them. -/
theorem keeps (hq : h.Quietly h') {t : TableId} (ht : h.Knows t) :
    (h.table t).Keeps (h'.table t) := by
  obtain ⟨T', hT', hk⟩ := hq.keeps_table ht.get?
  rwa [table_of_get? hT']

end Quietly

end Heap

end SharedValue
