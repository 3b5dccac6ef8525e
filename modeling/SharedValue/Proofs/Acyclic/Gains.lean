import SharedValue.Proofs.Workspace.Anchored

/-!
# Arrays that gain elements

No array can be come to from itself through elements alone: `Heap.Acyclic`. A heap stays acyclic
unless some table gains an element that leads back to it, so what matters of an operation is which
table gains which elements. `Heap.Gains` says so: between two heaps the only new elements are in one
table, and they are among given values, which are also the only new contents of cells. Operations
that take elements out, bind keys or write to cells gain nothing.

* `Gains.below`, `Gains.not_within`: what can be come to after a change, in terms of the heap
  before it;
* `Gains.acyclic`: a change keeps a heap acyclic if nothing that is gained leads back;
* `gains_write`, `gains_store`, ...: what the operations of a heap gain.
-/

namespace SharedValue.Heap

variable {h h' h'' : Heap} {t u x y : TableId} {vs : Set Value} {v : Value} {l : Label}
  {k : Key} {T : Table}

/-- Whether no table can be come to from itself through elements. -/
def Acyclic (h : Heap) : Prop := ∀ t u, h.Child t u → ¬ h.Below u t

/-- Whether the only elements of `h'` that are new since `h` are elements of `t` among `vs`, and the
new contents of cells are among `vs` too. -/
structure Gains (h : Heap) (t : TableId) (vs : Set Value) (h' : Heap) : Prop where
  child : ∀ {y z}, h'.Child y z → h.Child y z ∨ y = t ∧ .array z ∈ vs
  cell : ∀ c, h'.cell c = h.cell c ∨ h'.cell c ∈ vs

/-- A heap without new elements stays acyclic. -/
theorem Acyclic.of_child (ha : h.Acyclic) (hc : ∀ {y z}, h'.Child y z → h.Child y z) :
    h'.Acyclic :=
  fun _ _ hch hb ↦ ha _ _ (hc hch) (hb.lift id fun _ _ ↦ hc)

theorem Acyclic.not_below (ha : h.Acyclic) (hc : h.Child t u) : ¬ h.Below u t := ha t u hc

namespace Gains

theorem refl (h : Heap) (t : TableId) (vs : Set Value) : h.Gains t vs h :=
  ⟨.inl, fun _ ↦ .inl rfl⟩

theorem trans (hg : h.Gains t vs h') (hg' : h'.Gains t vs h'') : h.Gains t vs h'' where
  child := fun hc ↦ (hg'.child hc).elim hg.child .inr
  cell := fun c ↦ (hg'.cell c).elim (fun he ↦ he ▸ hg.cell c) .inr

/-- **What can be come to after a change** could be come to before, or lies behind one of the
elements gained. -/
theorem below (hg : h.Gains t vs h') (hb : h'.Below y u) :
    h.Below y u ∨ h.Below y t ∧ ∃ x, .array x ∈ vs ∧ h.Below x u := by
  induction hb with
  | refl => exact .inl .refl
  | tail _ hc ih =>
    rcases hg.child hc with hc | ⟨rfl, hm⟩
    · exact ih.imp (·.tail hc) fun ⟨hy, x, hx, hb⟩ ↦ ⟨hy, x, hx, hb.tail hc⟩
    · exact .inr ⟨ih.elim id (·.1), _, hm, .refl⟩

theorem not_within (hg : h.Gains t vs h') (hv : ¬ h.Within u v)
    (hvs : ∀ v ∈ vs, ¬ h.Within u v) : ¬ h'.Within u v := by
  rintro ⟨y, rfl, hb⟩
  rcases hg.below hb with hb | ⟨-, x, hx, hb⟩
  · exact hv (within_array_iff.2 hb)
  · exact hvs _ hx (within_array_iff.2 hb)

/-- **A change keeps a heap acyclic if nothing that is gained leads back.** -/
theorem acyclic (hg : h.Gains t vs h') (ha : h.Acyclic) (hvs : ∀ v ∈ vs, ¬ h.Within t v) :
    h'.Acyclic := by
  have hback : ∀ {x}, .array x ∈ vs → ¬ h.Below x t := fun hx hb ↦
    hvs _ hx (within_array_iff.2 hb)
  intro y z hc hb
  rcases hg.child hc with hc | ⟨rfl, hm⟩
  · rcases hg.below hb with hb | ⟨hz, x, hx, hb⟩
    · exact ha.not_below hc hb
    · -- the way round leads through the table, and from an element gained back to it
      exact hback hx (hb.trans (.head hc hz))
  · rcases hg.below hb with hb | ⟨-, x, hx, hb⟩
    · exact hback hm hb
    · exact hback hx hb

end Gains

/-! ### What changes of one part gain -/

/-- Changes of buffers, objects and resources gain nothing. -/
theorem gains_of_eq (htables : h'.tables = h.tables) (hcells : h'.cells = h.cells) (t : TableId)
    (vs : Set Value) : h.Gains t vs h' := by
  refine ⟨fun {y z} hc ↦ .inl ?_, fun c ↦ .inl ?_⟩
  · obtain ⟨k, hk⟩ := hc
    refine ⟨k, ?_⟩
    rwa [table, htables] at hk
  · rw [cell, cell, hcells]

theorem gains_newStr (h : Heap) (b : Bytes) (t : TableId) (vs : Set Value) :
    h.Gains t vs (h.newStr b).1 := by
  rw [newStr]
  split
  · exact .refl h t vs
  · refine gains_of_eq ?_ ?_ t vs <;> rfl

theorem gains_setTable (hT : ∀ {k z}, T.find? k = some (.value (.array z)) →
    h.Child t z ∨ .array z ∈ vs) : h.Gains t vs (h.setTable t T) := by
  refine ⟨fun {y z} ⟨k, hk⟩ ↦ ?_, fun c ↦ .inl rfl⟩
  by_cases hy : y = t
  · subst hy
    by_cases hlt : y.index < h.tables.fresh
    · rw [table_setTable_self hlt] at hk
      exact (hT hk).imp_right fun hm ↦ ⟨rfl, hm⟩
    · rw [table, Store.get?_of_fresh_le (by simpa [setTable] using Nat.le_of_not_lt hlt)] at hk
      cases hk
  · rw [table_setTable_ne h hy] at hk
    exact .inl ⟨k, hk⟩

theorem gains_put (t : TableId) (k : Key) (s : Slot) (hs : ∀ {z}, s = .value (.array z) →
    .array z ∈ vs) : h.Gains t vs (h.setTable t ((h.table t).put k s)) := by
  refine gains_setTable fun {j z} hj ↦ ?_
  rw [Table.find?_put] at hj
  split at hj
  · obtain ⟨-, -, rfl⟩ := Option.map_eq_some_iff.1 hj
    exact .inr (hs rfl)
  · exact .inl ⟨j, hj⟩

theorem gains_insertNew {s : Slot} (hf : (h.table t).find? l.key = none)
    (hs : ∀ {z}, s = .value (.array z) → .array z ∈ vs) :
    h.Gains t vs (h.setTable t ((h.table t).insertNew l s)) := by
  refine gains_setTable fun {j z} hj ↦ ?_
  rw [Table.find?_insertNew hf] at hj
  split at hj
  · exact .inr (hs (Option.some.inj hj))
  · exact .inl ⟨j, hj⟩

theorem gains_remove (hv : h.Valid) (t : TableId) (k : Key) (vs : Set Value) :
    h.Gains t vs (h.setTable t ((h.table t).remove k)) := by
  refine gains_setTable fun {j z} hj ↦ ?_
  rw [Table.find?_remove (hv.table_wellFormed t).keys_nodup] at hj
  split at hj
  · cases hj
  · exact .inl ⟨j, hj⟩

theorem gains_setCell (t : TableId) (c : CellId) (hm : v ∈ vs) : h.Gains t vs (h.setCell c v) := by
  refine ⟨.inl, fun c' ↦ ?_⟩
  by_cases hc : c' = c
  · subst hc
    by_cases hlt : c'.index < h.cells.fresh
    · right
      rwa [cell_setCell_self hlt]
    · left
      rw [cell, cell, setCell, Store.get?_of_fresh_le (Nat.le_of_not_lt hlt),
        Store.get?_of_fresh_le (by simpa using Nat.le_of_not_lt hlt)]
  · exact .inl (cell_setCell_ne h hc v)

theorem gains_newTable (hT : ∀ {k z}, T.find? k = some (.value (.array z)) → .array z ∈ vs) :
    h.Gains (h.newTable T).2 vs (h.newTable T).1 := by
  refine ⟨fun {y z} ⟨k, hk⟩ ↦ ?_, fun c ↦ .inl rfl⟩
  rw [table_newTable] at hk
  split at hk
  next hy => exact .inr ⟨hy, hT hk⟩
  · exact .inl ⟨k, hk⟩

/-! ### What the operations gain -/

theorem gains_write (e : Element) (hm : v ∈ vs) : h.Gains e.table vs (h.write e v) := by
  rw [write]
  split
  · refine gains_put e.table e.key (.value v) fun {z} hz ↦ ?_
    rwa [← Slot.value.inj hz]
  · exact gains_setCell _ _ hm
  · exact .refl h _ _

theorem gains_replace (e : Element) (hm : v ∈ vs) : h.Gains e.table vs (h.replace e v).1 := by
  rw [replace]
  split
  · split
    · exact gains_write e hm
    · exact gains_setCell _ _ hm
  · exact gains_write e hm

theorem gains_materialize (t : TableId) (l : Label) (hn : .null ∈ vs) :
    h.Gains t vs (h.materialize t l) := by
  rw [materialize]
  split
  next hf => exact gains_insertNew hf fun hz ↦ by cases hz
  · split
    · exact gains_write ⟨t, l.key⟩ hn
    · exact .refl h t vs

theorem gains_store (t : TableId) (l : Label) (hn : .null ∈ vs) (hm : v ∈ vs) :
    h.Gains t vs (h.store t l v).1 := by
  rw [store]
  split
  next hf =>
    refine gains_insertNew hf fun {z} hz ↦ ?_
    rwa [← Slot.value.inj hz]
  · exact (gains_materialize t l hn).trans (gains_replace ⟨t, l.key⟩ hm)

theorem gains_storeAll (t : TableId) {pairs : List (Label × Value)} (hn : .null ∈ vs)
    (hm : ∀ p ∈ pairs, p.2 ∈ vs) : h.Gains t vs (h.storeAll t pairs) := by
  induction pairs generalizing h with
  | nil => exact .refl h t vs
  | cons p rest ih =>
    exact (gains_store t p.1.normalize hn (hm p List.mem_cons_self)).trans
      (ih fun q hq ↦ hm q (List.mem_cons_of_mem _ hq))

theorem gains_bind (h : Heap) (t : TableId) (l : Label) (c : CellId) (vs : Set Value) :
    h.Gains t vs (h.bind t l c) := by
  rw [bind]
  dsimp only
  split
  next hf => exact gains_insertNew hf fun hz ↦ by cases hz
  · refine gains_setTable fun {j z} hj ↦ ?_
    have hj : ((h.table t).put l.key (.binding c)).find? j = some (.value (.array z)) := hj
    rw [Table.find?_put] at hj
    split at hj
    · obtain ⟨-, -, he⟩ := Option.map_eq_some_iff.1 hj
      cases he
    · exact .inl ⟨j, hj⟩

/-! ### Quiet changes bind nothing -/

private theorem find?_binding_of_setTable {c : CellId} (ht : h.Knows u)
    (hT : T.find? k = some (.binding c) → (h.table u).find? k = some (.binding c))
    (hf : ((h.setTable u T).table t).find? k = some (.binding c)) :
    (h.table t).find? k = some (.binding c) := by
  by_cases htu : t = u
  · subst htu
    rw [table_setTable_self (Store.lt_fresh_of_get? ht.get?)] at hf
    exact hT hf
  · rwa [table_setTable_ne h htu] at hf

theorem Quiet.find?_binding (hq : h.Quiet h') (ht : h.Knows t) {c : CellId}
    (hf : (h'.table t).find? k = some (.binding c)) : (h.table t).find? k = some (.binding c) := by
  cases hq with
  | newTable _ _ _ =>
    rw [table_newTable, if_neg] at hf
    · exact hf
    · rintro rfl
      exact Nat.lt_irrefl _ (Store.lt_fresh_of_get? ht.get?)
  | setProperties o _ =>
    rw [table, Heap.setProperties] at hf
    split at hf <;> exact hf
  | put hu _ =>
    refine find?_binding_of_setTable (knows_of_find? hu) (fun hb ↦ ?_) hf
    rw [Table.find?_put] at hb
    split at hb
    · obtain ⟨-, -, he⟩ := Option.map_eq_some_iff.1 hb
      cases he
    · exact hb
  | add hk hn _ _ =>
    refine find?_binding_of_setTable hk (fun hb ↦ ?_) hf
    rw [Table.find?_insertNew hn] at hb
    split at hb
    · cases hb
    · exact hb
  | _ => exact hf

/-- **What is bound after quiet changes was bound before**, to the same cell. -/
theorem Quietly.find?_binding (hq : h.Quietly h') (ht : h.Knows t) {c : CellId}
    (hf : (h'.table t).find? k = some (.binding c)) : (h.table t).find? k = some (.binding c) := by
  induction hq with
  | refl => exact hf
  | tail hq hq' ih => exact ih (hq'.find?_binding (Quietly.knows hq ht) hf)

/-! ### Tables that are new -/

/-- Whether a table is an element of no table. -/
def Topmost (h : Heap) (t : TableId) : Prop := ∀ y, ¬ h.Child y t

theorem Topmost.eq_of_below (ht : h.Topmost t) (hb : h.Below y t) : y = t := by
  cases hb using Relation.ReflTransGen.casesOn with
  | refl => rfl
  | tail _ hc => exact absurd hc (ht _)

theorem Topmost.not_within (ht : h.Topmost t) (hv : v ≠ .array t) : ¬ h.Within t v := by
  rintro ⟨y, rfl, hb⟩
  exact hv (congrArg _ (ht.eq_of_below hb))

/-- A table stays topmost if it is not among what is gained. -/
theorem Topmost.gains (ht : h.Topmost u) (hg : h.Gains t vs h') (hvs : .array u ∉ vs) :
    h'.Topmost u :=
  fun y hc ↦ (hg.child hc).elim (ht y) fun hm ↦ hvs hm.2

theorem Valid.knows_of_child (hv : h.Valid) (hc : h.Child t u) : h.Knows u :=
  hc.elim fun _ hk ↦ (admits_array_iff.1 (hv.admits_value hk)).knows

/-- The name of the next table is no element yet. -/
theorem Valid.topmost_fresh (hv : h.Valid) : h.Topmost ⟨h.tables.fresh⟩ := fun _ hc ↦
  Nat.lt_irrefl _ (Store.lt_fresh_of_get? (hv.knows_of_child hc).get?)

/-- Nothing that is admitted mentions the next table. -/
theorem Admits.ne_fresh (ha : h.Admits v) : v ≠ .array ⟨h.tables.fresh⟩ := by
  rintro rfl
  exact Nat.lt_irrefl _ (Store.lt_fresh_of_get? (admits_array_iff.1 ha).knows.get?)

theorem Acyclic.of_gains_topmost (ha : h.Acyclic) (hg : h.Gains t vs h') (ht : h.Topmost t)
    (hvs : .array t ∉ vs) : h'.Acyclic :=
  hg.acyclic ha fun _ hm ↦ ht.not_within fun he ↦ hvs (he ▸ hm)

/-- What a new table of values that are there gains is not the table itself. -/
theorem gains_newTable_of_sound (hT : ∀ x ∈ T.handles, h.Sound x) :
    h.Gains ⟨h.tables.fresh⟩ {v | h.Admits v} (h.newTable T).1 :=
  gains_newTable fun hf ↦ admits_array_iff.2 (hT _ (Table.mem_handles_of_find? hf rfl))

/-- **A new table of values that are there** keeps a heap acyclic. -/
theorem Acyclic.newTable (ha : h.Acyclic) (hv : h.Valid) (hT : ∀ x ∈ T.handles, h.Sound x) :
    (h.newTable T).1.Acyclic :=
  ha.of_gains_topmost (gains_newTable_of_sound hT) hv.topmost_fresh fun hm ↦
    (show h.Admits _ from hm).ne_fresh rfl

theorem sound_of_mem_empty {x : Handle} (hx : x ∈ Table.empty.handles) : h.Sound x := by cases hx

/-- An empty table. -/
theorem Acyclic.newTable_empty (ha : h.Acyclic) (hv : h.Valid) :
    (h.newTable Table.empty).1.Acyclic :=
  ha.newTable hv fun _ ↦ sound_of_mem_empty

/-- Storing values that are there in a table that is no element of any keeps a heap acyclic. -/
theorem Acyclic.storeAll (ha : h.Acyclic) (ht : h.Topmost t) {pairs : List (Label × Value)}
    (hp : ∀ p ∈ pairs, p.2 ≠ .array t) : (h.storeAll t pairs).Acyclic := by
  have hg : h.Gains t {v | v ≠ .array t} (h.storeAll t pairs) :=
    gains_storeAll t (fun he ↦ by cases he) hp
  exact ha.of_gains_topmost hg ht fun hm ↦ hm rfl

end SharedValue.Heap
