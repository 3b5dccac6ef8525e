import SharedValue.Decode
import SharedValue.Heap.Dereference
import SharedValue.Proofs.Except
import SharedValue.Proofs.Heap.Quiet
import SharedValue.Proofs.Table.Readings

/-!
# The operations of a heap are quiet

Writing to an element, storing under a key, building lists, copies and decoded values: each of these
is a number of quiet changes in turn, and the module shows so for one operation after the other.
What an operation gives back is admitted by the heap that it leaves (`admits_read`,
`admits_replace`, ...), so it may be put anywhere.

None of the lemmas asks who else holds the table that is written to. They say which heaps can come
about at all; who sees the change is another matter.
-/

namespace SharedValue

theorem Label.normalize_isNormal (l : Label) : l.normalize.key.IsNormal := by
  rw [key_normalize]
  exact Key.normalize_isNormal l.key

theorem Label.key_normalize_of_isNormal {l : Label} (hl : l.key.IsNormal) :
    l.normalize.key = l.key := by
  rw [key_normalize, Key.normalize_of_isNormal hl]

namespace Heap

variable {h : Heap}

/-! ### New things -/

theorem quietly_newStr (h : Heap) (b : Bytes) : h.Quietly (h.newStr b).1 := by
  unfold newStr
  split
  · exact .refl h
  · exact .of_quiet .buffer

theorem quietly_newTable_empty (h : Heap) : h.Quietly (h.newTable Table.empty).1 :=
  .of_quiet (.newTable Table.wellFormed_empty rfl fun _ hx ↦ nomatch hx)

theorem sound_newTable {T : Table} (hb : T.bindings = 0) :
    (h.newTable T).1.Sound (.table (h.newTable T).2) :=
  ⟨T, by rw [newTable, Store.get?_add, if_pos rfl], hb⟩

theorem sound_newCell (v : Value) : (h.newCell v).1.Sound (.cell (h.newCell v).2) :=
  ⟨v, by rw [newCell, Store.get?_add, if_pos rfl]⟩

theorem sound_newObject (s : Str) (t : TableId) :
    (h.newObject s t).1.Sound (.object (h.newObject s t).2) :=
  ⟨_, by rw [newObject, Store.get?_add, if_pos rfl]⟩

theorem sound_newResource (n : Int64) (s : Str) :
    (h.newResource n s).1.Sound (.resource (h.newResource n s).2) :=
  ⟨_, by rw [newResource, Store.get?_add, if_pos rfl]⟩

theorem bindings_ofList (vs : List Value) : (Table.ofList vs).bindings = 0 := by
  suffices hgen : ∀ (vs : List Value) (j : Nat) (t : Table),
      ((vs.zipIdx j).foldl (fun t (p : Value × Nat) ↦
        t.insertNew (Label.int (Int64.ofNat p.2)) (.value p.1)) t).bindings = t.bindings from
    hgen vs 0 Table.empty
  intro vs
  induction vs with
  | nil => exact fun _ _ ↦ rfl
  | cons v vs ih =>
    intro j t
    rw [List.zipIdx_cons, List.foldl_cons, ih]
    rfl

/-- A list of values that are admitted, as long as there is an index for each. -/
theorem quietly_newList {vs : List Value} (hlen : vs.length ≤ 2 ^ 63)
    (hvs : ∀ v ∈ vs, h.Admits v) : h.Quietly (h.newList vs).1 := by
  refine .of_quiet (.newTable (Table.wellFormed_ofList hlen) (bindings_ofList vs) fun x hx ↦ ?_)
  obtain ⟨v, hv, hx⟩ := Table.mem_handles_ofList hx
  exact hvs v hv x hx

theorem quietly_detached (hv : h.Valid) (t : TableId) :
    h.Quietly (h.newTable ((h.table t).detached h.cell)).1 :=
  .of_quiet (.newTable ((hv.table_wellFormed t).detached h.cell) (Table.bindings_detached _ _)
    fun _ hx ↦ hv.sound_of_mem_detached hx)

theorem quietly_copyArray (hv : h.Valid) (t : TableId) : h.Quietly (h.copyArray t).1 := by
  unfold copyArray
  split
  · exact .refl h
  · exact quietly_detached hv t

theorem sound_copyArray {t : TableId} (ht : h.Knows t) :
    (h.copyArray t).1.Sound (.table (h.copyArray t).2) := by
  unfold copyArray
  split
  next hb => exact ht.sound hb
  · exact sound_newTable (Table.bindings_detached _ _)

/-- Another handle to an array shows the same elements. -/
theorem pairs_copyArray (hv : h.Valid) (t : TableId) :
    (h.copyArray t).1.pairs (h.copyArray t).2 = h.pairs t := by
  rw [copyArray]
  split
  · rfl
  · rw [pairs, table_newTable, if_pos rfl, Table.pairs, (hv.table_wellFormed t).labelled_detached]
    rfl

/-! ### Writing to elements -/

theorem admits_read (hv : h.Valid) (e : Element) : h.Admits (h.read e) := by
  unfold read slot?
  split
  next v hf => exact hv.admits_value hf
  next c hf => exact hv.admits_cell c
  · exact admits_undefined

theorem quietly_write (hv : h.Valid) (e : Element) {v : Value} (ha : h.Admits v) :
    h.Quietly (h.write e v) := by
  unfold write slot?
  split
  next u hf => exact .of_quiet (.put hf ha)
  next c hf => exact .of_quiet (.setCell (hv.sound_binding hf) ha)
  · exact .refl h

theorem quietly_replace (hv : h.Valid) (e : Element) {v : Value} (ha : h.Admits v) :
    h.Quietly (h.replace e v).1 := by
  unfold replace
  split
  next c hr =>
    split
    · exact quietly_write hv e ha
    · have hc : h.Admits (.reference c) := hr ▸ admits_read hv e
      exact .of_quiet (.setCell (admits_reference_iff.1 hc) ha)
  · exact quietly_write hv e ha

theorem admits_replace (hv : h.Valid) (e : Element) (v : Value) :
    h.Admits (h.replace e v).2 := by
  unfold replace
  split
  next c hr =>
    split
    · exact hr ▸ admits_read hv e
    · exact hv.admits_cell c
  · exact admits_read hv e

/-- Whether writing to a table can change nothing but that table: it is there, or its name is the
one that stands for a missing table and was never given out. -/
def Writable (h : Heap) (t : TableId) : Prop := h.Knows t ∨ t.index = h.tables.fresh

theorem Knows.writable {t : TableId} (ht : h.Knows t) : h.Writable t := .inl ht

theorem setTable_of_index_eq_fresh {t : TableId} (ht : t.index = h.tables.fresh) (T : Table) :
    h.setTable t T = h := by
  have hset : h.tables.set t.index T = h.tables := by
    rw [ht, Store.set, Store.fresh, Array.setIfInBounds_eq_of_size_le (Nat.le_refl _)]
  rw [setTable, hset]

/-- Adding a key to a table. -/
theorem quietly_insertNew {t : TableId} {l : Label} {v : Value} (ht : h.Writable t)
    (hf : (h.table t).find? l.key = none) (hl : l.key.IsNormal) (ha : h.Admits v) :
    h.Quietly (h.setTable t ((h.table t).insertNew l (.value v))) := by
  rcases ht with ht | ht
  · exact .of_quiet (.add ht hf hl ha)
  · rw [setTable_of_index_eq_fresh ht]
    exact .refl h

theorem quietly_materialize (hv : h.Valid) {t : TableId} (ht : h.Writable t) {l : Label}
    (hl : l.key.IsNormal) : h.Quietly (h.materialize t l) := by
  unfold materialize
  split
  next hf => exact quietly_insertNew ht hf hl admits_null
  · split
    · exact quietly_write hv _ admits_null
    · exact .refl h

theorem quietly_store (hv : h.Valid) {t : TableId} (ht : h.Writable t) {l : Label}
    (hl : l.key.IsNormal) {v : Value} (ha : h.Admits v) : h.Quietly (h.store t l v).1 := by
  unfold store
  split
  next hf => exact quietly_insertNew ht hf hl ha
  · have hq := quietly_materialize hv ht hl
    exact hq.trans (quietly_replace (hq.valid hv) _ (hq.admits ha))

/-- What an assignment to a key overwrote is still there afterwards. -/
theorem admits_store (hv : h.Valid) {t : TableId} {l : Label} (hl : l.key.IsNormal)
    {v old : Value} (ha : h.Admits v) (ho : (h.store t l v).2 = some old) :
    (h.store t l v).1.Admits old := by
  unfold store at ho ⊢
  split at ho
  · cases ho
  next s hf =>
    dsimp only at ho
    split at ho
    · cases ho
    · have hq := quietly_materialize hv (knows_of_find? hf).writable hl
      rw [← Option.some.inj ho]
      exact (quietly_replace (hq.valid hv) _ (hq.admits ha)).admits
        (admits_replace (hq.valid hv) _ v)

theorem quietly_storeAll {t : TableId} {pairs : List (Label × Value)} (hv : h.Valid)
    (ht : h.Knows t) (ha : ∀ p ∈ pairs, h.Admits p.2) : h.Quietly (h.storeAll t pairs) := by
  induction pairs generalizing h with
  | nil => exact .refl h
  | cons p rest ih =>
    have hq := quietly_store hv ht.writable p.1.normalize_isNormal (ha p List.mem_cons_self)
    refine hq.trans (ih (hq.valid hv) (hq.knows ht) fun q hmem ↦ ?_)
    exact hq.admits (ha q (List.mem_cons_of_mem _ hmem))

/-- What a slot shows is admitted if what it mentions is sound. -/
theorem admits_of_load (hv : h.Valid) {s : Slot} {v : Value}
    (hs : ∀ x, s.handle? = some x → h.Sound x) (hl : s.load h.cell = some v) : h.Admits v := by
  cases s with
  | value u =>
    have hu : h.Admits u := hs
    exact Option.some.inj hl ▸ hu.shown
  | binding c =>
    rw [Slot.load] at hl
    split at hl
    · cases hl
    · exact Option.some.inj hl ▸ hv.admits_cell c

theorem sound_of_slot (hv : h.Valid) {t : TableId} {k : Key} {s : Slot}
    (hf : (h.table t).find? k = some s) {x : Handle} (hx : s.handle? = some x) : h.Sound x :=
  hv.sound_of_mem_table (Table.mem_handles_of_find? hf hx)

theorem admits_get? (hv : h.Valid) {t : TableId} {k : Key} {v : Value} (hg : h.get? t k = some v) :
    h.Admits v := by
  obtain ⟨s, hs, hl⟩ := Option.bind_eq_some_iff.1 hg
  have hf := (Option.filter_eq_some_iff.1 hs).1
  exact admits_of_load hv (fun x ↦ sound_of_slot hv hf) hl

theorem sound_of_mem_entries (hv : h.Valid) {t : TableId} {e : Entry}
    (he : e ∈ (h.table t).entries) {x : Handle} (hx : e.slot.handle? = some x) : h.Sound x :=
  sound_of_slot hv (Table.find?_of_mem (hv.table_wellFormed t).keys_nodup he) hx

theorem admits_of_mem_labelled (hv : h.Valid) {t : TableId} {p : Label × Value}
    (hp : p ∈ (h.table t).labelled h.cell) : h.Admits p.2 := by
  obtain ⟨e, he, hload⟩ := List.mem_filterMap.1 hp
  obtain ⟨v, hl, rfl⟩ := Option.map_eq_some_iff.1 hload
  exact admits_of_load hv (fun x ↦ sound_of_mem_entries hv he) hl

theorem quietly_snapshot (hv : h.Valid) (t : TableId) : h.Quietly (h.snapshot t).1 := by
  have hq := quietly_newTable_empty h
  refine hq.trans (quietly_storeAll (hq.valid hv) (sound_newTable rfl).knows fun p hp ↦ ?_)
  exact hq.admits (admits_of_mem_labelled hv hp)

theorem sound_snapshot (hv : h.Valid) (t : TableId) :
    (h.snapshot t).1.Sound (.table (h.snapshot t).2) := by
  have hq := quietly_newTable_empty h
  refine (quietly_storeAll (hq.valid hv) (sound_newTable rfl).knows fun p hp ↦ ?_).sound
    (sound_newTable rfl)
  exact hq.admits (admits_of_mem_labelled hv hp)

/-! ### Binding -/

/-- What binding a key to a cell leaves in place of the table. -/
theorem exists_table_of_bind (hv : h.Valid) (t : TableId) {l : Label} (hl : l.key.IsNormal)
    (c : CellId) : ∃ T : Table, h.bind t l c = h.setTable t T ∧ T.WellFormed ∧
      ∀ {x}, x ∈ T.handles → x ∈ (h.table t).handles ∨ (∃ s, x = .text s) ∨ x = .cell c := by
  have hwf := hv.table_wellFormed t
  rw [bind]
  dsimp only
  split
  next hf =>
    refine ⟨_, rfl, hwf.insertNew hf hl _, fun hx ↦ ?_⟩
    rcases Table.mem_handles_insertNew hx with hx | hx | hx
    · exact .inl hx
    · exact .inr (.inl hx)
    · exact .inr (.inr (Option.some.inj hx).symm)
  next s hf =>
    refine ⟨_, rfl, hwf.put_binding hf c, fun hx ↦ ?_⟩
    rcases Table.mem_handles_put (t := h.table t) hx with hx | hx
    · exact .inl hx
    · exact .inr (.inr (Option.some.inj hx).symm)

/-- A key that was bound is found bound, and every other key is found as before. -/
theorem find?_bind {t : TableId} (ht : h.Knows t) (l : Label) (c : CellId) (k : Key) :
    ((h.bind t l c).table t).find? k =
      if k = l.key then some (.binding c) else (h.table t).find? k := by
  have hlt := Store.lt_fresh_of_get? ht.get?
  rw [bind]
  dsimp only
  split
  next hf => rw [table_setTable_self hlt, Table.find?_insertNew hf]
  next s hf =>
    rw [table_setTable_self hlt]
    show ((h.table t).put l.key (.binding c)).find? k = _
    rw [Table.find?_put, hf]
    rfl

/-- The keys stay where they are, and a new one comes after them. -/
theorem storedKeys_bind {t : TableId} (ht : h.Knows t) (l : Label) (c : CellId) :
    (h.table t).storedKeys <+: ((h.bind t l c).table t).storedKeys := by
  have hlt := Store.lt_fresh_of_get? ht.get?
  rw [bind]
  dsimp only
  split
  · rw [table_setTable_self hlt, Table.storedKeys_insertNew]
    exact List.prefix_append _ _
  · rw [table_setTable_self hlt]
    show _ <+: ((h.table t).put l.key (.binding c)).storedKeys
    exact Table.storedKeys_put _ l.key _ ▸ List.prefix_rfl

theorem table_bind_ne (h : Heap) {t u : TableId} (hu : u ≠ t) (l : Label) (c : CellId) :
    (h.bind t l c).table u = h.table u := by
  rw [bind]
  dsimp only
  split <;> exact table_setTable_ne _ hu _

/-! ### Following references -/

/-- The value at the end of a chain of references is admitted if its start is. -/
theorem admits_of_chase (hv : h.Valid) {limit : Nat} {v u : Value} (ha : h.Admits v)
    (hc : h.chase limit v = some u) : h.Admits u := by
  induction limit generalizing v with
  | zero =>
    cases v with
    | reference c => cases hc
    | _ => exact Option.some.inj hc ▸ ha
  | succ limit ih =>
    cases v with
    | reference c => exact ih (hv.admits_cell c) hc
    | _ => exact Option.some.inj hc ▸ ha

theorem admits_of_dereference (hv : h.Valid) {limit : Nat} {v u : Value} (ha : h.Admits v)
    (hd : h.dereference limit v = .ok u) : h.Admits u := by
  unfold dereference at hd
  split at hd
  next w hc =>
    rw [← Except.ok.inj hd]
    exact admits_of_chase hv ha hc
  · cases hd

/-- Whatever is given as a key, what comes out is normal. -/
theorem isNormal_of_keyOfValue {v : Value} {l : Label} (hk : h.keyOfValue v = .ok l) :
    l.key.IsNormal := by
  cases v with
  | array _ | object _ | reference _ => cases hk
  | string s =>
    obtain rfl := Except.ok.inj hk
    exact Label.normalize_isNormal _
  | null | undefined =>
    obtain rfl := Except.ok.inj hk
    exact (by decide : Decimal.int64? [] = none)
  | _ =>
    obtain rfl := Except.ok.inj hk
    trivial

theorem isNormal_of_label? {k : KeySource} {limit : Nat} {l : Label}
    (hk : k.label? h limit = .ok l) : l.key.IsNormal := by
  cases k with
  | label l' =>
    rw [← Except.ok.inj hk]
    exact Label.normalize_isNormal l'
  | value v =>
    obtain ⟨u, -, hk⟩ := Except.bind_eq_ok_iff.1 hk
    exact isNormal_of_keyOfValue hk

theorem quietly_toArray (hv : h.Valid) {v : Value} (ha : h.Admits v) :
    h.Quietly (h.toArray v).1 := by
  unfold toArray
  split
  · exact .refl h
  · exact quietly_newTable_empty h
  · exact quietly_newTable_empty h
  · exact .refl h
  · exact quietly_copyArray hv _
  next u _ _ _ _ hd =>
    refine quietly_newList (by simp) fun w hw ↦ ?_
    rw [List.mem_singleton.1 hw]
    exact admits_of_dereference hv ha hd

theorem sound_toArray (hv : h.Valid) {v : Value} {t : TableId} (ha : h.Admits v)
    (ht : (h.toArray v).2 = .ok t) : (h.toArray v).1.Sound (.table t) := by
  unfold toArray at ht ⊢
  split at ht
  · cases ht
  · rw [← Except.ok.inj ht]
    exact sound_newTable rfl
  · rw [← Except.ok.inj ht]
    exact sound_newTable rfl
  next s hd =>
    rw [← Except.ok.inj ht]
    exact admits_array_iff.1 (admits_of_dereference hv ha hd)
  next o hd =>
    rw [← Except.ok.inj ht]
    have ho := admits_object_iff.1 (admits_of_dereference hv ha hd)
    exact sound_copyArray (hv.sound_properties ho).knows
  · rw [← Except.ok.inj ht]
    exact sound_newTable (bindings_ofList _)

/-! ### Decoding -/

theorem quietly_newText (h : Heap) (b : Bytes) : h.Quietly (h.newText b).1 :=
  quietly_newStr h b

theorem quietly_appendTo {t : TableId} {v : Value} {h' : Heap} (ht : h.Knows t)
    (ha : h.Admits v) (happ : h.appendTo t v = .ok h') : h.Quietly h' := by
  unfold appendTo at happ
  dsimp only at happ
  split at happ
  · cases happ
  next n hn =>
    split at happ
    · cases happ
    next hs =>
      rw [← Except.ok.inj happ]
      have hf : (h.table t).stores (.int n) = false := by simpa using hs
      exact quietly_insertNew ht.writable (Table.find?_eq_none_iff.2 hf) trivial ha

theorem quietly_storeText (hv : h.Valid) {t : TableId} (ht : h.Knows t) (key : String)
    {v : Value} (ha : h.Admits v) : h.Quietly (h.storeText t key v) := by
  have hq := quietly_newStr h (Bytes.ofText key)
  exact hq.trans (quietly_store (hq.valid hv) (hq.knows ht).writable (Label.normalize_isNormal _)
    (hq.admits ha))

/-- What is shown of a decoding: the changes are quiet, and the value that comes out is admitted. -/
private def Decodes (h : Heap) (r : Heap × Except DecodeError Value) : Prop :=
  h.Quietly r.1 ∧ ∀ v, r.2 = .ok v → r.1.Admits v

private theorem decodes_scalar {h : Heap} {v : Value} (hv : v.handle? = none) :
    Decodes h (h, .ok v) := by
  refine ⟨.refl h, fun u hu ↦ ?_⟩
  rw [← Except.ok.inj hu]
  exact admits_of_handle?_eq_none hv

private theorem decodes_error (h : Heap) (e : DecodeError) : Decodes h (h, .error e) :=
  ⟨.refl h, fun _ hu ↦ nomatch hu⟩

private theorem decodes_text (h : Heap) (b : Bytes) :
    Decodes h ((h.newText b).1, .ok (h.newText b).2) := by
  refine ⟨quietly_newText h b, fun u hu ↦ ?_⟩
  rw [← Except.ok.inj hu]
  exact admits_string _

/-- A sequence is decoded into a table that is made for it. -/
theorem decode_sequence (h : Heap) (items : List Event) :
    h.decode (.sequence items) =
      (((h.newTable Table.empty).1.decodeItems (h.newTable Table.empty).2 items).1,
        ((h.newTable Table.empty).1.decodeItems (h.newTable Table.empty).2 items).2.map
          fun _ ↦ .array (h.newTable Table.empty).2) := by
  rw [decode]
  dsimp only
  split <;> next heq =>
    rw [heq]
    rfl

/-- A map is decoded into a table that is made for it. -/
theorem decode_map (h : Heap) (pairs : List (Event × Event)) :
    h.decode (.map pairs) =
      (((h.newTable Table.empty).1.decodePairs (h.newTable Table.empty).2 pairs).1,
        ((h.newTable Table.empty).1.decodePairs (h.newTable Table.empty).2 pairs).2.map
          fun _ ↦ .array (h.newTable Table.empty).2) := by
  rw [decode]
  dsimp only
  split <;> next heq =>
    rw [heq]
    rfl

/-- The array in a table that was made and filled. -/
private theorem decodes_array {h : Heap} {r : Heap × Except DecodeError Unit}
    (hr : (h.newTable Table.empty).1.Quietly r.1) :
    Decodes h (r.1, r.2.map fun _ ↦ .array (h.newTable Table.empty).2) := by
  refine ⟨(quietly_newTable_empty h).trans hr, fun v hok ↦ ?_⟩
  obtain ⟨-, -, rfl⟩ := Except.map_eq_ok_iff.1 hok
  exact admits_array_iff.2 (hr.sound (sound_newTable rfl))

mutual

private theorem decodes_decode {h : Heap} (hv : h.Valid) :
    (e : Event) → Decodes h (h.decode e)
  | .unit => by rw [decode]; exact decodes_scalar rfl
  | .absent => by rw [decode]; exact decodes_scalar rfl
  | .present e => by rw [decode]; exact decodes_decode hv e
  | .bool b => by rw [decode]; exact decodes_scalar rfl
  | .int n => by rw [decode]; exact decodes_scalar rfl
  | .natural n => by
    rw [decode]
    split <;> exact decodes_scalar rfl
  | .double d => by rw [decode]; exact decodes_scalar rfl
  | .char c => by rw [decode]; exact decodes_text h _
  | .text s => by rw [decode]; exact decodes_text h _
  | .bytes b => by rw [decode]; exact decodes_text h b
  | .sequence items => by
    have hv' := (quietly_newTable_empty h).valid hv
    rw [decode_sequence]
    exact decodes_array (quietly_decodeItems hv' (sound_newTable rfl).knows items)
  | .map pairs => by
    have hv' := (quietly_newTable_empty h).valid hv
    rw [decode_map]
    exact decodes_array (quietly_decodePairs hv' (sound_newTable rfl).knows pairs)
  | .wrapper e => by rw [decode]; exact decodes_error h _
  | .variant => by rw [decode]; exact decodes_error h _
  | .wideInt n => by rw [decode]; exact decodes_error h _
  | .wideNatural n => by rw [decode]; exact decodes_error h _

theorem quietly_decodeItems {h : Heap} (hv : h.Valid) {t : TableId} (ht : h.Knows t) :
    (items : List Event) → h.Quietly (h.decodeItems t items).1
  | [] => by rw [decodeItems]; exact .refl h
  | e :: rest => by
    obtain ⟨hq, ha⟩ := decodes_decode hv e
    rw [decodeItems]
    split
    next h' e heq =>
      rw [heq] at hq
      exact hq
    next h' v heq =>
      rw [heq] at hq ha
      split
      · exact hq
      next h'' happ =>
        have hq' := quietly_appendTo (hq.knows ht) (ha v rfl) happ
        have hqq := hq.trans hq'
        exact hqq.trans (quietly_decodeItems (hqq.valid hv) (hqq.knows ht) rest)

theorem quietly_decodePairs {h : Heap} (hv : h.Valid) {t : TableId} (ht : h.Knows t) :
    (pairs : List (Event × Event)) → h.Quietly (h.decodePairs t pairs).1
  | [] => by rw [decodePairs]; exact .refl h
  | (k, e) :: rest => by
    obtain ⟨hq, ha⟩ := decodes_decode hv e
    rw [decodePairs]
    split
    · exact .refl h
    next key _ =>
      split
      next h' e heq =>
        rw [heq] at hq
        exact hq
      next h' v heq =>
        rw [heq] at hq ha
        have hq' := quietly_storeText (hq.valid hv) (hq.knows ht) key (ha v rfl)
        have hqq := hq.trans hq'
        exact hqq.trans (quietly_decodePairs (hqq.valid hv) (hqq.knows ht) rest)

end

theorem quietly_decode (hv : h.Valid) (e : Event) : h.Quietly (h.decode e).1 :=
  (decodes_decode hv e).1

theorem admits_decode (hv : h.Valid) {e : Event} {v : Value} (hd : (h.decode e).2 = .ok v) :
    (h.decode e).1.Admits v :=
  (decodes_decode hv e).2 v hd

end Heap

end SharedValue
