import SharedValue.Proofs.Acyclic.Clear
import SharedValue.Proofs.RoundTrip.Meaning
import SharedValue.Proofs.Workspace.Target
import SharedValue.Proofs.Workspace.Writing

/-!
# Arrays that stand while others are written

An array stands as long as the place it is in names the same table, and that table and the tables
inside it have the same slots. What may change it is writing at that place, or at an element of one
of these tables; every other place is *apart* from it (`Workspace.Apart`).

Writing starts by separating its place. A table that is shared then is left to its other holders,
and a table that is not shared has no holder but the place, so it is not inside an array that the
place is apart from (`Standing.separate`). Whatever is written afterwards goes to the table that the
place alone holds, and an element that was opened there is apart as well. So operation by operation,
and statement by statement, an array stands that nobody writes to under its own name.

* `Heap.Leaves` of `write`, `replace`, `materialize`, `store`, `bind` and the like: the one table
  that they change;
* `Standing.separate`, and with it the operations on the array at a place that is apart;
* `Standing.carryOut`: a command that does not change the array in a register leaves it standing.
-/

namespace SharedValue

/-! ### The table that is written to -/

namespace Heap

variable {h h' h'' : Heap} {t : TableId} {ts : Set TableId}

theorem leaves_setCell (h : Heap) (c : CellId) (v : Value) (ts : Set TableId) :
    h.Leaves ts (h.setCell c v) :=
  ⟨Nat.le_refl _, fun _ _ ↦ rfl⟩

theorem leaves_setCells (h : Heap) (writes : List (CellId × Value)) :
    h.Leaves ∅ (writes.foldl (fun h p ↦ h.setCell p.1 p.2) h) := by
  induction writes generalizing h with
  | nil => exact .refl h _
  | cons p rest ih => exact (h.leaves_setCell p.1 p.2 _).trans (ih _)

theorem leaves_newCell (h : Heap) (v : Value) (ts : Set TableId) : h.Leaves ts (h.newCell v).1 :=
  ⟨Nat.le_refl _, fun _ _ ↦ rfl⟩

theorem leaves_newObject (h : Heap) (className : Str) (t : TableId) (ts : Set TableId) :
    h.Leaves ts (h.newObject className t).1 :=
  ⟨Nat.le_refl _, fun _ _ ↦ rfl⟩

theorem leaves_newResource (h : Heap) (handle : Int64) (kind : Str) (ts : Set TableId) :
    h.Leaves ts (h.newResource handle kind).1 :=
  ⟨Nat.le_refl _, fun _ _ ↦ rfl⟩

theorem leaves_setProperties (h : Heap) (o : ObjectId) (t : TableId) (ts : Set TableId) :
    h.Leaves ts (h.setProperties o t) := by
  rw [setProperties]
  split <;> exact ⟨Nat.le_refl _, fun _ _ ↦ rfl⟩

theorem leaves_write (h : Heap) (e : Element) (v : Value) : h.Leaves {e.table} (h.write e v) := by
  rw [write]
  split
  · exact h.leaves_setTable _ _
  · exact h.leaves_setCell _ v _
  · exact .refl h _

theorem leaves_replace (h : Heap) (e : Element) (v : Value) :
    h.Leaves {e.table} (h.replace e v).1 := by
  rw [replace]
  split
  · split
    · exact h.leaves_write e v
    · exact h.leaves_setCell _ v _
  · exact h.leaves_write e v

theorem leaves_materialize (h : Heap) (t : TableId) (l : Label) :
    h.Leaves {t} (h.materialize t l) := by
  rw [materialize]
  split
  · exact h.leaves_setTable t _
  · split
    · exact h.leaves_write ⟨t, l.key⟩ .null
    · exact .refl h _

theorem leaves_store (h : Heap) (t : TableId) (l : Label) (v : Value) :
    h.Leaves {t} (h.store t l v).1 := by
  rw [store]
  split
  · exact h.leaves_setTable t _
  · exact (h.leaves_materialize t l).trans (leaves_replace _ ⟨t, l.key⟩ v)

theorem leaves_storeAll (h : Heap) (t : TableId) (elements : List (Label × Value)) :
    h.Leaves {t} (h.storeAll t elements) := by
  induction elements generalizing h with
  | nil => exact .refl h _
  | cons p rest ih => exact (h.leaves_store t p.1.normalize p.2).trans (ih _)

theorem leaves_bind (h : Heap) (t : TableId) (l : Label) (c : CellId) :
    h.Leaves {t} (h.bind t l c) := by
  rw [bind]
  dsimp only
  split
  · exact h.leaves_setTable t _
  · exact h.leaves_setTable t _

/-! ### New arrays -/

theorem leaves_copyArray (h : Heap) (t : TableId) : h.Leaves ∅ (h.copyArray t).1 := by
  rw [copyArray]
  split
  · exact .refl h _
  · exact h.leaves_newTable _

theorem leaves_snapshot (h : Heap) (t : TableId) : h.Leaves ∅ (h.snapshot t).1 :=
  .of_newTable (leaves_storeAll _ _ _)

theorem leaves_toArray (h : Heap) (v : Value) : h.Leaves ∅ (h.toArray v).1 := by
  rw [toArray]
  split
  · exact .refl h _
  · exact h.leaves_newTable _
  · exact h.leaves_newTable _
  · exact .refl h _
  · exact h.leaves_copyArray _
  · exact h.leaves_newTable _

end Heap

namespace Workspace

/-! ### Standing -/

/-- A place of a program: a register or a table of variables. -/
inductive Named
  | register (name : String)
  | symbols (name : String)

/-- The place as such. -/
def Named.place : Named → Place
  | .register name => .register name
  | .symbols name => .symbols name

variable {w w' w'' : Workspace} {q : Named} {t u x : TableId} {p : Place} {e : Element}

/-- Whether an array is in a place of a program, with every table inside it in use. -/
structure Standing (w : Workspace) (q : Named) (t : TableId) : Prop where
  value : w.valueAt q.place = .array t
  lt_fresh : ∀ {x}, w.heap.Below t x → x.index < w.heap.tables.fresh

/-- Whether an array is the same in another workspace: the place names the same table, and that
table and the tables inside it are as they were. -/
structure Stands (w : Workspace) (q : Named) (t : TableId) (w' : Workspace) : Prop where
  value : w'.valueAt q.place = w.valueAt q.place
  fresh : w.heap.tables.fresh ≤ w'.heap.tables.fresh
  table : ∀ {x}, w.heap.Below t x → w'.heap.table x = w.heap.table x

/-- Whether writing at a place leaves an array alone: the place is another one, and no element of a
table inside the array. -/
structure Apart (w : Workspace) (q : Named) (t : TableId) (p : Place) : Prop where
  ne : p ≠ q.place
  not_below : ∀ {e}, p = .element e → ¬ w.heap.Below t e.table

theorem Stands.refl (w : Workspace) (q : Named) (t : TableId) : w.Stands q t w :=
  ⟨rfl, Nat.le_refl _, fun _ ↦ rfl⟩

/-- Tables that are as they were have the same tables inside. -/
theorem Stands.below_iff (hs : w.Stands q t w') : w'.heap.Below t x ↔ w.heap.Below t x := by
  constructor <;> intro hb
  · induction hb with
    | refl => exact .refl
    | tail _ hc ih =>
      obtain ⟨k, hk⟩ := hc
      rw [hs.table ih] at hk
      exact ih.tail ⟨k, hk⟩
  · induction hb with
    | refl => exact .refl
    | tail hb hc ih =>
      obtain ⟨k, hk⟩ := hc
      rw [← hs.table hb] at hk
      exact ih.tail ⟨k, hk⟩

theorem Stands.trans (hs : w.Stands q t w') (hs' : w'.Stands q t w'') : w.Stands q t w'' where
  value := hs'.value.trans hs.value
  fresh := Nat.le_trans hs.fresh hs'.fresh
  table := fun hb ↦ (hs'.table (hs.below_iff.2 hb)).trans (hs.table hb)

theorem Stands.standing (hs : w.Stands q t w') (hst : w.Standing q t) : w'.Standing q t where
  value := hs.value.trans hst.value
  lt_fresh := fun hb ↦ Nat.lt_of_lt_of_le (hst.lt_fresh (hs.below_iff.1 hb)) hs.fresh

theorem Stands.apart (hs : w.Stands q t w') (ha : w.Apart q t p) : w'.Apart q t p where
  ne := ha.ne
  not_below := fun he hb ↦ ha.not_below he (hs.below_iff.1 hb)

theorem apart_element (he : ¬ w.heap.Below t e.table) : w.Apart q t (.element e) where
  ne := by cases q <;> exact fun h ↦ nomatch h
  not_below := fun h ↦ Place.element.inj h ▸ he

/-- In a valid workspace every array stands. -/
theorem Valid.standing (hv : w.Valid) (hval : w.valueAt q.place = .array t) : w.Standing q t where
  value := hval
  lt_fresh := fun {x} hb ↦ by
    refine Store.lt_fresh_of_get? (hv.knows_of_below ?_ hb).get?
    cases q with
    | register name =>
      exact hv.knows_of_holds (p := .register name) (mem_registers hval fun h ↦ nomatch h)
    | symbols name =>
      rw [Named.place, valueAt] at hval
      split at hval
      next s hs => exact Value.array.inj hval ▸ hv.knows_of_get? hs
      · cases hval

/-- A change of the heap alone, in tables that are not inside the array. -/
theorem Standing.of_leaves (hst : w.Standing q t) {h : Heap} {ts : Set TableId}
    (hl : w.heap.Leaves ts h) (hts : ∀ u ∈ ts, ¬ w.heap.Below t u) :
    w.Stands q t { w with heap := h } where
  value := by cases q <;> rfl
  fresh := hl.fresh
  table := fun hb ↦ hl.table (hst.lt_fresh hb) fun hmem ↦ hts _ hmem hb

/-- New things. -/
theorem Standing.of_leaves_empty (hst : w.Standing q t) {h : Heap} (hl : w.heap.Leaves ∅ h) :
    w.Stands q t { w with heap := h } :=
  hst.of_leaves hl fun _ hmem ↦ hmem.elim

/-- One table that is written to. -/
theorem Standing.of_leaves_singleton (hst : w.Standing q t) {h : Heap}
    (hl : w.heap.Leaves {u} h) (hu : ¬ w.heap.Below t u) : w.Stands q t { w with heap := h } :=
  hst.of_leaves hl fun v hmem ↦ by
    obtain rfl : v = u := hmem
    exact hu

theorem stands_hold (w : Workspace) (q : Named) (t : TableId) (vs : List Value) :
    w.Stands q t (w.hold vs) :=
  ⟨by cases q <;> rfl, Nat.le_refl _, fun _ ↦ rfl⟩

theorem stands_withBuffers (w : Workspace) (q : Named) (t : TableId) (n : Nat) :
    w.Stands q t (w.withBuffers n) :=
  ⟨by cases q <;> rfl, Nat.le_refl _, fun _ ↦ rfl⟩

/-! ### Separation -/

/-- Where a table inside an array is held. -/
theorem Standing.exists_holds (hst : w.Standing q t) (hb : w.heap.Below t x) :
    ∃ p, w.Holds x p ∧ ¬ w.Apart q t p := by
  cases hb using Relation.ReflTransGen.casesOn with
  | refl =>
    refine ⟨q.place, ?_, fun ha ↦ ha.ne rfl⟩
    have hval := hst.value
    cases q with
    | register name => exact mem_registers hval fun h ↦ nomatch h
    | symbols name =>
      rw [Named.place, valueAt] at hval
      split at hval
      next s hs => exact ⟨s, Registry.mem_of_get? hs, Value.array.inj hval⟩
      · cases hval
  | @tail y _ hb hc =>
    obtain ⟨k, hk⟩ := hc
    exact ⟨.element ⟨y, k⟩, hk, fun ha ↦ ha.not_below rfl hb⟩

theorem apart_content (w : Workspace) (q : Named) (t : TableId) (c : CellId) :
    w.Apart q t (.content c) where
  ne := by cases q <;> exact fun h ↦ nomatch h
  not_below := fun h ↦ nomatch h

/-- The seat of a place that is apart is apart. -/
theorem Apart.seat (ha : w.Apart q t p) : w.Apart q t (w.seat p) := by
  cases p with
  | element e =>
    rw [Workspace.seat]
    split
    · exact w.apart_content q t _
    · exact ha
  | _ => exact ha

/-- The table of a place that is apart is not inside the array, unless it is shared. -/
theorem Standing.not_below_tableAt (hst : w.Standing q t) (ha : w.Apart q t p)
    {operands : List Value} (hs : w.isShared (w.tableAt p) operands = false) :
    ¬ w.heap.Below t (w.tableAt p) := by
  intro hb
  by_cases hval : ∃ x, w.valueAt p = .array x
  · obtain ⟨x, hval⟩ := hval
    rw [tableAt_of_valueAt hval] at hb hs
    obtain ⟨p', hp', hna⟩ := hst.exists_holds hb
    -- the place is not shared, so it would be where the table is held
    obtain rfl := (sole_of_not_isShared (holds_seat hval (hst.lt_fresh hb)) hs).eq_of_holds hp'
    exact hna ha.seat
  · rw [tableAt_eq_fresh fun x hx ↦ hval ⟨x, hx⟩] at hb
    exact Nat.lt_irrefl _ (hst.lt_fresh hb)

/-- Putting an array at a place that is apart. -/
theorem Standing.putAt (hst : w.Standing q t) (ha : w.Apart q t p) (n : TableId) :
    w.Stands q t (w.putAt p (.array n)) := by
  cases p with
  | register name =>
    refine ⟨?_, Nat.le_refl _, fun _ ↦ rfl⟩
    cases q with
    | register m =>
      show ((w.registers.set name _).get? m).getD _ = _
      rw [Registry.get?_set, if_neg fun he ↦ ha.ne (congrArg Place.register he.symm)]
      rfl
    | symbols m => rfl
  | symbols name =>
    rw [Workspace.putAt]
    split
    next s hs =>
      refine ⟨?_, Nat.le_refl _, fun _ ↦ rfl⟩
      cases q with
      | register m => rfl
      | symbols m =>
        exact valueAt_symbols_congr ((w.symbolTables.get?_set name _ m).trans
          (if_neg fun he ↦ ha.ne (congrArg Place.symbols he.symm)))
    · exact .refl w q t
  | element e => exact hst.of_leaves_singleton (w.heap.leaves_write e _) (ha.not_below rfl)
  | content c => exact hst.of_leaves_empty (w.heap.leaves_setCell c _ _)
  | properties o => exact hst.of_leaves_empty (w.heap.leaves_setProperties o n _)

/-- **Separating a place that is apart** leaves the array alone, and gives a table that is not
inside it. -/
theorem Standing.separate (hst : w.Standing q t) (ha : w.Apart q t p) (operands : List Value) :
    w.Stands q t (w.separate p operands).1 ∧
      ¬ (w.separate p operands).1.heap.Below t (w.separate p operands).2 := by
  cases hs : w.isShared (w.tableAt p) operands with
  | false =>
    rw [separate_of_not_isShared hs]
    exact ⟨.refl w q t, hst.not_below_tableAt ha hs⟩
  | true =>
    rw [separate_of_isShared hs]
    have hcopy : w.Stands q t (w.withCopy (w.tableAt p)) :=
      hst.of_leaves_empty (w.heap.leaves_newTable _)
    have hput := hcopy.trans ((hcopy.standing hst).putAt (hcopy.apart ha) w.copyId)
    refine ⟨hput, fun hb ↦ ?_⟩
    -- the copy is newer than what is inside the array
    exact Nat.lt_irrefl _ (hst.lt_fresh (hput.below_iff.1 hb))

/-! ### Operations on the array at a place -/

/-- A change of a table that is not inside the array, after other changes. -/
theorem Stands.write (hs : w.Stands q t w') (hst : w.Standing q t) {h : Heap}
    (hl : w'.heap.Leaves {u} h) (hu : ¬ w'.heap.Below t u) : w.Stands q t { w' with heap := h } :=
  hs.trans ((hs.standing hst).of_leaves_singleton hl hu)

theorem Standing.openElement (hst : w.Standing q t) (ha : w.Apart q t p) (l : Label)
    (operands : List Value) : w.Stands q t (w.openElement p l operands).1 ∧
      ¬ (w.openElement p l operands).1.heap.Below t (w.openElement p l operands).2.table := by
  obtain ⟨hs, hb⟩ := hst.separate ha operands
  have hall := hs.write hst (Heap.leaves_materialize _ _ l.normalize) hb
  rw [openElement_eq]
  exact ⟨hall, fun h ↦ hb (hs.below_iff.2 (hall.below_iff.1 h))⟩

theorem Standing.storeKey (hst : w.Standing q t) (ha : w.Apart q t p) (l : Label) (v : Value)
    (operands : List Value) : w.Stands q t (w.storeKey p l v operands).1 := by
  obtain ⟨hs, hb⟩ := hst.separate ha operands
  rw [storeKey_eq]
  exact hs.write hst (Heap.leaves_store _ _ _ v) hb

theorem Standing.append (hst : w.Standing q t) (ha : w.Apart q t p) (operands : List Value) :
    w.Stands q t (w.append p operands).1 ∧ ∀ e, (w.append p operands).2 = .ok e →
      ¬ (w.append p operands).1.heap.Below t e.table := by
  rw [Workspace.append]
  dsimp only
  split
  · exact ⟨.refl w q t, fun _ he ↦ by cases he⟩
  · split
    · exact ⟨.refl w q t, fun _ he ↦ by cases he⟩
    next n _ _ =>
      obtain ⟨hs, hb⟩ := hst.separate ha operands
      have hall := hs.write hst (Heap.leaves_setTable _ _
        (((w.separate p operands).1.heap.table (w.separate p operands).2).insertNew (Label.int n)
          (.value .null))) hb
      refine ⟨hall, fun e he h ↦ ?_⟩
      rw [← Except.ok.inj he] at h
      exact hb (hs.below_iff.2 (hall.below_iff.1 h))

theorem Standing.replace (hst : w.Standing q t) (he : ¬ w.heap.Below t e.table) (v : Value) :
    w.Stands q t (w.replace e v).1 :=
  hst.of_leaves_singleton (w.heap.leaves_replace e v) he

theorem Standing.assign (hst : w.Standing q t) (he : ¬ w.heap.Below t e.table) (v : Value) :
    w.Stands q t (w.assign e v) :=
  hst.replace he v

theorem Standing.push (hst : w.Standing q t) (ha : w.Apart q t p) (v : Value) :
    w.Stands q t (w.push p v).1 := by
  obtain ⟨hs, he⟩ := hst.append ha [v]
  rw [Workspace.push]
  split <;> next heq =>
    rw [heq] at hs he
    first
      | exact hs
      | exact hs.trans ((hs.standing hst).assign (he _ rfl) v)

theorem Standing.unsetKey (hst : w.Standing q t) (ha : w.Apart q t p) (k : Key) :
    w.Stands q t (w.unsetKey p k).1 := by
  rw [Workspace.unsetKey]
  split
  · obtain ⟨hs, hb⟩ := hst.separate ha []
    exact hs.write hst (Heap.leaves_setTable _ _ _) hb
  · exact .refl w q t

theorem Standing.clear (hst : w.Standing q t) (ha : w.Apart q t p) : w.Stands q t (w.clear p) := by
  have hs := hst.of_leaves_empty (w.heap.leaves_newTable Table.empty)
  exact hs.trans ((hs.standing hst).putAt (hs.apart ha) _)

theorem Standing.extend (hst : w.Standing q t) (ha : w.Apart q t p) (pairs : List (Label × Value)) :
    w.Stands q t (w.extend p pairs) := by
  induction pairs generalizing w with
  | nil => exact .refl w q t
  | cons pair rest ih =>
    have hs := hst.storeKey ha pair.1 pair.2 (pair.2 :: rest.map (·.2))
    exact hs.trans (ih (hs.standing hst) (hs.apart ha))

end Workspace

end SharedValue
