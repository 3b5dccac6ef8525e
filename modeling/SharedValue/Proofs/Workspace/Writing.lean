import SharedValue.Proofs.Table.Pairs
import SharedValue.Proofs.Workspace.Commands
import SharedValue.Proofs.Workspace.Separation

/-!
# Writing to an anchored table

What the writing operations come to once the place is separated, in terms of the one table that they
change: which table replaces it, and that it stays anchored. An anchored table has no bindings, so
each operation has few cases. Making a key ready for writing adds it with null, or puts null where
nothing was written yet (`Table.ready`). Assigning to an element replaces what it holds, or writes
to the cell if it holds a reference (`replace_reference`, `replace_of_ne_reference`).
-/

namespace SharedValue

/-! ### Writing to a table without bindings -/

namespace Heap

variable {h : Heap} {t : TableId} {l : Label} {k : Key} {v : Value}

/-- What assigning to a key of a table comes to. -/
def assigned (h : Heap) (t : TableId) (l : Label) (v : Value) : Heap :=
  match (h.table t).find? l.key with
  | some (.value (.reference c)) => h.setCell c v
  | _ => h.setTable t ((h.table t).assign l v)

/-- What is overwritten when a key is assigned to. -/
def overwritten? (h : Heap) (t : TableId) (k : Key) : Option Value :=
  match (h.table t).find? k with
  | some (.value (.reference c)) => some (h.cell c)
  | some (.value v) => some v.shown
  | _ => none

/-- Assigning to a key that refers to a cell writes to the cell. -/
theorem assigned_of_reference {c : CellId}
    (hf : (h.table t).find? l.key = some (.value (.reference c))) (v : Value) :
    h.assigned t l v = h.setCell c v := by
  rw [assigned, hf]

/-- Assigning to any other key writes to the table. -/
theorem assigned_of_ne_reference
    (hf : ∀ c, (h.table t).find? l.key ≠ some (.value (.reference c))) (v : Value) :
    h.assigned t l v = h.setTable t ((h.table t).assign l v) := by
  rw [assigned]
  split
  next c hc => exact absurd hc (hf c)
  · rfl

/-- What was there is what the slot showed. -/
theorem overwritten?_of_ne_reference {u : Value} (hf : (h.table t).find? k = some (.value u))
    (hu : ∀ c, u ≠ .reference c) : h.overwritten? t k = some u.shown := by
  rw [overwritten?, hf]
  split
  next c hc => exact absurd (Slot.value.inj (Option.some.inj hc)) (hu c)
  next he => rw [Slot.value.inj (Option.some.inj he)]
  next hne => exact absurd rfl (hne u)

/-- Of two replacements of a table the second counts. -/
theorem setTable_setTable (h : Heap) (t : TableId) (T T' : Table) :
    (h.setTable t T).setTable t T' = h.setTable t T' := by
  rw [setTable, setTable, setTable, Store.set_set]

/-- The slots of a table that a value may mention are not bound. -/
theorem Valid.exists_value (hv : h.Valid) (ht : h.Sound (.table t)) {s : Slot}
    (hf : (h.table t).find? k = some s) : ∃ v, s = .value v :=
  (hv.table_wellFormed t).find?_of_bindings_eq_zero ht.bindings_eq_zero hf

/-- A key made ready for writing. -/
theorem Valid.materialize_eq (hv : h.Valid) (ht : h.Sound (.table t)) (l : Label) :
    h.materialize t l = h.setTable t ((h.table t).ready l) := by
  rw [materialize, Table.ready]
  cases hf : (h.table t).find? l.key with
  | none => rfl
  | some s =>
    obtain ⟨v, rfl⟩ := hv.exists_value ht hf
    have hread : h.read ⟨t, l.key⟩ = v := by rw [read, slot?, hf]
    dsimp only
    rw [hread]
    by_cases hu : v = .undefined
    · rw [if_pos hu, hu, write, slot?, hf]
    · rw [if_neg hu]
      split
      next hs => cases hs
      next hs => exact absurd (Slot.value.inj (Option.some.inj hs)) hu
      next => rw [setTable_self ht.knows]

/-- Assigning to an element that holds a reference writes to the cell. -/
theorem replace_reference {c : CellId} (hf : (h.table t).find? k = some (.value (.reference c)))
    (v : Value) : h.replace ⟨t, k⟩ v = (h.setCell c v, h.cell c) := by
  rw [replace, read, binding?, slot?, hf]
  rfl

/-- Assigning to any other element that is not bound replaces what it holds. -/
theorem replace_of_ne_reference {old : Value} (hf : (h.table t).find? k = some (.value old))
    (hold : ∀ c, old ≠ .reference c) (v : Value) :
    h.replace ⟨t, k⟩ v = (h.setTable t ((h.table t).put k (.value v)), old) := by
  rw [replace, read, write, slot?, hf]
  dsimp only
  split
  next c => exact absurd rfl (hold c)
  · rfl

private theorem replace_setTable_ready (ht : h.Knows t) {old : Value}
    (hf : ((h.table t).ready l).find? l.key = some (.value old)) (hold : ∀ c, old ≠ .reference c)
    (v : Value) : (h.setTable t ((h.table t).ready l)).replace ⟨t, l.key⟩ v =
      (h.setTable t ((h.table t).assign l v), old) := by
  have htable : (h.setTable t ((h.table t).ready l)).table t = (h.table t).ready l :=
    table_setTable_self (Store.lt_fresh_of_get? ht.get?) _
  rw [← htable] at hf
  rw [replace_of_ne_reference hf hold, htable, Table.put_ready, setTable_setTable]

/-- A key made ready and assigned to. -/
theorem Valid.replace_materialize (hv : h.Valid) (ht : h.Sound (.table t)) (l : Label) (v : Value) :
    (h.materialize t l).replace ⟨t, l.key⟩ v =
      (h.assigned t l v, (h.overwritten? t l.key).getD .null) := by
  have hready := (h.table t).find?_ready l
  rw [hv.materialize_eq ht, assigned, overwritten?]
  cases hf : (h.table t).find? l.key with
  | none =>
    rw [hf] at hready
    exact replace_setTable_ready ht.knows hready (fun _ he ↦ by cases he) v
  | some s =>
    obtain ⟨u, rfl⟩ := hv.exists_value ht hf
    rw [hf] at hready
    cases u with
    | reference c =>
      have hsame : (h.table t).ready l = h.table t := by rw [Table.ready, hf]
      rw [hsame, setTable_self ht.knows]
      exact replace_reference hf v
    | _ => exact replace_setTable_ready ht.knows hready (fun _ he ↦ by cases he) v

/-- Storing under a key, which adds an absent one at once. -/
theorem Valid.store_eq (hv : h.Valid) (ht : h.Sound (.table t)) (l : Label) (v : Value) :
    h.store t l v = (h.assigned t l v, h.overwritten? t l.key) := by
  have hreplace := hv.replace_materialize ht l v
  rw [store]
  cases hf : (h.table t).find? l.key with
  | none =>
    rw [assigned, overwritten?, Table.assign, hf]
  | some s =>
    obtain ⟨u, rfl⟩ := hv.exists_value ht hf
    dsimp only
    rw [hreplace, overwritten?, hf]
    cases u <;> rfl

end Heap

namespace Workspace

variable {w w' : Workspace} {base p q : Place} {path path' : List Key} {t u x : TableId}
  {k : Key} {v : Value}

/-! ### Anchored tables -/

/-- Assigning to a key of an anchored table, or to a cell that it refers to and that is not the
base. -/
theorem Anchored.assigned (ha : w.Anchored base path t) (hv : w.Valid) {l : Label}
    (hw : ¬ w.heap.Within t v) (hbase : ∀ c,
      (w.heap.table t).find? l.key = some (.value (.reference c)) → base ≠ .content c) :
    Anchored { w with heap := w.heap.assigned t l v } base path t := by
  by_cases hc : ∃ c, (w.heap.table t).find? l.key = some (.value (.reference c))
  · obtain ⟨c, hf⟩ := hc
    rw [Heap.assigned_of_reference hf]
    exact ha.setCell (hbase c hf) (Heap.admits_reference_iff.1 (hv.heap.admits_value hf)) hw
  · rw [Heap.assigned_of_ne_reference (not_exists.1 hc)]
    refine ha.setTable hv ?_
    rw [Table.assign]
    cases hf : (w.heap.table t).find? l.key with
    | none => exact ha.leadsAway.insertNew hf hw
    | some s => exact ha.leadsAway.put hw l.key

/-! ### Appending -/

/-- The next key of a table of a valid heap. -/
theorem Valid.nextFree_eq (hv : w.Valid) (t : TableId) :
    (w.heap.table t).nextFree = nextKey (w.heap.table t).storedKeys :=
  (hv.heap.table_wellFormed t).nextFree_eq_nextKey

/-- Appending without a next key fails and changes nothing. -/
theorem append_eq_error (hv : w.Valid) (hval : w.valueAt p = .array t)
    (hn : nextKey (w.heap.table t).storedKeys = none) (operands : List Value) :
    w.append p operands = (w, .error .slotOccupied) := by
  rw [append, tableAt_of_valueAt hval, hv.nextFree_eq, hn]

/-- Appending adds null under the next key, which is never taken. -/
theorem append_eq_ok (hv : w.Valid) (hval : w.valueAt p = .array t) {n : Int64}
    (hn : nextKey (w.heap.table t).storedKeys = some n) (operands : List Value) :
    w.append p operands =
      ({ (w.separate p operands).1 with
          heap := (w.separate p operands).1.heap.setTable (w.separate p operands).2
            (((w.separate p operands).1.heap.table (w.separate p operands).2).insertNew
              (Label.int n) (.value .null)) },
        .ok ⟨(w.separate p operands).2, .int n⟩) := by
  have hfree : (w.heap.table t).stores (.int n) = false := by
    rw [← Table.find?_eq_none_iff, Table.find?_eq_none_iff_notMem]
    exact notMem_of_nextKey hn
  rw [append, tableAt_of_valueAt hval, hv.nextFree_eq, hn]
  dsimp only
  rw [if_neg (by simp [hfree])]

/-- So does appending a value. -/
theorem push_eq_error (hv : w.Valid) (hval : w.valueAt p = .array t)
    (hn : nextKey (w.heap.table t).storedKeys = none) (v : Value) :
    w.push p v = (w, .error .slotOccupied) := by
  rw [push, append_eq_error hv hval hn]

/-- Appending a value adds it under the next key. -/
theorem push_eq_ok (hv : w.Valid) (hval : w.valueAt p = .array t)
    (hsound : (w.separate p [v]).1.heap.Knows (w.separate p [v]).2)
    (htable : (w.separate p [v]).1.heap.table (w.separate p [v]).2 = w.heap.table t) {n : Int64}
    (hn : nextKey (w.heap.table t).storedKeys = some n) :
    w.push p v =
      ({ (w.separate p [v]).1 with
          heap := (w.separate p [v]).1.heap.setTable (w.separate p [v]).2
            ((w.heap.table t).insertNew (Label.int n) (.value v)) }, .ok n) := by
  rw [push, append_eq_ok hv hval hn, tableAt_of_valueAt hval, hv.nextFree_eq, hn]
  generalize w.separate p [v] = s at *
  obtain ⟨w₁, t₁⟩ := s
  have hf : (w.heap.table t).find? (Label.int n).key = none :=
    Table.find?_eq_none_iff_notMem.2 (notMem_of_nextKey hn)
  dsimp only at htable hsound ⊢
  rw [htable, assign, replace]
  -- the element that was added holds null
  have hadded : (w₁.heap.setTable t₁ ((w.heap.table t).insertNew (Label.int n) (.value .null))).table
      t₁ = (w.heap.table t).insertNew (Label.int n) (.value .null) :=
    Heap.table_setTable_self (Store.lt_fresh_of_get? hsound.get?) _
  have hnull : ((w₁.heap.setTable t₁ ((w.heap.table t).insertNew (Label.int n)
      (.value .null))).table t₁).find? (.int n) = some (.value .null) := by
    rw [hadded, Table.find?_insertNew hf]
    exact if_pos rfl
  have hreplace : (w₁.heap.setTable t₁ ((w.heap.table t).insertNew (Label.int n)
      (.value .null))).replace ⟨t₁, .int n⟩ v =
        (w₁.heap.setTable t₁ ((w.heap.table t).insertNew (Label.int n) (.value v)), .null) := by
    rw [Heap.replace_of_ne_reference hnull (fun _ he ↦ by cases he), hadded, Heap.setTable_setTable]
    exact congrArg (fun T ↦ (w₁.heap.setTable t₁ T, Value.null)) (Table.put_insertNew hf .null v)
  dsimp only
  rw [hreplace]
  rfl

end Workspace

end SharedValue
