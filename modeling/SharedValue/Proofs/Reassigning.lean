import SharedValue.Proofs.Sharing

/-!
# Assigning twice

An assignment puts a value into an element, or into the cell that the element refers to. Making it
again right away finds the value where it was put, and changes nothing
(`Heap.store_of_given`). One case is apart: a reference that was put into the element itself is
there for the second assignment to go through, so that it is put into its own cell as well.
-/

namespace SharedValue

/-- Replacing a slot by what it is. -/
theorem Table.put_of_find? {t : Table} {k : Key} {s : Slot} (hnd : t.storedKeys.Nodup)
    (hf : t.find? k = some s) : t.put k s = t := by
  have hsame : ∀ e ∈ t.entries, (if e.key = k then { e with slot := s } else e) = e := by
    intro e he
    split
    next hk =>
      have hslot := find?_of_mem hnd he
      rw [hk, hf] at hslot
      rw [Option.some.inj hslot]
    · rfl
  rw [put, List.map_congr_left hsame, List.map_id']

namespace Heap

variable {h : Heap} {e : Element} {t : TableId} {l : Label} {u v : Value} {s : Slot} {c : CellId}

/-! ### Writing twice -/

/-- Of two writes to a cell the second counts. -/
theorem setCell_setCell (h : Heap) (c : CellId) (u v : Value) :
    (h.setCell c u).setCell c v = h.setCell c v := by
  rw [setCell, setCell, setCell, Store.set_set]

/-- Writing what a cell has changes nothing. -/
theorem setCell_self (hc : h.Sound (.cell c)) : h.setCell c (h.cell c) = h := by
  obtain ⟨v, hv⟩ := hc
  rw [setCell, cell, hv, Option.getD_some, Store.set_of_get? hv]

/-- An element has what was written to it. -/
theorem read_write (hv : h.Valid) (hs : h.slot? e = some s) (v : Value) :
    (h.write e v).read e = v := by
  cases s with
  | value u => rw [read, slot?_write_value hs]
  | binding c =>
    obtain ⟨u, hu⟩ := hv.sound_binding hs
    have hslot : (h.setCell c v).slot? e = some (.binding c) := hs
    rw [write, hs]
    dsimp only
    rw [read, hslot]
    exact cell_setCell_self (Store.lt_fresh_of_get? hu) v

/-- Of two writes to an element the second counts. -/
theorem write_write (hs : h.slot? e = some s) (u v : Value) :
    (h.write e u).write e v = h.write e v := by
  cases s with
  | value x =>
    have hslot := slot?_write_value hs u
    have hlt := Store.lt_fresh_of_get? (get?_of_find? hs)
    rw [write, hslot]
    dsimp only
    rw [write, hs, write, hs]
    dsimp only
    rw [table_setTable_self hlt, Table.put_put, setTable_setTable]
  | binding c =>
    have hslot : (h.setCell c u).slot? e = some (.binding c) := hs
    have hwrite : ∀ x, h.write e x = h.setCell c x := fun x ↦ by rw [write, hs]
    rw [hwrite u, hwrite v, write, hslot]
    exact h.setCell_setCell c u v

/-- Writing what an element has changes nothing. -/
theorem write_read (hv : h.Valid) (hs : h.slot? e = some s) : h.write e (h.read e) = h := by
  cases s with
  | value u =>
    rw [read, write, hs]
    dsimp only
    rw [Table.put_of_find? (hv.table_wellFormed e.table).keys_nodup hs,
      setTable_self (knows_of_find? hs)]
  | binding c =>
    rw [read, write, hs]
    exact setCell_self (hv.sound_binding hs)

/-! ### Assigning twice -/

/-- Whether an assignment to an element was made: the element holds the value, or it holds a
reference to another cell than its own, and that cell does. -/
structure Given (h : Heap) (e : Element) (v : Value) : Prop where
  stored : ∃ s, h.slot? e = some s
  held : h.read e = v ∨
    ∃ c, h.read e = .reference c ∧ h.binding? e ≠ some c ∧ h.setCell c v = h

theorem Given.knows (hg : h.Given e v) : h.Knows e.table := by
  obtain ⟨s, hs⟩ := hg.stored
  exact knows_of_find? hs

/-- After an assignment to an element, the element was given the value. -/
theorem given_replace (hv : h.Valid) (hs : h.slot? e = some s) (v : Value) :
    (h.replace e v).1.Given e v := by
  have hwritten : (h.write e v).Given e v := by
    refine ⟨?_, .inl (read_write hv hs v)⟩
    cases s with
    | value u => exact ⟨_, slot?_write_value hs v⟩
    | binding c =>
      rw [write, hs]
      exact ⟨_, hs⟩
  rw [replace]
  split
  next c hread =>
    split
    · exact hwritten
    next hne =>
      have hkept : (h.setCell c v).read e = .reference c := by
        rw [read] at hread ⊢
        have hslot : (h.setCell c v).slot? e = h.slot? e := rfl
        rw [hslot]
        rw [hs] at hread ⊢
        cases s with
        | value u => exact hread
        | binding d =>
          have hd : d ≠ c := fun he ↦ hne (he ▸ Heap.binding?_eq_some_iff.2 hs)
          exact (cell_setCell_ne h hd v).trans hread
      exact ⟨⟨s, hs⟩, .inr ⟨c, hkept, hne, h.setCell_setCell c v v⟩⟩
  · exact hwritten

theorem exists_slot?_materialize (ht : h.Knows t) (l : Label) :
    ∃ s, (h.materialize t l).slot? ⟨t, l.key⟩ = some s := by
  rw [materialize]
  split
  next hf =>
    refine ⟨.value .null, ?_⟩
    rw [slot?, table_setTable_self (Store.lt_fresh_of_get? ht.get?), Table.find?_insertNew hf,
      if_pos rfl]
  next s hf =>
    have hslot : h.slot? ⟨t, l.key⟩ = some s := hf
    split
    · cases s with
      | value u => exact ⟨_, slot?_write_value hslot .null⟩
      | binding c =>
        rw [write, hslot]
        exact ⟨_, hslot⟩
    · exact ⟨s, hslot⟩

theorem given_store (hv : h.Valid) (ht : h.Knows t) (hl : l.key.IsNormal) (v : Value) :
    (h.store t l v).1.Given ⟨t, l.key⟩ v := by
  obtain ⟨s, hs⟩ := exists_slot?_materialize ht l
  rw [← replace_materialize_eq_store ht]
  exact given_replace ((quietly_materialize hv ht.writable hl).valid hv) hs v

/-- Whether an assignment of a value to an element that was given it goes through the value: the
value is a reference, which the element itself holds, and the element is not bound to its cell. -/
structure GoesThrough (h : Heap) (e : Element) (v : Value) (c : CellId) : Prop where
  eq_reference : v = .reference c
  read_eq : h.read e = v
  binding?_ne : h.binding? e ≠ some c

/-- **An assignment made again changes nothing**, unless a reference is there to go through. -/
theorem store_of_given (hv : h.Valid) (hg : h.Given ⟨t, l.key⟩ v) :
    ((∀ c, ¬ h.GoesThrough ⟨t, l.key⟩ v c) → (h.store t l v).1 = h) ∧
      ∀ {c}, h.GoesThrough ⟨t, l.key⟩ v c → (h.store t l v).1 = h.setCell c v := by
  obtain ⟨⟨s, hs⟩, hheld⟩ := hg
  have hf : (h.table t).find? l.key = some s := hs
  have hready : h.read ⟨t, l.key⟩ ≠ .undefined →
      (h.store t l v).1 = (h.replace ⟨t, l.key⟩ v).1 := by
    intro hne
    rw [← replace_materialize_eq_store (knows_of_find? hf) l v, materialize, hf]
    exact congrArg (fun h' : Heap ↦ (h'.replace ⟨t, l.key⟩ v).1) (if_neg hne)
  have hbound : ∀ {c}, h.read ⟨t, l.key⟩ = .reference c → h.read ⟨t, l.key⟩ ≠ .undefined := by
    intro c hread
    rw [hread]
    rintro ⟨⟩
  refine ⟨fun hno ↦ ?_, fun {c} hc ↦ ?_⟩
  · rcases hheld with hread | ⟨c, hread, hne, hset⟩
    · have hsame : h.write ⟨t, l.key⟩ v = h := hread ▸ write_read hv hs
      by_cases hu : v = .undefined
      · -- the element becomes null, and undefined again
        subst hu
        rw [← replace_materialize_eq_store (knows_of_find? hf) l, materialize, hf]
        dsimp only
        rw [if_pos hread, replace, read_write hv hs]
        exact (write_write hs .null .undefined).trans hsame
      · rw [hready (hread ▸ hu), replace, hread]
        split
        next c =>
          split
          · exact hsame
          next hne => exact absurd ⟨rfl, hread, hne⟩ (hno c)
        · exact hsame
    · rw [hready (hbound hread), replace, hread]
      dsimp only
      rw [if_neg hne]
      exact hset
  · obtain ⟨rfl, hread, hne⟩ := hc
    rw [hready (hbound hread), replace, hread]
    dsimp only
    rw [if_neg hne]

end Heap

namespace Workspace

variable {w : Workspace} {p : Place} {t : TableId} {l : Label} {v : Value} {op : KeyOperation}

/-! ### The same assignment twice -/

/-- What an assignment comes to that is made again right away: nothing changes, unless the element
that it was made to holds the value itself, which is a reference, and is not bound to its cell. Then
the cell is given the reference to itself. -/
structure Repeats (w : Workspace) (p : Place) (k : Key) (v : Value) (w' : Workspace) : Prop where
  eq_self : (∀ c, ¬ w.heap.GoesThrough ⟨w.tableAt p, k⟩ v c) → w' = w
  eq_setCell : ∀ {c}, w.heap.GoesThrough ⟨w.tableAt p, k⟩ v c →
    w' = { w with heap := w.heap.setCell c v }

section StoreKey

variable (hv : w.Valid) (ha : w.heap.Acyclic) (hnd : (w.registers.map (·.1)).Nodup)
  (hadm : w.heap.Admits v) (hval : w.valueAt p = .array t) (ht : w.heap.Knows t)
  (hd : ∀ c, w.heap.read ⟨t, l.normalize.key⟩ = .reference c → w.seat p ≠ .content c)

include hv ha hnd hadm hval ht hd in
/-- An array that was assigned to has one holder, and the value that was assigned is not another. -/
theorem separate_storeKey : (w.storeKey p l v [v]).1.separate p [v] =
    ((w.storeKey p l v [v]).1, (w.separate p [v]).2) := by
  have hops := hadm.of_mem_singleton
  have htable := tableAt_of_valueAt (valueAt_storeKey hv ha hops hval l v hd)
  have howns := owns_storeKey hv ha hnd hops hval ht l List.mem_cons_self hd
  have hnone : (handlesOf [v]).count (.table (w.separate p [v]).2) = 0 :=
    List.count_eq_zero.2 fun hmem ↦ ne_array_separate hops hval ht List.mem_cons_self
      (List.mem_singleton.1 (mem_handlesOf_iff.1 hmem)).symm
  have hone := howns.holders_eq_one
  rw [htable] at hone
  have hs : isShared (w.storeKey p l v [v]).1 ((w.storeKey p l v [v]).1.tableAt p) [v] = false := by
    rw [htable, isShared, hone, hnone]
    rfl
  rw [separate_of_not_isShared hs, htable]

include hv hadm hval ht in
/-- After an assignment to a key, the element under it was given the value. -/
theorem given_storeKey (l : Label) : (w.storeKey p l v [v]).1.heap.Given
    ⟨(w.separate p [v]).2, l.normalize.key⟩ v := by
  have hops := hadm.of_mem_singleton
  rw [storeKey_eq]
  exact Heap.given_store ((quietly_separate hv p hops).valid hv).heap
    (knows_separate hv hops (tableAt_of_valueAt hval ▸ ht)) l.normalize_isNormal v

include hv ha hnd hadm hval ht hd in
/-- **Assigning the same value again** changes nothing, unless it goes through a reference that the
first assignment stored. -/
theorem repeats_storeKey : (w.storeKey p l v [v]).1.Repeats p l.normalize.key v
    ((w.storeKey p l v [v]).1.storeKey p l v [v]).1 := by
  have hops := hadm.of_mem_singleton
  have hv' := (quietly_storeKey hv p l hops hadm).valid hv
  have htable := tableAt_of_valueAt (valueAt_storeKey hv ha hops hval l v hd)
  have hsep := separate_storeKey hv ha hnd hadm hval ht hd
  obtain ⟨hself, hthrough⟩ :=
    Heap.store_of_given hv'.heap (given_storeKey hv hadm hval ht l)
  generalize (w.storeKey p l v [v]).1 = w₁ at *
  rw [storeKey_eq, hsep]
  refine ⟨fun hno ↦ ?_, fun {c} hc ↦ ?_⟩
  · rw [htable] at hno
    dsimp only
    rw [hself hno]
  · rw [htable] at hc
    dsimp only
    rw [hthrough hc]

end StoreKey

end Workspace

/-! ### Assigning to an array and to a variable -/

namespace KeyOperation

open Workspace

variable {w : Workspace} {t : TableId} {k : KeySource} {l : Label} {v : Value} {op : KeyOperation}

/-- Whether an operation assigns a value under its key. -/
def Assigns (v : Value) : KeyOperation → Prop
  | insert _ u | setSymbol _ u => u = v
  | _ => False

/-- Every operation that assigns does so in the same way, once its key is a label. -/
theorem attempt_of_assigns (ha : op.Assigns v) (hv : w.Valid) (hadm : w.heap.Admits v)
    (hval : w.valueAt op.place = .array t) (ht : w.heap.Knows t)
    (hl : k.label? w.heap (op.limit w) = .ok l) :
    op.attempt w k = ((w.storeKey op.place l v [v]).1, none) := by
  cases op with
  | insert p u =>
    obtain rfl : u = v := ha
    rw [limit] at hl
    simp only [attempt, Workspace.insert, hl, insertKey, place, failure?]
  | setSymbol s u =>
    obtain rfl : u = v := ha
    simp only [attempt, setSymbol_eq_storeKey hv hval ht hl hadm, place, failure?]
  | _ => exact absurd ha id

end KeyOperation

namespace Workspace

variable {w : Workspace} {t : TableId} {k : KeySource} {l : Label} {v : Value} {op : KeyOperation}

/-- **An assignment made again right away changes nothing**, with one exception. If the element that
it was made to holds the value itself and this is a reference, the second assignment goes through
the reference, and its cell is given the reference to itself. -/
theorem Reachable.assign_twice (hw : w.Reachable) (ha : op.Assigns v)
    (hr : (Operation.key op k).Ready w t) (hl : k.label? w.heap (op.limit w) = .ok l)
    (hl' : k.label? (op.attempt w k).1.heap (op.limit (op.attempt w k).1) = .ok l) :
    (op.attempt w k).2 = none ∧ (op.attempt (op.attempt w k).1 k).2 = none ∧
      (op.attempt w k).1.Repeats op.place l.key v (op.attempt (op.attempt w k).1 k).1 := by
  have hv := hw.valid
  have hval : w.valueAt op.place = .array t := hr.valueAt_eq
  have hkey := Label.key_normalize_of_isNormal (Heap.isNormal_of_label? hl)
  have hadm : w.heap.Admits v := by
    cases op with
    | insert p u | setSymbol s u =>
      obtain rfl : u = v := ha
      exact hr.admits u List.mem_cons_self
    | _ => exact absurd ha id
  have hd : ∀ c, w.heap.read ⟨t, l.normalize.key⟩ = .reference c →
      w.seat op.place ≠ .content c := by
    intro c hread
    rw [hkey, ← tableAt_of_valueAt hval] at hread
    refine hr.free c ⟨l, hl, ?_⟩
    cases op with
    | insert p u | setSymbol s u => exact hread
    | _ => exact absurd ha id
  have hfirst := KeyOperation.attempt_of_assigns ha hv hadm hval hr.knows hl
  have hval' := valueAt_storeKey hv hw.acyclic hadm.of_mem_singleton hval l v hd
  have hq := quietly_storeKey hv op.place l hadm.of_mem_singleton hadm
  have hknows := (given_storeKey hv hadm hval hr.knows l).knows
  have hrepeats := repeats_storeKey hv hw.acyclic hw.registers_nodup hadm hval hr.knows hd
  rw [hfirst] at hl' ⊢
  have hsecond :=
    KeyOperation.attempt_of_assigns ha (hq.valid hv) (hq.admits hadm) hval' hknows hl'
  rw [hsecond, ← hkey]
  exact ⟨rfl, rfl, hrepeats⟩

/-- A program that makes a cell with an integer, and an empty array. -/
def preparing : List Statement :=
  [⟨.array (.constant (.int 1)), some "n"⟩, ⟨.array (.cell "n"), some "c"⟩,
    ⟨.array (.list []), some "a"⟩]

/-- Where that program ends. -/
def preparingEnd : Workspace := ((empty.run preparing).map (·.1)).getD empty

theorem reachable_preparingEnd : preparingEnd.Reachable := ⟨preparing, _, rfl⟩

/-- Assigning to the first key of the empty array is carried out for every value that is there. -/
theorem ready_preparingEnd {v : Value} (hv : preparingEnd.heap.Admits v) :
    (Operation.key (.insert (.register "a") v) (.label (Label.int 0))).Ready preparingEnd ⟨0⟩ where
  valueAt_eq := rfl
  knows := ⟨_, rfl⟩
  isOfArray := fun _ _ he ↦ nomatch he
  admits := hv.of_mem_singleton
  free := fun _ _ he ↦ nomatch he

/-- The same integer twice under one key. -/
theorem Reachable.assign_twice_preparingEnd :
    preparingEnd.Reachable ∧
      (preparingEnd.insert (.register "a") (.label (Label.int 0)) (.int 5)).1.heap.pairs ⟨0⟩ =
        [(.int 0, .int 5)] ∧
      (Workspace.insert (preparingEnd.insert (.register "a") (.label (Label.int 0)) (.int 5)).1
        (.register "a") (.label (Label.int 0)) (.int 5)).1 =
          (preparingEnd.insert (.register "a") (.label (Label.int 0)) (.int 5)).1 := by
  have hassigns : (KeyOperation.insert (.register "a") (.int 5)).Assigns (.int 5) := rfl
  have hready := ready_preparingEnd (Heap.admits_of_handle?_eq_none (v := .int 5) rfl)
  obtain ⟨-, -, hrepeats⟩ :=
    reachable_preparingEnd.assign_twice (l := Label.int 0) hassigns hready rfl rfl
  exact ⟨reachable_preparingEnd, rfl, hrepeats.eq_self fun c hc ↦ nomatch hc.eq_reference⟩

/-- A reference that is assigned twice under a new key ends up in its own cell. -/
theorem not_assign_twice_unchanged :
    ¬ ∀ (w : Workspace) (op : KeyOperation) (v : Value) (k : KeySource) (l : Label) (t : TableId),
      w.Reachable → op.Assigns v → (Operation.key op k).Ready w t →
        k.label? w.heap (op.limit w) = .ok l →
          k.label? (op.attempt w k).1.heap (op.limit (op.attempt w k).1) = .ok l →
            ∀ c, (op.attempt (op.attempt w k).1 k).1.heap.cell c =
              (op.attempt w k).1.heap.cell c := by
  intro h
  have hadm : preparingEnd.heap.Admits (.reference ⟨0⟩) :=
    Heap.admits_reference_iff.2 ⟨.int 1, rfl⟩
  have hcell := h preparingEnd (.insert (.register "a") (.reference ⟨0⟩)) (.reference ⟨0⟩)
    (.label (Label.int 0)) (Label.int 0) ⟨0⟩ reachable_preparingEnd rfl (ready_preparingEnd hadm)
    rfl rfl ⟨0⟩
  have hcell : Value.reference ⟨0⟩ = .int 1 := hcell
  cases hcell

end Workspace

end SharedValue
