import SharedValue.Proofs.Acyclic.Writing
import SharedValue.Proofs.KeySpace.OtherKeys
import SharedValue.Proofs.Sharing.Counting

/-!
# What writing does to handles

Writing to the array at a place separates the place and then changes one element of the table that
the place has from then on. A separation moves one handle at most, the one at the place, and the
write moves those at the element and in the cells that the element leads to. All other handles stay
where they are (`holds_putAt_iff`, `holds_iff_of_writesAt`), and no handle to the table that is
written to is added, for none of what is stored is that table (`ne_array_separate`).

So afterwards the place is the one holder of its table. `Workspace.Owns` says so, together with what
becomes of the table that the place had before, and it holds of every write that follows a
separation (`owns_of_writesAt`).
-/

namespace SharedValue

namespace Workspace

variable {w w' : Workspace} {p q : Place} {operands : List Value} {t x n : TableId} {e : Element}
  {k : Key} {cs cs' : Set CellId} {h : Heap} {S : Set Value} {v : Value}

/-! ### Handles that stay where they are -/

/-- Writing at an element leaves what other places hold, but for the cells that are written to. -/
theorem holds_iff_of_writesAt (hw : w.heap.WritesAt e cs h) (he : q ≠ .element e)
    (hc : ∀ c ∈ cs, q ≠ .content c) : Holds { w with heap := h } x q ↔ w.Holds x q := by
  cases q with
  | element e' =>
    show (h.table e'.table).find? e'.key = _ ↔ (w.heap.table e'.table).find? e'.key = _
    by_cases ht : e'.table = e.table
    · have hk : e'.key ≠ e.key := fun hk ↦ he (by cases e; cases e'; simp_all)
      rw [ht, hw.find? hk]
    · rw [hw.table ht]
  | content c => rw [holds_content_iff, holds_content_iff, hw.cell fun hm ↦ hc c hm rfl]
  | properties o =>
    show (∃ r, h.objects.get? o.index = some r ∧ _) ↔ _
    rw [hw.objects]
    exact Iff.rfl
  | _ => exact Iff.rfl

/-- Putting a table at a place moves no handle but the one at the place. -/
theorem holds_putAt_iff (hq : q ≠ w.seat p) :
    (w.putAt p (.array n)).Holds x q ↔ w.Holds x q := by
  cases p with
  | element e =>
    show Holds { w with heap := w.heap.write e (.array n) } x q ↔ _
    cases hb : w.heap.binding? e with
    | some c =>
      rw [seat, hb] at hq
      rw [Heap.write, Heap.binding?_eq_some_iff.1 hb]
      exact holds_setCell_iff hq
    | none =>
      rw [seat, hb] at hq
      have hw : w.heap.WritesAt e ∅ (w.heap.write e (.array n)) :=
        Heap.writesAt_write (fun c hs ↦ by rw [Heap.binding?_eq_some_iff.2 hs] at hb; cases hb) _
      exact holds_iff_of_writesAt hw hq fun _ hc ↦ hc.elim
  | _ => exact holds_putAt_iff_of_isOutside (fun _ he ↦ by cases he) hq

/-! ### Separation -/

/-- Only a table of variables has its seat there. -/
theorem eq_symbols_of_seat {s : String} (hs : w.seat p = .symbols s) : p = .symbols s := by
  cases p with
  | element e =>
    rw [seat] at hs
    split at hs <;> cases hs
  | _ => exact hs

/-- A copy leaves every seat where it is. -/
theorem seat_withCopy (hval : w.valueAt p = .array t) (ht : w.heap.Sound (.table t)) :
    (w.withCopy t).seat p = w.seat p := by
  cases p with
  | element e =>
    rw [seat, seat, Heap.binding?, Heap.binding?, Heap.slot?, table_withCopy ht,
      if_neg (ne_copyId_of_knows (knows_of_valueAt_element hval))]
    rfl
  | _ => rfl

/-- **A separation moves no handle but the one at the place.** -/
theorem holds_separate (hv : w.Valid) (hops : ∀ v ∈ operands, w.heap.Admits v)
    (hq : q ≠ w.seat p) (hh : w.Holds x q) : (w.separate p operands).1.Holds x q := by
  cases hs : w.isShared (w.tableAt p) operands with
  | false => rwa [separate_of_not_isShared hs]
  | true =>
    obtain ⟨t, hval, ht, hsound⟩ := exists_array_of_isShared hv hops hs
    rw [separate_of_isShared hs, ht, holds_putAt_iff (by rwa [seat_withCopy hval hsound])]
    exact holds_newTable_iff.2 (.inl hh)

/-- **After a separation the place alone holds its table.** -/
theorem sole_separate (hv : w.Valid) (hops : ∀ v ∈ operands, w.heap.Admits v)
    (hval : w.valueAt p = .array t) (ht : w.heap.Knows t) :
    (w.separate p operands).1.Sole (w.separate p operands).2 (w.seat p) := by
  have hval₁ := valueAt_separate hv hops hval
  have hseat := seat_separate hv hops hval
  have hk := knows_separate hv hops (tableAt_of_valueAt hval ▸ ht)
  have hholds := holds_seat hval₁ (Store.lt_fresh_of_get? hk.get?)
  rw [hseat] at hholds
  cases hs : w.isShared (w.tableAt p) operands with
  | false =>
    rw [separate_of_not_isShared hs] at hholds ⊢
    exact sole_of_not_isShared hholds hs
  | true =>
    refine ⟨hholds, fun {q} hq ↦ ?_, ?_⟩
    · obtain ⟨t', hval', ht', hsound⟩ := exists_array_of_isShared hv hops hs
      rw [separate_of_isShared hs, ht'] at hq
      refine Decidable.byContradiction fun hne ↦ ?_
      rw [holds_putAt_iff (by rwa [seat_withCopy hval' hsound])] at hq
      exact not_holds_newTable hv (fun x ↦ hv.heap.sound_of_mem_detached) q hq
    · rw [held_separate, separate_of_isShared hs]
      exact hv.notMem_held_copyId

/-- None of the operands is the array that is written to. -/
theorem ne_array_separate (hops : ∀ v ∈ operands, w.heap.Admits v)
    (hval : w.valueAt p = .array t) (ht : w.heap.Knows t) (hm : v ∈ operands) :
    v ≠ .array (w.separate p operands).2 := by
  rintro rfl
  cases hs : w.isShared (w.tableAt p) operands with
  | false =>
    rw [separate_of_not_isShared hs] at hm
    dsimp only at hm
    rw [tableAt_of_valueAt hval] at hm hs
    have hholds : w.Holds t (w.seat p) := holds_seat hval (Store.lt_fresh_of_get? ht.get?)
    have hone := hholds.one_le_holders
    have hmore := List.one_le_count_iff.2 (mem_handlesOf_iff.2 hm)
    simp only [isShared, decide_eq_false_iff_not] at hs
    omega
  | true =>
    rw [separate_of_isShared hs] at hm
    exact w.not_sound_copyId (Heap.admits_array_iff.1 (hops _ hm))

/-- A separation leaves the tables alone that the place is not in. -/
theorem table_separate_of_ne (hv : w.Valid) (hops : ∀ v ∈ operands, w.heap.Admits v)
    (hx : w.heap.Knows x) (hp : ∀ k, p ≠ .element ⟨x, k⟩) :
    (w.separate p operands).1.heap.table x = w.heap.table x := by
  cases hs : w.isShared (w.tableAt p) operands with
  | false => rw [separate_of_not_isShared hs]
  | true =>
    obtain ⟨t, -, ht, hsound⟩ := exists_array_of_isShared hv hops hs
    rw [separate_of_isShared hs, ht, table_putAt_of_ne hp, table_withCopy hsound,
      if_neg (ne_copyId_of_knows hx)]

/-! ### Writing -/

/-- What writing to the array at a place comes to: afterwards the place alone holds the table of its
array. It is the table that the place had if nothing else held it. Otherwise it is another one, and
the old table is left as it is to all its other holders, but for the cells that were assigned to. -/
structure Owns (w : Workspace) (p : Place) (operands : List Value) (cs : Set CellId)
    (w' : Workspace) : Prop where
  valueAt_eq : w'.valueAt p = .array (w'.tableAt p)
  sole : w'.Sole (w'.tableAt p) (w.seat p)
  holders_eq_one : w'.holders (.table (w'.tableAt p)) = 1
  stays : w.isShared (w.tableAt p) operands = false → w'.tableAt p = w.tableAt p
  leaves : w.isShared (w.tableAt p) operands = true → w'.tableAt p ≠ w.tableAt p ∧
    w'.heap.table (w.tableAt p) = w.heap.table (w.tableAt p) ∧
    ∀ {q}, w.Holds (w.tableAt p) q → q ≠ w.seat p → (∀ c ∈ cs, q ≠ .content c) →
      w'.Holds (w.tableAt p) q
  held_eq : w'.held = w.held

/-- **A write that stores the table nowhere leaves the place its one holder.** -/
theorem Sole.writesAt (hs : w.Sole t p) (ha : w.heap.Acyclic) (hw : w.heap.WritesAt ⟨t, k⟩ cs h)
    (hg : w.heap.Gains t S h) (hS : .array t ∉ S) (hcs : ∀ c ∈ cs, p ≠ .content c) :
    Sole { w with heap := h } t p := by
  have hself : ¬ w.heap.Child t t := fun hc ↦ ha.not_below hc .refl
  refine ⟨?_, fun {q} hq ↦ ?_, hs.notMem_held⟩
  · refine (holds_iff_of_writesAt hw ?_ hcs).2 hs.holds
    rintro rfl
    exact hself ⟨k, hs.holds⟩
  · by_cases he : q = .element ⟨t, k⟩
    · -- the element that was written to does not hold the table that it is in
      subst he
      exact absurd (hg.child ⟨k, hq⟩) fun hc ↦ hc.elim hself fun hc ↦ hS hc.2
    by_cases hc : ∃ c, q = .content c
    · obtain ⟨c, rfl⟩ := hc
      have hcell : h.cell c = .array t := holds_content_iff.1 hq
      rcases hg.cell c with hsame | hnew
      · exact hs.eq_of_holds (holds_content_iff.2 (hsame ▸ hcell))
      · exact absurd (hcell ▸ hnew) hS
    · exact hs.eq_of_holds ((holds_iff_of_writesAt hw he fun c _ he' ↦ hc ⟨c, he'⟩).1 hq)

/-- Where nothing is shared the cells that are assigned to do not matter. -/
theorem Owns.of_subset (ho : w.Owns p operands cs w')
    (hcs : w.isShared (w.tableAt p) operands = true → cs ⊆ cs') : w.Owns p operands cs' w' :=
  { ho with
    leaves := fun hs ↦ by
      obtain ⟨hne, htable, hholds⟩ := ho.leaves hs
      exact ⟨hne, htable, fun hold hq hnot ↦ hholds hold hq fun c hc ↦ hnot c (hcs hs hc)⟩ }

section Owns

variable (hv : w.Valid) (ha : w.heap.Acyclic) (hnd : (w.registers.map (·.1)).Nodup)
  (hops : ∀ v ∈ operands, w.heap.Admits v) (hval : w.valueAt p = .array t) (ht : w.heap.Knows t)

include hv ha hnd hops hval ht in
/-- **Writing to an element after a separation leaves the place the one holder of its table**, if
none of what is stored is that table and the write does not go to where the place is. -/
theorem owns_of_writesAt
    (hw : (w.separate p operands).1.heap.WritesAt ⟨(w.separate p operands).2, k⟩ cs h)
    (hg : (w.separate p operands).1.heap.Gains (w.separate p operands).2 S h)
    (hS : .array (w.separate p operands).2 ∉ S) (hcs : ∀ c ∈ cs, w.seat p ≠ .content c)
    (hv' : Valid { (w.separate p operands).1 with heap := h }) :
    w.Owns p operands cs { (w.separate p operands).1 with heap := h } := by
  have hq := quietly_separate hv p hops
  have hval₁ := valueAt_separate hv hops hval
  have hseat := seat_separate hv hops hval
  have ha₁ := acyclic_separate (p := p) ha hv hops
  have hsole := (sole_separate hv hops hval ht).writesAt ha₁ hw hg hS hcs
  have hstays := valueAt_of_writesAt (hq.valid hv) ha₁ hval₁ hw fun c hc hmem ↦
    hcs c hmem (hseat ▸ hc)
  have htable := tableAt_of_valueAt hstays
  refine ⟨by rw [htable, hstays], by rwa [htable], ?_, fun hs ↦ ?_, fun hs ↦ ?_,
    w.held_separate p _⟩
  · rw [htable]
    exact hsole.holders_eq_one hv' (hq.registers_nodup hnd)
  · rw [htable, separate_of_not_isShared hs]
  · have hne : w.tableAt p ≠ (w.separate p operands).2 := by
      rw [separate_of_isShared hs, tableAt_of_valueAt hval]
      exact ne_copyId_of_knows ht
    refine ⟨htable ▸ hne.symm, (hw.table hne).trans ?_, fun {q} hold hne' hnot ↦ ?_⟩
    · rw [tableAt_of_valueAt hval]
      refine table_separate_of_ne hv hops ht fun j he ↦ ?_
      exact table_ne_of_valueAt_element hv ha (he ▸ hval) rfl
    · refine (holds_iff_of_writesAt hw (fun he ↦ ?_) hnot).2 (holds_separate hv hops hne' hold)
      -- the copy had no elements before
      rw [separate_of_isShared hs] at he
      subst he
      exact ne_copyId_of_knows (Heap.knows_of_find? hold) rfl

/-! ### The operations on arrays -/

/-- Nothing that is stored besides null and an operand. -/
private theorem notMem_null_or {v : Value} (hm : v ∈ operands)
    (hops : ∀ v ∈ operands, w.heap.Admits v) (hval : w.valueAt p = .array t)
    (ht : w.heap.Knows t) :
    .array (w.separate p operands).2 ∉ ({.null, v} : Set Value) := by
  rintro (he | he)
  · cases he
  · exact ne_array_separate hops hval ht hm he.symm

include hv hops hval in
/-- A table that is shared has no bindings. -/
theorem bindings_of_isShared (hs : w.isShared (w.tableAt p) operands = true) :
    (w.heap.table t).bindings = 0 := by
  rw [← tableAt_of_valueAt hval]
  exact (hv.sound_of_isShared hops hs).bindings_eq_zero

include hv ha hnd hops hval ht in
/-- Making an element ready writes to a table that the place owns. -/
theorem owns_openElement (l : Label) : w.Owns p operands ∅ (w.openElement p l operands).1 := by
  have hv' := (quietly_openElement hv p l hops).valid hv
  have hg := w.gains_openElement p l operands
  rw [openElement_eq] at hv' hg ⊢
  refine (owns_of_writesAt hv ha hnd hops hval ht (Heap.writesAt_materialize _ _) hg
    (fun he ↦ by cases he) (fun c hc hseat ↦ ?_) hv').of_subset fun hs c hc ↦ ?_
  · exact (not_binding_separate _ hv hops hval hseat).1 _ hc.1
  · have hb := bindings_of_isShared hv hops hval hs
    exact absurd hc.1 ((not_binding_separate_of_bindings _ hv hops hval hb).1 c)

include hv hops hval in
/-- The cells that a key leads to after a separation: the one that the array is in is none of them,
unless the key referred to it before. -/
theorem seat_ne_of_mem_cellsAt {c : CellId} (hd : w.heap.read ⟨t, k⟩ = .reference c →
    w.seat p ≠ .content c)
    (hc : c ∈ (w.separate p operands).1.heap.cellsAt ⟨(w.separate p operands).2, k⟩) :
    w.seat p ≠ .content c := by
  intro hseat
  obtain ⟨hunbound, hread⟩ := not_binding_separate k hv hops hval hseat
  exact hc.elim (hunbound c) fun hr ↦ hd (hread ▸ hr) hseat

include hv ha hops hval in
/-- Assigning under a key leaves the array where it is, unless the key refers to that very cell. -/
theorem valueAt_storeKey (l : Label) (v : Value)
    (hd : ∀ c, w.heap.read ⟨t, l.normalize.key⟩ = .reference c → w.seat p ≠ .content c) :
    (w.storeKey p l v operands).1.valueAt p = .array (w.separate p operands).2 := by
  have hseat := seat_separate hv hops hval
  rw [storeKey_eq]
  refine valueAt_of_writesAt ((quietly_separate hv p hops).valid hv)
    (acyclic_separate (p := p) ha hv hops) (valueAt_separate hv hops hval)
    (Heap.writesAt_store _ _ v) fun c hc hmem ↦ ?_
  exact seat_ne_of_mem_cellsAt hv hops hval (hd c) hmem (hseat ▸ hc)

include hv ha hnd hops hval ht in
/-- So does assigning to a key, but for the cell that the key refers to. -/
theorem owns_storeKey (l : Label) (hm : v ∈ operands)
    (hd : ∀ c, w.heap.read ⟨t, l.normalize.key⟩ = .reference c → w.seat p ≠ .content c) :
    w.Owns p operands {c | w.heap.read ⟨t, l.normalize.key⟩ = .reference c}
      (w.storeKey p l v operands).1 := by
  have hv' := (quietly_storeKey hv p l hops (hops v hm)).valid hv
  have hg := w.gains_storeKey p l v operands
  rw [storeKey_eq] at hv' hg ⊢
  refine (owns_of_writesAt hv ha hnd hops hval ht (Heap.writesAt_store _ _ v) hg
    (notMem_null_or hm hops hval ht) (fun c hc ↦ seat_ne_of_mem_cellsAt hv hops hval (hd c) hc)
    hv').of_subset fun hs c hc ↦ ?_
  obtain ⟨hunbound, hread⟩ := not_binding_separate_of_bindings l.normalize.key hv hops hval
    (bindings_of_isShared hv hops hval hs)
  exact hc.elim (fun hc ↦ absurd hc (hunbound c)) fun hr ↦ hread ▸ hr

include hv ha hnd hops hval ht in
/-- So does appending an element. -/
theorem owns_append (hr : (w.append p operands).2 = .ok e) :
    w.Owns p operands ∅ (w.append p operands).1 := by
  have hv' := (quietly_append hv p hops).valid hv
  rcases w.append_cases p operands with he | ⟨n, hf, he⟩
  · rw [he] at hr
    cases hr
  · rw [← table_separate hv p hops] at hf
    rw [he] at hv' ⊢
    have hg : (w.separate p operands).1.heap.Gains (w.separate p operands).2 ∅ _ :=
      Heap.gains_insertNew (l := Label.int n) (s := .value .null) hf fun hz ↦ by cases hz
    exact owns_of_writesAt hv ha hnd hops hval ht (Heap.writesAt_insertNew hf (.value .null)) hg
      (fun he ↦ by cases he) (fun c hc ↦ by cases hc) hv'

end Owns

section Push

variable (hv : w.Valid) (ha : w.heap.Acyclic) (hnd : (w.registers.map (·.1)).Nodup)
  (hval : w.valueAt p = .array t) (ht : w.heap.Knows t)

include hv ha hnd hval ht in
/-- So does appending a value. -/
theorem owns_push (hv₀ : w.heap.Admits v) {n : Int64} (hr : (w.push p v).2 = .ok n) :
    w.Owns p [v] ∅ (w.push p v).1 := by
  have hops := hv₀.of_mem_singleton
  have hv' := (quietly_push hv p hv₀).valid hv
  have hk := knows_separate hv hops (tableAt_of_valueAt hval ▸ ht)
  have htable := table_separate hv p hops
  rw [tableAt_of_valueAt hval] at htable
  cases hn : nextKey (w.heap.table t).storedKeys with
  | none =>
    rw [push_eq_error hv hval hn] at hr
    cases hr
  | some m =>
    rw [push_eq_ok hv hval hk htable hn] at hv' ⊢
    have hf : (w.heap.table t).find? (Label.int m).key = none :=
      Table.find?_eq_none_iff_notMem.2 (notMem_of_nextKey hn)
    rw [← htable] at hf hv' ⊢
    have hg : (w.separate p [v]).1.heap.Gains (w.separate p [v]).2 {v} _ :=
      Heap.gains_insertNew hf fun hz ↦ (Slot.value.inj hz).symm
    exact owns_of_writesAt hv ha hnd hops hval ht (Heap.writesAt_insertNew hf (.value v)) hg
      (fun he ↦ ne_array_separate hops hval ht List.mem_cons_self he.symm) (fun c hc ↦ by cases hc)
      hv'

include hv ha hnd hval ht in
/-- And so does taking out a key that is stored. -/
theorem owns_unsetKey (hk : (w.unsetKey p k).2 = true)
    (hunbound : ∀ c, (w.heap.table t).find? k.normalize ≠ some (.binding c)) :
    w.Owns p [] ∅ (w.unsetKey p k).1 := by
  have hops := Heap.admits_of_mem_nil (h := w.heap)
  have he : w.Effect (fun _ _ ↦ True) (w.unsetKey p k).1 :=
    effect_unsetKey hv p k (by rwa [tableAt_of_valueAt hval])
  have hv' := he.valid hv
  have hv₁ := (quietly_separate hv p hops).valid hv
  rw [unsetKey] at hk hv' ⊢
  split at hk
  next hs =>
    rw [if_pos hs] at hv' ⊢
    exact owns_of_writesAt hv ha hnd hops hval ht
      (Heap.writesAt_remove (hv₁.heap.table_wellFormed _).keys_nodup k.normalize)
      (Heap.gains_remove hv₁.heap _ k.normalize ∅) (fun he ↦ by cases he)
      (fun c hc ↦ by cases hc) hv'
  · cases hk

end Push

end Workspace

end SharedValue
