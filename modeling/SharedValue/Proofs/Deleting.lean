import SharedValue.Proofs.Copies
import SharedValue.Proofs.Declaring
import SharedValue.Proofs.Sharing

/-!
# Deleting a variable

The slot of a name is absent, plain, bound, or bound to a cell that is undefined already. Deleting
the name takes a plain slot out, and empties the cell of a bound one, which stays bound and in its
place so that a later write by the frame makes the name visible again; in the two other states there
is nothing to do. No reading shows the name afterwards (`Workspace.Hidden`), and every other slot
and every other cell is as it was (`Workspace.Untouched`). Another name that is bound to the emptied
cell keeps its slot, and is hidden with it.

A name whose slot was taken out is new when it is assigned to again, so that it comes last
(`setSymbol_of_absent`).
-/

namespace SharedValue.Workspace

variable {w w' : Workspace} {s : String} {T : SymbolTable} {source : KeySource} {l : Label}
  {k : Key} {v : Value} {c : CellId}

/-! ### Names that are hidden -/

/-- Whether no reading of a table of variables shows a name. -/
structure Hidden (w : Workspace) (s : String) (k : Key) : Prop where
  containsSymbol_eq : ∀ {source l}, w.symbolLabel s source = .ok l → l.key = k →
    w.containsSymbol s source = .ok false
  getSymbol_eq : ∀ {source l}, w.symbolLabel s source = .ok l → l.key = k →
    w.getSymbol s source = .ok none
  notMem_keys : k ∉ (w.heap.pairs (w.tableAt (.symbols s))).map (·.1)
  /-- Nothing is counted but what is shown. -/
  len_eq : w.heap.len (w.tableAt (.symbols s)) = (w.heap.pairs (w.tableAt (.symbols s))).length
  /-- It is not in the copies of the table of variables either. -/
  notMem_keys_snapshotSymbols :
    k ∉ ((w.snapshotSymbols s).1.heap.pairs (w.snapshotSymbols s).2).map (·.1)
  notMem_keys_copySymbols :
    k ∉ ((w.copySymbols s).1.heap.pairs (w.copySymbols s).2).map (·.1)

/-- **A name under which nothing is found is hidden.** -/
theorem hidden_of_get? (hv : w.Valid) (hk : k.IsNormal)
    (hget : w.heap.get? (w.tableAt (.symbols s)) k = none) : w.Hidden s k := by
  have hcontains : w.heap.contains (w.tableAt (.symbols s)) k = false := by
    rw [← Bool.not_eq_true, Heap.contains_iff, hget]
    exact fun he ↦ nomatch he
  have hkeys : k ∉ (w.heap.pairs (w.tableAt (.symbols s))).map (·.1) := by
    intro hmem
    obtain ⟨⟨k', v⟩, hmem, rfl⟩ := List.mem_map.1 hmem
    have hfound := (hv.heap.get?_eq_some_iff (k := k')).2 (by
      rwa [Key.normalize_of_isNormal hk])
    rw [hget] at hfound
    cases hfound
  refine ⟨fun hl he ↦ ?_, fun hl he ↦ ?_, hkeys, hv.heap.len_eq _, ?_, ?_⟩
  · rw [containsSymbol, hl]
    subst he
    exact congrArg Except.ok hcontains
  · rw [getSymbol, hl]
    subst he
    simp only [bind, Except.bind, hget]
    rfl
  · rw [snapshotSymbols]
    dsimp only
    rwa [hv.heap.pairs_snapshot]
  · rw [copySymbols]
    dsimp only
    rwa [Heap.pairs_copyArray hv.heap]

/-! ### What deleting leaves alone -/

/-- What deleting a name leaves alone: the slots of all other names and all other tables, all cells
but the one that the name is bound to, all objects and registers, and all other tables of
variables. -/
structure Untouched (w w' : Workspace) (s : String) (k : Key) : Prop where
  slotAt_eq : ∀ {j}, j ≠ k → w'.slotAt (.symbols s) j = w.slotAt (.symbols s) j
  table_eq : ∀ {x}, w.heap.Knows x → x ≠ w'.tableAt (.symbols s) → w'.heap.table x = w.heap.table x
  cell_eq : ∀ {c}, w.slotAt (.symbols s) k ≠ some (.binding c) → w'.heap.cell c = w.heap.cell c
  objects_eq : w'.heap.objects = w.heap.objects
  registers_eq : w'.registers = w.registers
  get?_symbolTable : ∀ {n}, n ≠ s → w'.symbolTables.get? n = w.symbolTables.get? n

theorem Untouched.refl (w : Workspace) (s : String) (k : Key) : w.Untouched w s k :=
  ⟨fun _ ↦ rfl, fun _ _ ↦ rfl, fun _ ↦ rfl, rfl, rfl, fun _ ↦ rfl⟩

/-- The slot under a name is that of the table behind. -/
theorem slotAt_symbols (hT : w.symbolTables.get? s = some T) (k : Key) :
    w.slotAt (.symbols s) k = (w.heap.table T.table).find? k := by
  rw [slotAt, tableAt_symbols hT]

/-- An attached name has a binding in its slot. -/
theorem Attached.slotAt_eq (ha : w.Attached s k c) :
    w.slotAt (.symbols s) k = some (.binding c) := by
  obtain ⟨T, hT, hf⟩ := ha
  rw [slotAt_symbols hT, hf]

/-- An attached name is normal. -/
theorem Attached.isNormal (ha : w.Attached s k c) (hv : w.Valid) : k.IsNormal := by
  obtain ⟨T, -, hf⟩ := ha
  exact (hv.heap.table_wellFormed T.table).keys_normal k (Table.mem_storedKeys_of_find? hf)

/-- The cell of a name is emptied. -/
theorem untouched_setCell (hb : w.slotAt (.symbols s) k = some (.binding c)) (v : Value) :
    w.Untouched { w with heap := w.heap.setCell c v } s k where
  slotAt_eq := fun _ ↦ rfl
  table_eq := fun _ _ ↦ rfl
  cell_eq := fun {d} hd ↦ Heap.cell_setCell_ne _ (fun he : d = c ↦ hd (he ▸ hb)) v
  objects_eq := rfl
  registers_eq := rfl
  get?_symbolTable := fun _ ↦ rfl

/-- A separation leaves the cells, the objects, the registers and the other tables of variables. -/
theorem separate_symbols_eq (hT : w.symbolTables.get? s = some T) (operands : List Value) :
    (w.separate (.symbols s) operands).1.heap.cell = w.heap.cell ∧
      (w.separate (.symbols s) operands).1.heap.objects = w.heap.objects ∧
      (w.separate (.symbols s) operands).1.registers = w.registers ∧
      ∀ {n}, n ≠ s → (w.separate (.symbols s) operands).1.symbolTables.get? n =
        w.symbolTables.get? n := by
  rcases separate_symbols_cases hT operands with he | ⟨T', he⟩ <;> rw [he]
  · exact ⟨rfl, rfl, rfl, fun _ ↦ rfl⟩
  · exact ⟨rfl, rfl, rfl, fun hn ↦ (w.symbolTables.get?_set s _ _).trans (if_neg hn)⟩

/-- A plain slot is taken out, of a copy of the table if the table has other holders. -/
theorem unsetKey_symbols (hv : w.Valid) (hT : w.symbolTables.get? s = some T)
    (hk : (w.heap.table T.table).stores k.normalize = true) :
    ∃ t, (w.unsetKey (.symbols s) k).1.symbolTables.get? s = some { T with table := t } ∧
      (w.unsetKey (.symbols s) k).1 = { (w.separate (.symbols s) []).1 with
        heap := (w.separate (.symbols s) []).1.heap.setTable t
          ((w.heap.table T.table).remove k.normalize) } ∧
      (w.unsetKey (.symbols s) k).1.heap.table t = (w.heap.table T.table).remove k.normalize := by
  have htable := table_separate hv (.symbols s) Heap.admits_of_mem_nil
  have hv₁ := (quietly_separate hv (.symbols s) Heap.admits_of_mem_nil).valid hv
  obtain ⟨t, ht, hget, -⟩ := exists_unmentioned_separate hv hT
  rw [ht, tableAt_symbols hT] at htable
  have hlt := Store.lt_fresh_of_get? (hv₁.knows_of_get? hget).get?
  rw [unsetKey, tableAt_symbols hT, if_pos hk]
  dsimp only
  rw [ht, htable]
  exact ⟨t, hget, rfl, Heap.table_setTable_self hlt _⟩

/-- Taking a plain entry out touches nothing else. -/
theorem untouched_unsetKey (hw : w.Reachable) (hT : w.symbolTables.get? s = some T)
    (hk : k.IsNormal) (hs : (w.heap.table T.table).stores k = true) :
    w.Untouched (w.unsetKey (.symbols s) k).1 s k := by
  have hv := hw.valid
  have hnormal := Key.normalize_of_isNormal hk
  obtain ⟨hcells, hobjects, hregisters, htables⟩ := separate_symbols_eq hT []
  have hslots : ∀ {j}, j ≠ k → (w.unsetKey (.symbols s) k).1.slotAt (.symbols s) j =
      w.slotAt (.symbols s) j := fun hj ↦
    slotAt_unsetKey hv hw.acyclic (valueAt_symbols hT) k (by rwa [hnormal])
  have hother : ∀ {x}, w.heap.Knows x →
      (w.separate (.symbols s) []).1.heap.table x = w.heap.table x := fun hx ↦
    table_separate_of_ne hv Heap.admits_of_mem_nil hx fun _ he ↦ nomatch he
  obtain ⟨t, hget, heq, -⟩ := unsetKey_symbols hv hT (k := k) (by rwa [hnormal])
  have hplace := tableAt_symbols hget
  rw [heq] at hslots hplace ⊢
  refine ⟨hslots, fun {x} hx hne ↦ ?_, fun {c} _ ↦ congrFun hcells c, hobjects, hregisters,
    fun hn ↦ htables hn⟩
  rw [hplace] at hne
  exact (Heap.table_setTable_ne _ hne _).trans (hother hx)

/-! ### Assigning to an absent name -/

/-- **A name that is not stored comes last when it is assigned to.** -/
theorem setSymbol_of_absent (hv : w.Valid) (hT : w.symbolTables.get? s = some T)
    (hl : w.symbolLabel s source = .ok l) (habsent : l.key ∉ w.variableKeys s)
    (hadm : w.heap.Admits v) :
    (w.setSymbol s source v).1.variableKeys s = w.variableKeys s ++ [l.key] ∧
      (w.setSymbol s source v).1.heap.pairs ((w.setSymbol s source v).1.tableAt (.symbols s)) =
        w.heap.pairs (w.tableAt (.symbols s)) ++ [(l.key, v.shown)] := by
  have hops := hadm.of_mem_singleton
  have hval := valueAt_symbols hT
  have ht := hv.knows_of_get? hT
  have hkey := Label.key_normalize_of_isNormal (isNormal_of_symbolLabel hl)
  have htable := table_separate hv (.symbols s) hops
  have hknows := knows_separate hv hops (tableAt_of_valueAt hval ▸ ht)
  have hval₁ := valueAt_separate hv hops hval
  obtain ⟨hcells, -, -, -⟩ := separate_symbols_eq hT [v]
  rw [variableKeys_eq hT, ← Table.find?_eq_none_iff_notMem, ← hkey] at habsent
  rw [tableAt_symbols hT] at htable
  rw [setSymbol_eq_storeKey hv hval ht hl hadm, storeKey_eq, variableKeys_eq hT, tableAt_symbols hT]
  generalize (w.separate (.symbols s) [v]).1 = w₁ at *
  generalize (w.separate (.symbols s) [v]).2 = t at *
  have hlt := Store.lt_fresh_of_get? hknows.get?
  rw [← htable] at habsent ⊢
  rw [Heap.store_of_find?_eq_none habsent]
  dsimp only
  have hplace : ∀ h : Heap, tableAt { w₁ with heap := h } (.symbols s) = t := fun h ↦
    tableAt_of_valueAt (w := { w₁ with heap := h }) hval₁
  rw [variableKeys, hplace, Heap.table_setTable_self hlt, Table.storedKeys_insertNew, hkey,
    Heap.pairs, Heap.table_setTable_self hlt, Table.pairs_insertNew, hkey]
  refine ⟨rfl, ?_⟩
  show (w₁.heap.table t).pairs w₁.heap.cell ++ _ = _
  rw [hcells, Heap.pairs, ← htable]

/-! ### Deleting -/

/-- The workspaces that come after one at the end of a command: itself, and what programs lead to
from there. -/
def LeadsTo (w w' : Workspace) : Prop :=
  w' = w ∨ ∃ program reports, w.settle.run program = some (w', reports)

/-- What a valid workspace leads to is valid. -/
theorem LeadsTo.valid (hl : w.LeadsTo w') (hv : w.Valid) : w'.Valid := by
  rcases hl with rfl | ⟨program, reports, hr⟩
  · exact hv
  · exact valid_run hv.settle hr

/-- What deleting a name comes to that is bound to a cell: the cell is emptied, and the name stays
bound to it and in its place. However the program goes on, as long as it does not bind the name
anew, the name shows what is written to the cell, at its place among the names that remain. -/
structure Emptied (w w' : Workspace) (s : String) (k : Key) (c : CellId) : Prop where
  cell_eq : w'.heap.cell c = .undefined
  attached : w'.Attached s k c
  variableKeys_eq : w'.variableKeys s = w.variableKeys s
  revives : ∀ {program w'' reports}, w'.settle.run program = some (w'', reports) →
    w'.settle.Spares s k program → w''.Coherent s k c ∧
      ∀ {j}, w'.settle.Remains s j program →
        KeepsOrder (w.variableKeys s) (w''.variableKeys s) j k

/-- What deleting a name comes to whose slot is plain: the slot is taken out. However the program
goes on, the name comes last when it is assigned to while it is not stored. -/
structure Removed (w w' : Workspace) (s : String) (k : Key) : Prop where
  variableKeys_eq : w'.variableKeys s = (w.variableKeys s).erase k
  notMem_variableKeys : k ∉ w'.variableKeys s
  comes_last : ∀ {w'' : Workspace} {T : SymbolTable} {source l v}, w'.LeadsTo w'' →
    w''.symbolTables.get? s = some T → k ∉ w''.variableKeys s →
    w''.symbolLabel s source = .ok l → l.key = k → w''.heap.Admits v →
      (w''.setSymbol s source v).1.variableKeys s = w''.variableKeys s ++ [k] ∧
        (w''.setSymbol s source v).1.heap.pairs
            ((w''.setSymbol s source v).1.tableAt (.symbols s)) =
          w''.heap.pairs (w''.tableAt (.symbols s)) ++ [(k, v.shown)]

/-- What deleting a name comes to, for each state that its slot can be in. -/
structure Deleted (w w' : Workspace) (s : String) (k : Key) : Prop where
  hidden : w'.Hidden s k
  untouched : w.Untouched w' s k
  emptied : ∀ {c}, w.slotAt (.symbols s) k = some (.binding c) → w.Emptied w' s k c
  removed : ∀ {v}, w.slotAt (.symbols s) k = some (.value v) → w.Removed w' s k
  eq_self_of_absent : w.slotAt (.symbols s) k = none → w' = w
  eq_self_of_vacant : ∀ {c}, w.slotAt (.symbols s) k = some (.binding c) →
    w.heap.cell c = .undefined → w' = w

/-- A bound name whose cell is undefined is emptied. -/
theorem emptied_of_attached (hv : w.Valid) (ha : w.Attached s k c)
    (hc : w.heap.cell c = .undefined) (hkeys : w.variableKeys s = w'.variableKeys s) :
    w'.Emptied w s k c where
  cell_eq := hc
  attached := ha
  variableKeys_eq := hkeys
  revives := fun {program w'' reports} hr hno ↦ by
    obtain ⟨ha₁, hkeys₁⟩ := attached_settle ha
    obtain ⟨ha₂, horder⟩ := attached_run hv.settle ha₁ hno hr
    refine ⟨ha₂.coherent (valid_run hv.settle hr), fun {j} hj ↦ ?_⟩
    rw [← hkeys, ← hkeys₁]
    exact horder hj

/-- A plain name that is taken out is removed. -/
theorem removed_unsetKey (hv : w.Valid) (hT : w.symbolTables.get? s = some T) (hk : k.IsNormal)
    (hs : (w.heap.table T.table).stores k = true) (hv' : (w.unsetKey (.symbols s) k).1.Valid) :
    w.Removed (w.unsetKey (.symbols s) k).1 s k := by
  have hnormal := Key.normalize_of_isNormal hk
  have hnd := (hv.heap.table_wellFormed T.table).keys_nodup
  obtain ⟨t, hget, -, htable⟩ := unsetKey_symbols hv hT (k := k) (by rwa [hnormal])
  have hkeys : (w.unsetKey (.symbols s) k).1.variableKeys s = (w.variableKeys s).erase k := by
    rw [variableKeys_eq hget, variableKeys_eq hT, htable, Table.storedKeys_remove, hnormal]
  refine ⟨hkeys, ?_, fun {w'' T' source l v} hl hT' habsent hlabel he hadm ↦ ?_⟩
  · rw [hkeys, variableKeys_eq hT]
    exact hnd.not_mem_erase
  · subst he
    exact setSymbol_of_absent (hl.valid hv') hT' hlabel habsent hadm

/-- There is nothing to delete. -/
theorem deleted_absent (hv : w.Valid) (hk : k.IsNormal) (hf : w.slotAt (.symbols s) k = none) :
    w.Deleted w s k where
  hidden := hidden_of_get? hv hk (by
    rw [slotAt] at hf
    rw [Heap.get?, Table.get?_eq_bind, Key.normalize_of_isNormal hk, hf]
    rfl)
  untouched := .refl w s k
  emptied := fun hb ↦ by rw [hf] at hb; cases hb
  removed := fun hp ↦ by rw [hf] at hp; cases hp
  eq_self_of_absent := fun _ ↦ rfl
  eq_self_of_vacant := fun _ _ ↦ rfl

/-- Deleting a plain name. -/
theorem deleted_plain (hw : w.Reachable) (hT : w.symbolTables.get? s = some T) (hk : k.IsNormal)
    {u : Value} (hf : (w.heap.table T.table).find? k = some (.value u))
    (hv' : (w.unsetKey (.symbols s) k).1.Valid) :
    w.Deleted (w.unsetKey (.symbols s) k).1 s k := by
  have hv := hw.valid
  have hslot := (slotAt_symbols hT k).trans hf
  have hnormal := Key.normalize_of_isNormal hk
  have hs : (w.heap.table T.table).stores k = true := by
    rw [← Bool.not_eq_false, ← Table.find?_eq_none_iff, hf]
    exact fun he ↦ nomatch he
  have hremoved := removed_unsetKey hv hT hk hs hv'
  have hunbound : ∀ {c}, w.slotAt (.symbols s) k ≠ some (.binding c) := by
    intro c hb
    rw [hslot] at hb
    cases hb
  refine ⟨hidden_of_get? hv' hk ?_, untouched_unsetKey hw hT hk hs, fun hb ↦ absurd hb hunbound,
    fun _ ↦ hremoved, fun hn ↦ ?_, fun hb ↦ absurd hb hunbound⟩
  · obtain ⟨t, hget, -, -⟩ := unsetKey_symbols hv hT (k := k) (by rwa [hnormal])
    have habsent := hremoved.notMem_variableKeys
    rw [variableKeys_eq hget, ← Table.find?_eq_none_iff_notMem] at habsent
    rw [tableAt_symbols hget, Heap.get?, Table.get?_eq_bind, hnormal, habsent]
    rfl
  · rw [hslot] at hn
    cases hn

/-- Deleting a bound name leaves its binding and its place. -/
theorem deleted_of_attached (hv' : w'.Valid) (ha : w.Attached s k c) (ha' : w'.Attached s k c)
    (hc : w'.heap.cell c = .undefined) (hkeys : w'.variableKeys s = w.variableKeys s)
    (hsame : w.heap.cell c = .undefined → w' = w) (hun : w.Untouched w' s k) :
    w.Deleted w' s k := by
  have hslot := ha.slotAt_eq
  refine ⟨hidden_of_get? hv' (ha'.isNormal hv') ?_, hun, fun {d} hb ↦ ?_, fun hp ↦ ?_, fun hno ↦ ?_,
    fun {d} hb hu ↦ ?_⟩
  · rw [(ha'.coherent hv').get?_eq, if_pos hc]
  · obtain rfl : c = d := Slot.binding.inj (Option.some.inj (hslot.symm.trans hb))
    exact emptied_of_attached hv' ha' hc hkeys
  · rw [hslot] at hp
    cases hp
  · rw [hslot] at hno
    cases hno
  · obtain rfl : c = d := Slot.binding.inj (Option.some.inj (hslot.symm.trans hb))
    exact hsame hu

/-- Deleting a name that is emptied already changes nothing. -/
theorem deleted_vacant (hv : w.Valid) (ha : w.Attached s k c) (hc : w.heap.cell c = .undefined) :
    w.Deleted w s k :=
  deleted_of_attached hv ha ha hc rfl (fun _ ↦ rfl) (.refl w s k)

/-- Deleting a bound name empties its cell. -/
theorem deleted_bound (hv : w.Valid) (ha : w.Attached s k c) (hc : w.heap.cell c ≠ .undefined) :
    w.Deleted { w with heap := w.heap.setCell c .undefined } s k := by
  have hslot := ha.slotAt_eq
  obtain ⟨T, hT, hf⟩ := ha
  have hsound := hv.heap.sound_binding hf
  obtain ⟨u, hu⟩ := hsound
  have hq : w.Quietly { w with heap := w.heap.setCell c .undefined } :=
    quietly_heap (.of_quiet (.setCell ⟨u, hu⟩ Heap.admits_undefined))
  exact deleted_of_attached (hq.valid hv) ⟨T, hT, hf⟩ ⟨T, hT, hf⟩
    (Heap.cell_setCell_self (Store.lt_fresh_of_get? hu) .undefined) rfl (fun he ↦ absurd he hc)
    (untouched_setCell hslot .undefined)

/-- **Deleting a variable hides it and touches nothing else.** -/
theorem Reachable.deleted (hw : w.Reachable) (hT : w.symbolTables.get? s = some T)
    (hl : w.symbolLabel s source = .ok l) :
    (w.unsetSymbol s source).2 = .ok () ∧
      w.Deleted (w.unsetSymbol s source).1 s l.key := by
  have hv := hw.valid
  have hn := isNormal_of_symbolLabel hl
  have hnormal := Key.normalize_of_isNormal hn
  have heffect : w.Effect (fun _ _ ↦ True) (w.unsetSymbol s source).1 :=
    effect_unsetSymbol hv s source
  have hv' := heffect.valid hv
  have hslot := slotAt_symbols hT l.key
  rw [unsetSymbol, hl] at hv' ⊢
  refine ⟨rfl, ?_⟩
  dsimp only at hv' ⊢
  rw [unsetSymbolKey, tableAt_symbols hT, hnormal] at hv' ⊢
  cases hf : (w.heap.table T.table).find? l.key with
  | none => exact deleted_absent hv hn (hslot.trans hf)
  | some slot =>
    cases slot with
    | value u =>
      rw [hf] at hv'
      exact deleted_plain hw hT hn hf hv'
    | binding c =>
      dsimp only
      split
      next hc => exact deleted_vacant hv ⟨T, hT, hf⟩ hc
      next hc => exact deleted_bound hv ⟨T, hT, hf⟩ hc

/-- A name that is bound, and one that is not. -/
theorem Reachable.deleted_mixingEnd :
    mixingEnd.Reachable ∧ mixingEnd.symbolTables.get? "s" = some ⟨⟨0⟩, {}⟩ ∧
      mixingEnd.symbolLabel "s" (.label (Label.int 2)) = .ok (Label.int 2) ∧
      mixingEnd.symbolLabel "s" (.label (Label.int 1)) = .ok (Label.int 1) ∧
      mixingEnd.Emptied (mixingEnd.unsetSymbol "s" (.label (Label.int 2))).1 "s" (.int 2) ⟨0⟩ ∧
      mixingEnd.Removed (mixingEnd.unsetSymbol "s" (.label (Label.int 1))).1 "s" (.int 1) := by
  have hT : mixingEnd.symbolTables.get? "s" = some ⟨⟨0⟩, {}⟩ := rfl
  have hl₂ : mixingEnd.symbolLabel "s" (.label (Label.int 2)) = .ok (Label.int 2) := rfl
  have hl₁ : mixingEnd.symbolLabel "s" (.label (Label.int 1)) = .ok (Label.int 1) := rfl
  have hbound := reachable_mixingEnd.deleted hT hl₂
  have hplain := reachable_mixingEnd.deleted hT hl₁
  exact ⟨reachable_mixingEnd, hT, hl₂, hl₁, hbound.2.emptied rfl, hplain.2.removed rfl⟩

end SharedValue.Workspace
