import SharedValue.Proofs.Assigning
import SharedValue.Proofs.Declaring

/-!
# Setting a variable

A variable that was set reads back, whatever its name led to before: nothing, a slot that was never
written, an emptied cell, a chain of cells that is too long to read, or a circle of cells. Setting
looks one level into the slot and writes there, so that the value is behind at most one cell
afterwards (`Workspace.Delivered.exists_chain`): every circle is cut, and every long chain ends at
the cell that was written to.
-/

namespace SharedValue.Workspace

variable {w w' : Workspace} {p : Place} {s : String} {T : SymbolTable} {source : KeySource}
  {l : Label} {k : Key} {u v : Value} {n : Nat}

/-- Whether the readings of a table of variables show a value under a name. -/
structure Visible (w : Workspace) (s : String) (k : Key) (v : Value) : Prop where
  containsSymbol_eq : ∀ {source l}, w.symbolLabel s source = .ok l → l.key = k →
    w.containsSymbol s source = .ok true
  getSymbol_eq : ∀ {source l}, w.symbolLabel s source = .ok l → l.key = k →
    w.getSymbol s source = .ok (some v)

/-- A name is visible with the end of a chain that the settings allow to be followed. -/
theorem visible_of_chain (hget : w.heap.get? (w.tableAt (.symbols s)) k = some u)
    (hc : w.heap.Chain u n v) (hn : n ≤ (w.configOf s).maxReferenceDepth) : w.Visible s k v := by
  refine ⟨fun hl he ↦ ?_, fun hl he ↦ ?_⟩
  · subst he
    rw [containsSymbol, hl]
    exact congrArg Except.ok (Heap.contains_iff.2 (by rw [hget]; rfl))
  · subst he
    have hchase := Heap.chase_eq_some_iff.2 ⟨n, hn, hc⟩
    rw [getSymbol, hl]
    simp only [bind, Except.bind, hget, Heap.dereference, hchase]
    rfl

/-- A key shows what its slot loads. -/
theorem get?_of_slotAt (hk : k.IsNormal) {slot : Slot} (hs : w.slotAt p k = some slot) :
    w.heap.get? (w.tableAt p) k = slot.load w.heap.cell := by
  rw [slotAt] at hs
  rw [Heap.get?, Table.get?_eq_bind, Key.normalize_of_isNormal hk, hs, Option.bind_some]

theorem find?_slotsAt (w : Workspace) (p : Place) (k : Key) :
    (w.slotsAt p).find? k = w.slotAt p k :=
  (w.heap.table (w.tableAt p)).find?_slots k

/-- **What was assigned is shown, behind at most one cell.** -/
theorem Delivered.exists_chain (hd : w.Delivered (.symbols s) k v w') (hk : k.IsNormal)
    (hv : ∀ c, v ≠ .reference c) (hu : v ≠ .undefined) :
    ∃ u n, n ≤ 1 ∧ w'.heap.get? (w'.tableAt (.symbols s)) k = some u ∧ w'.heap.Chain u n v := by
  have hplain : w'.slotAt (.symbols s) k = some (.value v) →
      w'.heap.get? (w'.tableAt (.symbols s)) k = some v := fun hs ↦ by
    rw [get?_of_slotAt hk hs, Slot.load, Value.shown_of_ne hu]
  cases hdest : w.destination (.symbols s) k with
  | last =>
    have hnone : (w.slotsAt (.symbols s)).find? k = none :=
      (w.find?_slotsAt _ k).trans (destination_eq_last_iff.1 hdest)
    refine ⟨v, 0, Nat.zero_le 1, hplain ?_, .stop hv⟩
    rw [← find?_slotsAt, hd.last hdest, Pairs.find?_add_self hnone]
  | slot =>
    have hne : w.slotAt (.symbols s) k ≠ none := fun hs ↦ by
      rw [destination_eq_last_iff.2 hs] at hdest
      cases hdest
    refine ⟨v, 0, Nat.zero_le 1, hplain ?_, .stop hv⟩
    rw [← find?_slotsAt] at hne ⊢
    rw [hd.slot hdest, Pairs.find?_put_self hne]
  | cell c =>
    obtain ⟨hslots, hcell⟩ := hd.cell hdest
    have hsame : w'.slotAt (.symbols s) k = w.slotAt (.symbols s) k := by
      rw [← find?_slotsAt, hslots, find?_slotsAt]
    have hstep : w'.heap.Chain (.reference c) 1 v := by
      refine .step ?_
      rw [hcell]
      exact .stop hv
    have hbound : w.slotAt (.symbols s) k = some (.binding c) →
        w'.heap.get? (w'.tableAt (.symbols s)) k = some v := fun hs ↦ by
      rw [get?_of_slotAt hk (hsame.trans hs), Slot.load_binding, hcell, if_neg hu]
    rcases Heap.slot?_of_destination hdest with hs | ⟨b, hs, hb⟩ | hs
    · exact ⟨_, 1, Nat.le_refl 1, get?_of_slotAt hk (hsame.trans hs), hstep⟩
    · by_cases hbc : b = c
      · -- the cell referred to itself
        subst hbc
        exact ⟨v, 0, Nat.zero_le 1, hbound hs, .stop hv⟩
      · have hkept : w'.heap.cell b = .reference c :=
          (hd.rest.cell_eq (by rintro ⟨⟩) fun hmem ↦
            hbc (Destination.cell.inj (hdest.symm.trans hmem)).symm).trans hb
        refine ⟨_, 1, Nat.le_refl 1, ?_, hstep⟩
        rw [get?_of_slotAt hk (hsame.trans hs), Slot.load_binding, hkept, if_neg]
        rintro ⟨⟩
    · exact ⟨v, 0, Nat.zero_le 1, hbound hs, .stop hv⟩

/-- **A variable that was set reads back**, whatever was there before, if its table follows at least
one cell and the value is neither undefined nor a reference. -/
theorem Reachable.set_reads_back (hw : w.Reachable) (hT : w.symbolTables.get? s = some T)
    (hdepth : 1 ≤ T.config.maxReferenceDepth) (hl : w.symbolLabel s source = .ok l)
    (hadm : w.heap.Admits v) (hv : ∀ c, v ≠ .reference c) (hu : v ≠ .undefined) :
    (w.setSymbol s source v).2 = .ok () ∧ (w.setSymbol s source v).1.Visible s l.key v := by
  have hvalid := hw.valid
  have hval := valueAt_symbols hT
  have ht := hvalid.knows_of_get? hT
  have hnormal := isNormal_of_symbolLabel hl
  have hdelivered := delivered_storeKey hvalid hw.acyclic hadm.of_mem_singleton hval ht l v
    fun c _ hseat ↦ nomatch hseat
  rw [Label.key_normalize_of_isNormal hnormal] at hdelivered
  rw [setSymbol_eq_storeKey hvalid hval ht hl hadm]
  refine ⟨rfl, ?_⟩
  obtain ⟨u, n, hn, hget, hc⟩ := hdelivered.exists_chain hnormal hv hu
  refine visible_of_chain hget hc (hn.trans ?_)
  rwa [hdelivered.rest.configOf_eq, configOf_eq hT]

/-- A name that is bound to a cell that refers to itself, and one at the end of a chain that is too
long: both fail to be read, and read back when they have been set. -/
theorem Reachable.set_reads_back_aliasingEnd :
    aliasingEnd.Reachable ∧
      aliasingEnd.getSymbol "s" (.label (Label.int 3)) = .error (.referenceDepth 1) ∧
      (aliasingEnd.setSymbol "s" (.label (Label.int 3)) (.int 5)).1.Visible "s" (.int 3) (.int 5) ∧
      aliasingEnd.getSymbol "s" (.label (Label.int 4)) = .error (.referenceDepth 1) ∧
      (aliasingEnd.setSymbol "s" (.label (Label.int 4)) (.int 5)).1.Visible "s" (.int 4) (.int 5) :=
  have hset : ∀ {source l}, aliasingEnd.symbolLabel "s" source = .ok l →
      (aliasingEnd.setSymbol "s" source (.int 5)).1.Visible "s" l.key (.int 5) := fun hl ↦
    (reachable_aliasingEnd.set_reads_back (v := .int 5) rfl (Nat.le_refl 1) hl
      (Heap.admits_of_handle?_eq_none rfl) (fun _ he ↦ nomatch he) fun he ↦ nomatch he).2
  ⟨reachable_aliasingEnd, rfl, hset (l := Label.int 3) rfl, rfl, hset (l := Label.int 4) rfl⟩

end SharedValue.Workspace
