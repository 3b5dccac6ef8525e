import SharedValue.Proofs.Workspace.Operations

/-!
# The operations of a table of variables

Declaring and binding are where a name is bound to a cell, deleting is where an entry may be taken
out, and everything else is quiet. Before a name is bound the table of variables is separated, so
the table that gets the binding is mentioned nowhere else (`exists_unmentioned_separate`): this is
how tables with bindings come to have one holder.
-/

namespace SharedValue.Workspace

variable {w w' : Workspace} {name : String} {s : SymbolTable} {may : String → Key → Prop}

/-- The place of a table of variables shows the table that it has. -/
theorem valueAt_symbols (hs : w.symbolTables.get? name = some s) :
    w.valueAt (.symbols name) = .array s.table := by
  rw [valueAt, hs]

theorem valueAt_symbols_congr (hs : w'.symbolTables.get? name = w.symbolTables.get? name) :
    w'.valueAt (.symbols name) = w.valueAt (.symbols name) := by
  rw [valueAt, valueAt, hs]

/-- Writing to a table of variables writes to the table that it has. -/
theorem tableAt_symbols (hs : w.symbolTables.get? name = some s) :
    w.tableAt (.symbols name) = s.table :=
  tableAt_of_valueAt (valueAt_symbols hs)

/-! ### Binding -/

/-- A table behind a table of variables that is not shared is mentioned nowhere else. -/
theorem unmentioned_of_not_isShared (hs : w.symbolTables.get? name = some s)
    (hshared : w.isShared s.table [] = false) : w.Unmentioned s.table := by
  have hone : w.holders (.table s.table) + (handlesOf []).count (.table s.table) ≤ 1 := by
    simpa [isShared] using hshared
  have hsym : 1 ≤ (w.symbolTables.map fun p ↦ Handle.table p.2.table).count (.table s.table) :=
    List.one_le_count_iff.2 (List.mem_map.2 ⟨_, Registry.mem_of_get? hs, rfl⟩)
  simp only [holders, roots, List.count_append] at hone
  refine ⟨fun hmem ↦ ?_, fun p hp he ↦ ?_, fun hmem ↦ ?_⟩
  · have := List.one_le_count_iff.2 hmem
    omega
  · have hmem : Handle.table s.table ∈ handlesOf (w.registers.map (·.2)) :=
      List.mem_filterMap.2 ⟨p.2, List.mem_map_of_mem hp, by rw [he]; rfl⟩
    have := List.one_le_count_iff.2 hmem
    omega
  · have hmem : Handle.table s.table ∈ handlesOf w.held :=
      List.mem_filterMap.2 ⟨_, hmem, rfl⟩
    have := List.one_le_count_iff.2 hmem
    omega

/-- No sound handle mentions a table that is not there. -/
theorem not_sound_copyId (w : Workspace) : ¬ w.heap.Sound (.table w.copyId) := by
  rintro ⟨T, hT, -⟩
  exact Nat.lt_irrefl _ (Store.lt_fresh_of_get? hT)

/-- A copy is mentioned by nothing yet. -/
theorem unmentioned_copyId (hv : w.Valid) (t : TableId) :
    (w.withCopy t).Unmentioned w.copyId := by
  refine ⟨fun hmem ↦ w.not_sound_copyId ?_, fun p hp he ↦ w.not_sound_copyId ?_,
    fun hmem ↦ w.not_sound_copyId ?_⟩
  · exact (Heap.mem_handles_newTable hmem).elim hv.heap.sound hv.heap.sound_of_mem_detached
  · exact Heap.admits_array_iff.1 (he ▸ hv.admits_register hp)
  · exact Heap.admits_array_iff.1 (hv.admits_held hmem)

/-- **After a separation the table of variables alone mentions its table.** -/
theorem exists_unmentioned_separate (hv : w.Valid) (hs : w.symbolTables.get? name = some s) :
    ∃ t, (w.separate (.symbols name) []).2 = t ∧
      (w.separate (.symbols name) []).1.symbolTables.get? name = some { s with table := t } ∧
      (w.separate (.symbols name) []).1.Unmentioned t := by
  cases hshared : w.isShared (w.tableAt (.symbols name)) [] with
  | false =>
    rw [separate_of_not_isShared hshared]
    rw [tableAt_symbols hs] at hshared ⊢
    exact ⟨s.table, rfl, hs, unmentioned_of_not_isShared hs hshared⟩
  | true =>
    rw [separate_of_isShared hshared]
    have hput : (w.withCopy (w.tableAt (.symbols name))).putAt (.symbols name) (.array w.copyId) =
        { w.withCopy (w.tableAt (.symbols name)) with
          symbolTables := w.symbolTables.set name { s with table := w.copyId } } := by
      rw [putAt]
      simp only [show (w.withCopy (w.tableAt (.symbols name))).symbolTables.get? name = some s from hs]
      rfl
    rw [hput]
    refine ⟨w.copyId, rfl, ?_, unmentioned_copyId hv _⟩
    rw [Registry.get?_set, if_pos rfl]

/-- A separation of a table of variables adds a table, if anything. -/
theorem separate_symbols_cases (hs : w.symbolTables.get? name = some s) (operands : List Value) :
    (w.separate (.symbols name) operands).1 = w ∨
      ∃ T, (w.separate (.symbols name) operands).1 = { w with
        heap := (w.heap.newTable T).1
        symbolTables := w.symbolTables.set name { s with table := (w.heap.newTable T).2 } } := by
  cases hshared : w.isShared (w.tableAt (.symbols name)) operands with
  | false =>
    rw [separate_of_not_isShared hshared]
    exact .inl rfl
  | true =>
    have hs' : (w.withCopy (w.tableAt (.symbols name))).symbolTables.get? name = some s := hs
    rw [separate_of_isShared hshared, putAt]
    simp only [hs']
    exact .inr ⟨_, rfl⟩

/-- Binding a name separates the table of variables and then binds the slot there. -/
theorem bindKey_eq (w : Workspace) (name : String) (l : Label) (c : CellId) :
    w.bindKey name l c = { (w.separate (.symbols name) []).1 with
      heap := (w.separate (.symbols name) []).1.heap.bind (w.separate (.symbols name) []).2
        l.normalize c } := by
  rw [bindKey]

/-- A name bound to a cell. -/
theorem effect_bindKey (hv : w.Valid) (hs : w.symbolTables.get? name = some s) (l : Label)
    {c : CellId} (hc : w.heap.Sound (.cell c))
    (hmay : (∀ c, (w.heap.table s.table).find? l.normalize.key ≠ some (.binding c)) ∨
      may name l.normalize.key) : w.Effect may (w.bindKey name l c) := by
  have hq := quietly_separate hv (.symbols name) Heap.admits_of_mem_nil
  have htable := table_separate hv (.symbols name) Heap.admits_of_mem_nil
  obtain ⟨t, ht, hget, hu⟩ := exists_unmentioned_separate hv hs
  rw [ht, tableAt_symbols hs] at htable
  rw [bindKey_eq, ht]
  generalize (w.separate (.symbols name) []).1 = w₁ at *
  rw [← htable] at hmay
  exact effect_of_loud hq (.bind hget l.normalize_isNormal (hq.heap_quietly.sound hc) hu hmay)

/-- The labels of variables have normal keys. -/
theorem isNormal_of_symbolLabel {k : KeySource} {l : Label} (hl : w.symbolLabel name k = .ok l) :
    l.key.IsNormal :=
  Heap.isNormal_of_label? hl

/-- A name that is not bound is bound to a new cell, which holds the value that the name had. -/
private theorem effect_bindKey_newCell (hv : w.Valid) (hs : w.symbolTables.get? name = some s)
    {l : Label} (hl : l.key.IsNormal)
    (hf : ∀ c, (w.heap.table s.table).find? l.key ≠ some (.binding c)) {v : Value}
    (ha : w.heap.Admits v) : w.Effect may
      (bindKey { w with heap := (w.heap.newCell v).1 } name l (w.heap.newCell v).2) := by
  have hq : w.Quietly { w with heap := (w.heap.newCell v).1 } :=
    quietly_heap (.of_quiet (.newCell ha))
  refine hq.trans_effect (effect_bindKey (hq.valid hv) hs l (Heap.sound_newCell v) (.inl ?_))
  rw [Label.key_normalize_of_isNormal hl]
  exact hf

/-- Declaring a name makes a cell and binds the name to it, unless it is bound already. -/
theorem effect_declareSymbol (hv : w.Valid) (hs : w.symbolTables.get? name = some s)
    (k : KeySource) : w.Effect may (w.declareSymbol name k).1 := by
  rw [declareSymbol]
  split
  · exact .quiet (.refl w)
  next l hl =>
    have hn := isNormal_of_symbolLabel hl
    rw [tableAt_symbols hs]
    split
    · exact .quiet (.refl w)
    next v hf =>
      refine effect_bindKey_newCell hv hs hn (fun c hc ↦ ?_) (hv.heap.admits_value hf)
      rw [hf] at hc
      cases hc
    next hf =>
      refine effect_bindKey_newCell hv hs hn (fun c hc ↦ ?_) Heap.admits_undefined
      rw [hf] at hc
      cases hc

/-- The cell that a declaration gives is there. -/
theorem sound_declareSymbol (hv : w.Valid) (hs : w.symbolTables.get? name = some s)
    {k : KeySource} {c : CellId} (hd : (w.declareSymbol name k).2 = .ok c) :
    (w.declareSymbol name k).1.heap.Sound (.cell c) := by
  rw [declareSymbol] at hd ⊢
  split at hd
  · cases hd
  next l hl =>
    have hnew : ∀ v, w.heap.Admits v → (bindKey { w with heap := (w.heap.newCell v).1 } name l
        (w.heap.newCell v).2).heap.Sound (.cell (w.heap.newCell v).2) := by
      intro v ha
      have hq : w.Quietly { w with heap := (w.heap.newCell v).1 } :=
        quietly_heap (.of_quiet (.newCell ha))
      have he : Effect _ (fun _ _ ↦ True) _ :=
        effect_bindKey (hq.valid hv) hs l (Heap.sound_newCell v) (.inr trivial)
      exact he.sound_cell (Heap.sound_newCell v)
    split at hd
    next c' hf =>
      rw [← Except.ok.inj hd]
      exact hv.heap.sound_binding hf
    next v hf =>
      rw [← Except.ok.inj hd]
      exact hnew v (hv.heap.admits_value hf)
    · rw [← Except.ok.inj hd]
      exact hnew .undefined Heap.admits_undefined

/-- Binding a name is one change that is not quiet. -/
theorem effect_bindSymbol (hv : w.Valid) (hs : w.symbolTables.get? name = some s) {k : KeySource}
    {c : CellId} (hc : w.heap.Sound (.cell c))
    (hmay : ∀ l, w.symbolLabel name k = .ok l → may name l.key) :
    w.Effect may (w.bindSymbol name k c).1 := by
  rw [bindSymbol]
  split
  · exact .quiet (.refl w)
  next l hl =>
    refine effect_bindKey hv hs l hc (.inr ?_)
    rw [Label.key_normalize_of_isNormal (isNormal_of_symbolLabel hl)]
    exact hmay l hl

/-! ### Reading, writing and deleting -/

/-- Making the entry of a variable ready is quiet. -/
theorem quietly_openSymbol (hv : w.Valid) (name : String) (k : KeySource) {operands : List Value}
    (hops : ∀ v ∈ operands, w.heap.Admits v) : w.Quietly (w.openSymbol name k operands).1 := by
  rw [openSymbol]
  split
  · exact .refl w
  · exact quietly_openElement hv _ _ hops

/-- Setting a variable is quiet, for it binds nothing. -/
theorem quietly_setSymbol (hv : w.Valid) (name : String) (k : KeySource) {v : Value}
    (ha : w.heap.Admits v) : w.Quietly (w.setSymbol name k v).1 := by
  have hq := quietly_openSymbol hv name k ha.of_mem_singleton
  rw [setSymbol]
  split <;> next heq =>
    rw [heq] at hq
    first
      | exact hq
      | exact hq.trans (quietly_assign (hq.valid hv) _ (hq.admits ha))

/-- Deleting a variable empties its cell or takes its entry out. -/
theorem effect_unsetSymbol (hv : w.Valid) (name : String) (k : KeySource) :
    w.Effect may (w.unsetSymbol name k).1 := by
  rw [unsetSymbol]
  split
  · exact .quiet (.refl w)
  next l _ =>
    show w.Effect may (w.unsetSymbolKey name l.key)
    rw [unsetSymbolKey]
    split
    · exact .quiet (.refl w)
    next v hf =>
      refine effect_unsetKey hv _ _ fun c hc ↦ ?_
      rw [hf] at hc
      cases hc
    next c hf =>
      split
      · exact .quiet (.refl w)
      · exact .quiet (quietly_heap (.of_quiet (.setCell (hv.heap.sound_binding hf)
          Heap.admits_undefined)))

/-- What a variable shows is there. -/
theorem admits_getSymbol (hv : w.Valid) {k : KeySource} {v : Value}
    (hg : w.getSymbol name k = .ok (some v)) : w.heap.Admits v := by
  rw [getSymbol] at hg
  obtain ⟨l, -, hg⟩ := Except.bind_eq_ok_iff.1 hg
  split at hg
  · cases Except.ok.inj hg
  next u hu =>
    obtain ⟨v', hd, hg⟩ := Except.bind_eq_ok_iff.1 hg
    obtain rfl := Option.some.inj (Except.ok.inj hg)
    exact Heap.admits_of_dereference hv.heap (Heap.admits_get? hv.heap hu) hd

theorem quietly_copySymbols (hv : w.Valid) (name : String) : w.Quietly (w.copySymbols name).1 :=
  quietly_heap (Heap.quietly_copyArray hv.heap _)

/-- A copy of a table of variables is an array that is there. -/
theorem sound_copySymbols (hv : w.Valid) (hs : w.symbolTables.get? name = some s) :
    (w.copySymbols name).1.heap.Sound (.table (w.copySymbols name).2) := by
  refine Heap.sound_copyArray ?_
  rw [tableAt_symbols hs]
  exact hv.knows_of_get? hs

theorem quietly_snapshotSymbols (hv : w.Valid) (name : String) :
    w.Quietly (w.snapshotSymbols name).1 :=
  quietly_heap (Heap.quietly_snapshot hv.heap _)

/-- So is a snapshot. -/
theorem sound_snapshotSymbols (hv : w.Valid) (name : String) :
    (w.snapshotSymbols name).1.heap.Sound (.table (w.snapshotSymbols name).2) :=
  Heap.sound_snapshot hv.heap _

/-! ### Iteration -/

/-- Writes to cells that are there are quiet. -/
theorem quietly_writeCells {writes : List (CellId × Value)}
    (hw : ∀ p ∈ writes, w.heap.Sound (.cell p.1) ∧ w.heap.Admits p.2) :
    w.Quietly (w.writeCells writes) := by
  suffices hgen : ∀ (writes : List (CellId × Value)) (h : Heap),
      (∀ p ∈ writes, h.Sound (.cell p.1) ∧ h.Admits p.2) →
      h.Quietly (writes.foldl (fun h p ↦ h.setCell p.1 p.2) h) from quietly_heap (hgen writes _ hw)
  intro writes
  induction writes with
  | nil => exact fun h _ ↦ .refl h
  | cons p rest ih =>
    intro h hw
    obtain ⟨hc, ha⟩ := hw p List.mem_cons_self
    have hq : h.Quietly (h.setCell p.1 p.2) := .of_quiet (.setCell hc ha)
    refine hq.trans (ih _ fun q hq' ↦ ?_)
    obtain ⟨hc', ha'⟩ := hw q (List.mem_cons_of_mem _ hq')
    exact ⟨hq.sound hc', hq.admits ha'⟩

/-- What an iteration comes to next is one of the entries it has before it. -/
theorem exists_load_of_nextShown {content : CellId → Value} {entries rest : List Entry}
    {shown : Key × Value} (hn : Table.nextShown content entries = some (shown, rest)) :
    (∃ e ∈ entries, e.slot.load content = some shown.2) ∧ rest ⊆ entries := by
  induction entries with
  | nil => cases hn
  | cons e tail ih =>
    rw [Table.nextShown] at hn
    split at hn
    next view ho =>
      obtain ⟨rfl, rfl⟩ := Prod.mk.inj (Option.some.inj hn)
      refine ⟨⟨e, List.mem_cons_self, ?_⟩, List.subset_cons_self _ _⟩
      rw [← Slot.map_value_observe, ho]
      rfl
    · obtain ⟨⟨e', he', hl⟩, hsub⟩ := ih hn
      exact ⟨⟨e', List.mem_cons_of_mem _ he', hl⟩, fun x hx ↦ List.mem_cons_of_mem _ (hsub hx)⟩

/-- An iteration is quiet, and what it gives is admitted at its end. -/
theorem quietly_iterateWriting (hv : w.Valid) {writes : List (CellId × Value)}
    (hw : ∀ p ∈ writes, w.heap.Sound (.cell p.1) ∧ w.heap.Admits p.2) {entries : List Entry}
    (he : ∀ e ∈ entries, ∀ x, e.slot.handle? = some x → w.heap.Sound x) :
    w.Quietly (w.iterateWriting writes entries).1 ∧
      ∀ p ∈ (w.iterateWriting writes entries).2,
        (w.iterateWriting writes entries).1.heap.Admits p.2 := by
  induction hlen : entries.length using Nat.strongRecOn generalizing w entries with
  | ind n ih =>
    rw [iterateWriting]
    split
    · exact ⟨.refl w, fun _ hp ↦ by cases hp⟩
    next shown rest hn =>
      have hlt := Table.length_lt_of_nextShown hn
      obtain ⟨⟨e, hmem, hl⟩, hsub⟩ := exists_load_of_nextShown hn
      have hq := quietly_writeCells hw
      have hrest := ih rest.length (hlen ▸ hlt) (hq.valid hv)
        (fun p hp ↦ ⟨hq.heap_quietly.sound (hw p hp).1, hq.admits (hw p hp).2⟩)
        (fun e he' x hx ↦ hq.heap_quietly.sound (he e (hsub he') x hx)) rfl
      refine ⟨hq.trans hrest.1, fun p hp ↦ ?_⟩
      rcases List.mem_cons.1 hp with rfl | hp
      · exact (hq.trans hrest.1).admits (Heap.admits_of_load hv.heap (he e hmem) hl)
      · exact hrest.2 p hp

end SharedValue.Workspace
