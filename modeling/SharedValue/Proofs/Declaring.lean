import SharedValue.Proofs.Binding
import SharedValue.Proofs.Readings

/-!
# Declaring a variable

Declaring binds a name to a cell, so that a frame can share the variable. The value that the name
had moves into the cell, an absent name gets an undefined cell, and a name that is bound already
keeps its cell. A bound slot is read by another rule than a plain one, but it shows what the plain
one showed; and since the cells and resources through which names are looked up stay as they are,
so does every reading of the table of variables (`Reachable.declare_shows_same`).

The two rules part at a plain slot that was never written. It shows null, and a bound slot with an
undefined cell shows nothing: declaring hides such a name (`Reachable.hidden_of_declare`).
-/

namespace SharedValue

/-- Whether the values that a key is given by are there. -/
def KeySource.IsIn (h : Heap) : KeySource → Prop
  | .value v => h.Admits v
  | .label _ => True

namespace Heap

variable {h h' h'' : Heap} {v : Value} {c d : CellId} {t : TableId}

/-! ### The same cells and resources -/

/-- Whether the cells that were there and the resources are as they were. -/
structure SameContents (h h' : Heap) : Prop where
  get?_cell : ∀ {i v}, h.cells.get? i = some v → h'.cells.get? i = some v
  resources : h'.resources = h.resources

namespace SameContents

theorem refl (h : Heap) : h.SameContents h := ⟨id, rfl⟩

theorem trans (hs : h.SameContents h') (hs' : h'.SameContents h'') : h.SameContents h'' :=
  ⟨fun hc ↦ hs'.get?_cell (hs.get?_cell hc), hs'.resources.trans hs.resources⟩

/-- A cell that was there has what it had. -/
theorem cell_eq (hs : h.SameContents h') (hc : h.Sound (.cell c)) : h'.cell c = h.cell c := by
  obtain ⟨v, hv⟩ := hc
  rw [cell, cell, hs.get?_cell hv, hv]

end SameContents

/-- A new cell leaves the others. -/
theorem sameContents_newCell (h : Heap) (v : Value) : h.SameContents (h.newCell v).1 where
  get?_cell := fun hi ↦ by
    rw [newCell, Store.get?_add, if_neg (Nat.ne_of_lt (Store.lt_fresh_of_get? hi)), hi]
  resources := rfl

theorem sameContents_newTable (h : Heap) (T : Table) : h.SameContents (h.newTable T).1 :=
  ⟨id, rfl⟩

/-- Binding a slot writes to no cell. -/
theorem sameContents_bind (h : Heap) (t : TableId) (l : Label) (c : CellId) :
    h.SameContents (h.bind t l c) := by
  rw [bind]
  dsimp only
  split <;> exact ⟨id, rfl⟩

theorem cell_newCell_self (h : Heap) (v : Value) : (h.newCell v).1.cell (h.newCell v).2 = v := by
  rw [cell, newCell, Store.get?_add, if_pos rfl]
  rfl

/-- A chain of references leads to the same end. -/
theorem SameContents.chase_eq (hs : h.SameContents h') (hv : h.Valid) (ha : h.Admits v)
    (limit : Nat) : h'.chase limit v = h.chase limit v := by
  induction limit generalizing v with
  | zero => cases v <;> rfl
  | succ limit ih =>
    cases v with
    | reference c =>
      rw [chase, chase, hs.cell_eq (admits_reference_iff.1 ha)]
      exact ih (hv.admits_cell c)
    | _ => rfl

/-- References are followed to the same end. -/
theorem SameContents.dereference_eq (hs : h.SameContents h') (hv : h.Valid) (ha : h.Admits v)
    (limit : Nat) : h'.dereference limit v = h.dereference limit v := by
  rw [dereference, dereference, hs.chase_eq hv ha]

/-- A value is the same key. -/
theorem SameContents.keyOfValue_eq (hs : h.SameContents h') (v : Value) :
    h'.keyOfValue v = h.keyOfValue v := by
  cases v with
  | resource r =>
    show Except.ok (Label.int (h'.resourceHandle r)) = _
    rw [resourceHandle, hs.resources]
    rfl
  | _ => rfl

/-- A key that is there is coerced to the same label. -/
theorem SameContents.label?_eq (hs : h.SameContents h') (hv : h.Valid) {k : KeySource}
    (hk : k.IsIn h) (limit : Nat) : k.label? h' limit = k.label? h limit := by
  cases k with
  | label l => rfl
  | value v =>
    have hkey : h'.keyOfValue = h.keyOfValue := funext hs.keyOfValue_eq
    rw [KeySource.label?, KeySource.label?, coerceKey, coerceKey, hs.dereference_eq hv hk, hkey]

/-! ### The same pairs -/

/-- What is looked up is a matter of the pairs. -/
theorem get?_eq_of_pairs_eq {t' : TableId} (hv : h.Valid) (hv' : h'.Valid)
    (hp : h'.pairs t' = h.pairs t) (k : Key) : h'.get? t' k = h.get? t k := by
  refine Option.ext fun v ↦ ?_
  rw [hv'.get?_eq_some_iff, hv.get?_eq_some_iff, hp]

/-- A key whose slot stays as it is shows the same. -/
theorem SameContents.load_eq (hs : h.SameContents h') (hv : h.Valid) (t : TableId) (k : Key) :
    ((h.table t).find? k).bind (·.load h'.cell) = ((h.table t).find? k).bind (·.load h.cell) := by
  cases hf : (h.table t).find? k with
  | none => rfl
  | some s =>
    cases s with
    | value v => rfl
    | binding c =>
      rw [Option.bind_some, Option.bind_some, Slot.load_binding, Slot.load_binding,
        hs.cell_eq (hv.sound_binding hf)]

/-- The same table shows the same pairs. -/
theorem SameContents.pairs_eq (hs : h.SameContents h') (hv : h.Valid) {t' : TableId}
    (htable : h'.table t' = h.table t) : h'.pairs t' = h.pairs t := by
  rw [pairs, pairs, htable]
  exact Table.pairs_eq_of_start (hv.table_wellFormed t).keys_nodup List.prefix_rfl (hs.load_eq hv t)

/-- **Binding a key to a cell that shows what the key showed** changes nothing that is shown. -/
theorem pairs_bind (hv' : (h.bind t l c).Valid) (ht : h.Knows t)
    (hc : (Slot.binding c).load h.cell = ((h.table t).find? l.key).bind (·.load h.cell)) :
    (h.bind t l c).pairs t = h.pairs t := by
  have hcell : (h.bind t l c).cell = h.cell := by
    rw [bind]
    dsimp only
    split <;> rfl
  refine Table.pairs_eq_of_start (hv'.table_wellFormed t).keys_nodup (storedKeys_bind ht l c) ?_
  intro k
  rw [hcell, find?_bind ht]
  split
  next hk => rw [hk, ← hc]; rfl
  · rfl

end Heap

namespace Workspace

variable {w w' : Workspace} {s : String} {T : SymbolTable} {k : KeySource} {l : Label} {c : CellId}
  {v : Value}

/-! ### Tables of variables that show the same -/

/-- Whether all readings of a table of variables are as they were: the elements and their order,
their number, and for every name whether it is visible and what it gives. -/
structure ShowsSame (w w' : Workspace) (s : String) : Prop where
  pairs_eq : w'.heap.pairs (w'.tableAt (.symbols s)) = w.heap.pairs (w.tableAt (.symbols s))
  len_eq : w'.heap.len (w'.tableAt (.symbols s)) = w.heap.len (w.tableAt (.symbols s))
  containsSymbol_eq : ∀ {k : KeySource}, k.IsIn w.heap →
    w'.containsSymbol s k = w.containsSymbol s k
  getSymbol_eq : ∀ {k : KeySource}, k.IsIn w.heap → w'.getSymbol s k = w.getSymbol s k

/-- **All readings of a table of variables follow from its pairs**, its settings, and the cells and
resources through which the names are looked up. -/
theorem showsSame_of_pairs_eq (hv : w.Valid) (hv' : w'.Valid)
    (hsame : w.heap.SameContents w'.heap) (hconfig : w'.configOf s = w.configOf s)
    (hp : w'.heap.pairs (w'.tableAt (.symbols s)) = w.heap.pairs (w.tableAt (.symbols s))) :
    w.ShowsSame w' s := by
  have hget := Heap.get?_eq_of_pairs_eq hv.heap hv'.heap hp
  have hlabel : ∀ {k : KeySource}, k.IsIn w.heap → w'.symbolLabel s k = w.symbolLabel s k := by
    intro k hk
    rw [symbolLabel, symbolLabel, hconfig, hsame.label?_eq hv.heap hk]
  refine ⟨hp, by rw [hv'.heap.len_eq, hv.heap.len_eq, hp], fun hk ↦ ?_, fun hk ↦ ?_⟩
  · have hcontains : ∀ key, w'.heap.contains (w'.tableAt (.symbols s)) key =
        w.heap.contains (w.tableAt (.symbols s)) key := fun key ↦ by
      rw [Bool.eq_iff_iff, Heap.contains_iff, Heap.contains_iff, hget]
    simp only [containsSymbol, hlabel hk, hcontains]
  · rw [getSymbol, getSymbol, hlabel hk]
    cases w.symbolLabel s _ with
    | error e => rfl
    | ok l =>
      simp only [bind, Except.bind, hget]
      cases hg : w.heap.get? (w.tableAt (.symbols s)) l.key with
      | none => rfl
      | some v =>
        simp only [hconfig, hsame.dereference_eq hv.heap (Heap.admits_get? hv.heap hg)]

/-! ### Declaring -/

/-- The settings stay with a table of variables that has been given another table. -/
theorem configOf_eq (hT : w.symbolTables.get? s = some T) : w.configOf s = T.config := by
  rw [configOf, hT]
  rfl

/-- A name bound to a cell that shows what the name showed, after the table of variables has been
given another table with the same slots. -/
theorem showsSame_bind {t : TableId} (hv : w.Valid) (hT : w.symbolTables.get? s = some T)
    (hsame : w.heap.SameContents w'.heap) (htable : w'.heap.table t = w.heap.table T.table)
    (hv' : w'.Valid) (hT' : w'.symbolTables.get? s = some { T with table := t })
    (hbound : Valid { w' with heap := w'.heap.bind t l c })
    (hload : (Slot.binding c).load w'.heap.cell =
      ((w.heap.table T.table).find? l.key).bind (·.load w.heap.cell)) :
    w.ShowsSame { w' with heap := w'.heap.bind t l c } s := by
  have hall := hsame.trans (Heap.sameContents_bind w'.heap t l c)
  have hT'' : Registry.get? { w' with heap := w'.heap.bind t l c }.symbolTables s =
      some { T with table := t } := hT'
  refine showsSame_of_pairs_eq hv hbound hall ?_ ?_
  · rw [configOf_eq hT, configOf_eq hT'']
  · rw [tableAt_symbols hT, tableAt_symbols hT'', ← hsame.pairs_eq hv.heap htable]
    refine Heap.pairs_bind hbound.heap (hv'.knows_of_get? hT') ?_
    rw [hload, ← hsame.load_eq hv.heap, htable]

/-- Separating a table of variables writes to no cell. -/
theorem sameContents_separate (hT : w.symbolTables.get? s = some T) :
    w.heap.SameContents (w.separate (.symbols s) []).1.heap := by
  rcases separate_symbols_cases hT [] with he | ⟨T', he⟩ <;> rw [he]
  · exact .refl w.heap
  · exact w.heap.sameContents_newTable T'

/-- A name bound to a new cell, which holds what the name showed. -/
theorem showsSame_bindKey {w₁ : Workspace} (hv : w.Valid) (hT : w.symbolTables.get? s = some T)
    (hv₁ : w₁.Valid) (hT₁ : w₁.symbolTables.get? s = some T)
    (hsame : w.heap.SameContents w₁.heap) (htable : w₁.heap.table T.table = w.heap.table T.table)
    (hc : w₁.heap.Sound (.cell c)) (hl : l.key.IsNormal)
    (hload : (Slot.binding c).load w₁.heap.cell =
      ((w.heap.table T.table).find? l.key).bind (·.load w.heap.cell)) :
    w.ShowsSame (w₁.bindKey s l c) s := by
  have hbound : w₁.Effect (fun _ _ ↦ True) (w₁.bindKey s l c) :=
    effect_bindKey hv₁ hT₁ l hc (.inr trivial)
  have hv' := hbound.valid hv₁
  have hsep := sameContents_separate hT₁
  have htable₂ := table_separate hv₁ (.symbols s) Heap.admits_of_mem_nil
  obtain ⟨t, ht, hget, -⟩ := exists_unmentioned_separate hv₁ hT₁
  rw [ht, tableAt_symbols hT₁, htable] at htable₂
  rw [bindKey_eq, ht] at hv' ⊢
  refine showsSame_bind hv hT (hsame.trans hsep) htable₂
    ((quietly_separate hv₁ (.symbols s) Heap.admits_of_mem_nil).valid hv₁) hget hv' ?_
  rw [Label.key_normalize_of_isNormal hl, ← hload, Slot.load_binding, Slot.load_binding,
    hsep.cell_eq hc]

/-- Binding a name leaves the content of its cell. -/
theorem cell_bindKey (hT : w.symbolTables.get? s = some T) (l : Label)
    (hc : w.heap.Sound (.cell c)) : (w.bindKey s l c).heap.cell c = w.heap.cell c := by
  rw [bindKey_eq]
  exact ((sameContents_separate hT).trans (Heap.sameContents_bind _ _ _ c)).cell_eq hc

/-- A name that is bound to a new cell has what was put there. -/
theorem cell_bindKey_newCell (hT : w.symbolTables.get? s = some T) (l : Label) (v : Value) :
    (bindKey { w with heap := (w.heap.newCell v).1 } s l (w.heap.newCell v).2).heap.cell
      (w.heap.newCell v).2 = v := by
  have hT₁ : Registry.get? { w with heap := (w.heap.newCell v).1 }.symbolTables s = some T := hT
  exact (cell_bindKey hT₁ l (Heap.sound_newCell v)).trans (w.heap.cell_newCell_self v)

/-- Binding a name to a new cell that shows what the name showed changes nothing that is read. -/
theorem showsSame_bindKey_newCell (hv : w.Valid) (hT : w.symbolTables.get? s = some T)
    (hl : l.key.IsNormal) (hadm : w.heap.Admits v)
    (hload : (if v = .undefined then none else some v) =
      ((w.heap.table T.table).find? l.key).bind (·.load w.heap.cell)) :
    w.ShowsSame (bindKey { w with heap := (w.heap.newCell v).1 } s l (w.heap.newCell v).2) s := by
  have hq : w.Quietly { w with heap := (w.heap.newCell v).1 } :=
    quietly_heap (.of_quiet (.newCell hadm))
  refine showsSame_bindKey hv hT (hq.valid hv) hT (w.heap.sameContents_newCell v) rfl
    (Heap.sound_newCell v) hl ?_
  rw [Slot.load_binding, w.heap.cell_newCell_self v, hload]

/-- **Declaring a variable changes nothing that is read**, unless its slot is a plain one that was
never written. The cell that it gives holds what the table of variables showed for the name, and is
undefined if it showed nothing. -/
theorem Reachable.declare_shows_same (hw : w.Reachable) (hT : w.symbolTables.get? s = some T)
    (hl : w.symbolLabel s k = .ok l)
    (hwritten : (w.heap.table T.table).find? l.key ≠ some (.value .undefined)) :
    ∃ c, (w.declareSymbol s k).2 = .ok c ∧
      (w.declareSymbol s k).1.heap.cell c = (w.heap.get? T.table l.key).getD .undefined ∧
      w.ShowsSame (w.declareSymbol s k).1 s := by
  have hv := hw.valid
  have hn := isNormal_of_symbolLabel hl
  rw [Heap.get?, Table.get?_eq_bind, Key.normalize_of_isNormal hn, declareSymbol, hl,
    tableAt_symbols hT]
  dsimp only
  cases hf : (w.heap.table T.table).find? l.key with
  | none =>
    refine ⟨_, rfl, cell_bindKey_newCell hT l .undefined, ?_⟩
    refine showsSame_bindKey_newCell hv hT hn Heap.admits_undefined ?_
    rw [hf, if_pos rfl]
    rfl
  | some slot =>
    cases slot with
    | value v =>
      have hv' : v ≠ .undefined := fun he ↦ hwritten (he ▸ hf)
      have hshown : v.shown = v := by
        cases v <;> first | rfl | exact absurd rfl hv'
      rw [Option.bind_some, Slot.load, hshown]
      refine ⟨_, rfl, cell_bindKey_newCell hT l v, ?_⟩
      refine showsSame_bindKey_newCell hv hT hn (hv.heap.admits_value hf) ?_
      rw [hf, if_neg hv', Option.bind_some, Slot.load, hshown]
    | binding c =>
      refine ⟨c, rfl, ?_, ⟨rfl, rfl, fun _ ↦ rfl, fun _ ↦ rfl⟩⟩
      rw [Option.bind_some, Slot.load_binding]
      by_cases hu : w.heap.cell c = .undefined
      · rw [if_pos hu, hu]
        rfl
      · rw [if_neg hu]
        rfl

/-- The plain value of a name moves into a cell, and the name goes on showing it. -/
theorem Reachable.declare_shows_same_mixingEnd :
    mixingEnd.Reachable ∧ mixingEnd.symbolTables.get? "s" = some ⟨⟨0⟩, {}⟩ ∧
      mixingEnd.symbolLabel "s" (.label (Label.int 1)) = .ok (Label.int 1) ∧
      (mixingEnd.heap.table ⟨0⟩).find? (.int 1) ≠ some (.value .undefined) ∧
      (∃ c, (mixingEnd.declareSymbol "s" (.label (Label.int 1))).2 = .ok c ∧
        (mixingEnd.declareSymbol "s" (.label (Label.int 1))).1.heap.cell c = .int 7) ∧
      mixingEnd.ShowsSame (mixingEnd.declareSymbol "s" (.label (Label.int 1))).1 "s" := by
  have hT : mixingEnd.symbolTables.get? "s" = some ⟨⟨0⟩, {}⟩ := rfl
  have hl : mixingEnd.symbolLabel "s" (.label (Label.int 1)) = .ok (Label.int 1) := rfl
  have hf : (mixingEnd.heap.table ⟨0⟩).find? (.int 1) ≠ some (.value .undefined) := by
    rw [show (mixingEnd.heap.table ⟨0⟩).find? (.int 1) = some (.value (.int 7)) from rfl]
    exact fun he ↦ nomatch he
  obtain ⟨c, hc, hcell, hshows⟩ := reachable_mixingEnd.declare_shows_same hT hl hf
  exact ⟨reachable_mixingEnd, hT, hl, hf, ⟨c, hc, hcell⟩, hshows⟩

/-- **A name whose slot was never written is hidden by declaring it**: the slot showed null, and
shows nothing once its value has moved into a cell. -/
theorem Reachable.hidden_of_declare (hw : w.Reachable) (hT : w.symbolTables.get? s = some T)
    (hl : w.symbolLabel s k = .ok l)
    (hf : (w.heap.table T.table).find? l.key = some (.value .undefined)) :
    w.heap.get? T.table l.key = some .null ∧
      (w.declareSymbol s k).1.heap.get? ((w.declareSymbol s k).1.tableAt (.symbols s)) l.key =
        none := by
  have hv := hw.valid
  have heffect : w.Effect (fun _ _ ↦ True) (w.declareSymbol s k).1 := effect_declareSymbol hv hT k
  have hnew : (w.declareSymbol s k).2 = .ok (w.heap.newCell .undefined).2 ∧
      (w.declareSymbol s k).1.heap.cell (w.heap.newCell .undefined).2 = .undefined := by
    rw [declareSymbol, hl, tableAt_symbols hT]
    dsimp only
    rw [hf]
    exact ⟨rfl, cell_bindKey_newCell hT l .undefined⟩
  have hattached := attached_declareSymbol hv hT hl hnew.1
  constructor
  · rw [Heap.get?, Table.get?_eq_bind, Key.normalize_of_isNormal (isNormal_of_symbolLabel hl), hf]
    rfl
  · rw [(hattached.coherent (heffect.valid hv)).get?_eq, if_pos hnew.2]

/-- So declaring does change what is read. -/
theorem not_declare_shows_same :
    ¬ ∀ (w : Workspace) (s : String) (T : SymbolTable) (k : KeySource) (l : Label), w.Reachable →
      w.symbolTables.get? s = some T → w.symbolLabel s k = .ok l →
        w.ShowsSame (w.declareSymbol s k).1 s := by
  intro h
  have hshows := h mixingEnd "s" ⟨⟨0⟩, {}⟩ (.label (Label.ofStr ⟨[117], .interned⟩))
    (Label.ofStr ⟨[117], .interned⟩) reachable_mixingEnd rfl rfl
  have hlen : 2 = 3 := hshows.len_eq
  exact absurd hlen (by decide)

end Workspace

end SharedValue
