import SharedValue.Proofs.Workspace.Commands

/-!
# Bindings

A name of a table of variables that is bound to a cell stays bound to it: assigning to the name,
deleting it, copying the table of variables and writing to the cell all leave the binding where it
is. Only binding the name again takes it away, or making the whole table of variables anew
(`Workspace.Rebinds`).

* `Attached` says that a name is bound to a cell, and `KeepsPlace` that it stays where it is among
  the names around it.
* One statement keeps both (`attached_step`, `keepsPlace_step`), so a program does that never binds
  the name anew (`attached_run`, `keepsPlace_run`).
* A name that is bound shows the content of its cell and nothing else (`Attached.coherent`).

Together: from the statement that bound a name on, the name and the cell are one variable
(`Reachable.coherent_of_binds`).
-/

namespace SharedValue.Workspace

variable {w w' w'' : Workspace} {name : String} {k : Key} {c : CellId} {may : String → Key → Prop}

/-- Whether a name is bound to a cell. -/
def Attached (w : Workspace) (name : String) (k : Key) (c : CellId) : Prop :=
  ∃ s, w.symbolTables.get? name = some s ∧ (w.heap.table s.table).find? k = some (.binding c)

/-- The keys stored in a table of variables, visible or not, in order. -/
def variableKeys (w : Workspace) (name : String) : List Key :=
  (w.heap.table (w.tableAt (.symbols name))).storedKeys

/-- The stored keys are those of the table behind. -/
theorem variableKeys_eq {s : SymbolTable} (hs : w.symbolTables.get? name = some s) :
    w.variableKeys name = (w.heap.table s.table).storedKeys := by
  rw [variableKeys, tableAt_symbols hs]

theorem variableKeys_withHeap {s : SymbolTable} (hs : w.symbolTables.get? name = some s) (h : Heap) :
    variableKeys { w with heap := h } name = (h.table s.table).storedKeys :=
  variableKeys_eq (w := { w with heap := h }) hs

/-- Two keys that stay where they are with respect to each other. -/
structure KeepsOrder (keys keys' : List Key) (j k : Key) : Prop where
  before : [j, k].Sublist keys → [j, k].Sublist keys'
  after : [k, j].Sublist keys → [k, j].Sublist keys'

theorem KeepsOrder.refl (keys : List Key) (j k : Key) : KeepsOrder keys keys j k := ⟨id, id⟩

/-- An order that is kept twice is kept. -/
theorem KeepsOrder.trans {keys keys' keys'' : List Key} {j k : Key} (h : KeepsOrder keys keys' j k)
    (h' : KeepsOrder keys' keys'' j k) : KeepsOrder keys keys'' j k :=
  ⟨fun hs ↦ h'.before (h.before hs), fun hs ↦ h'.after (h.after hs)⟩

/-- Keys that are added at the end change no order. -/
theorem keepsOrder_of_start {keys keys' : List Key} (hp : keys <+: keys') (j k : Key) :
    KeepsOrder keys keys' j k :=
  ⟨fun h ↦ h.trans hp.sublist, fun h ↦ h.trans hp.sublist⟩

/-- A third key taken out. -/
theorem keepsOrder_erase {keys : List Key} {i j : Key} (hj : i ≠ j) (hk : i ≠ k) :
    KeepsOrder keys (keys.erase i) j k := by
  refine ⟨fun h ↦ ?_, fun h ↦ ?_⟩
  · have hsub := h.erase i
    rwa [List.erase_of_not_mem (by simp [hj, hk])] at hsub
  · have hsub := h.erase i
    rwa [List.erase_of_not_mem (by simp [hj, hk])] at hsub

/-! ### One change -/

/-- A quiet change leaves a binding alone. The table of variables may be given another table only if
it has no bindings. -/
theorem Quiet.attached (hq : w.Quiet w') (hv : w.Valid) (ha : w.Attached name k c) :
    w'.Attached name k c ∧ w.variableKeys name <+: w'.variableKeys name := by
  obtain ⟨s, hs, hf⟩ := ha
  rw [variableKeys_eq hs]
  cases hq with
  | heap hq =>
    have hkeeps := (Heap.Quietly.of_quiet hq).keeps (hv.knows_of_get? hs)
    rw [variableKeys_withHeap hs]
    exact ⟨⟨s, hs, hkeeps.find?_binding hf⟩, hkeeps.keys_grow⟩
  | @repoint n s' t hs' hb ht hnew =>
    have hne : name ≠ n := by
      rintro rfl
      obtain rfl : s = s' := Option.some.inj (hs.symm.trans hs')
      obtain ⟨v, hv'⟩ := (hv.heap.table_wellFormed s.table).find?_of_bindings_eq_zero hb hf
      cases hv'
    have hget : (w.symbolTables.set n { s' with table := t }).get? name = some s := by
      rw [Registry.get?_set, if_neg hne, hs]
    have hkeys : variableKeys
        { w with symbolTables := w.symbolTables.set n { s' with table := t } } name =
          (w.heap.table s.table).storedKeys :=
      variableKeys_eq hget
    rw [hkeys]
    exact ⟨⟨s, hget, hf⟩, List.prefix_rfl⟩
  | _ => exact ⟨⟨s, hs, hf⟩, by rw [← variableKeys_eq hs]; exact List.prefix_rfl⟩

/-- **A quiet change leaves every binding** and adds keys at the end only. -/
theorem Quietly.attached (hq : w.Quietly w') (hv : w.Valid) (ha : w.Attached name k c) :
    w'.Attached name k c ∧ w.variableKeys name <+: w'.variableKeys name := by
  induction hq with
  | refl => exact ⟨ha, List.prefix_rfl⟩
  | tail hq₁ hq ih =>
    have hlast := hq.attached (Quietly.valid hq₁ hv) ih.1
    exact ⟨hlast.1, ih.2.trans hlast.2⟩

/-- A change that is not quiet leaves a binding alone unless it may bind the name anew. It takes at
most one entry out, and never the bound one. -/
theorem Loud.attached (hl : w.Loud may w') (hv : w.Valid) (ha : w.Attached name k c)
    (hmay : ¬ may name k) : w'.Attached name k c ∧ ∀ {j}, j ∈ w'.variableKeys name →
      KeepsOrder (w.variableKeys name) (w'.variableKeys name) j k := by
  obtain ⟨s, hs, hf⟩ := ha
  have ht := hv.knows_of_get? hs
  have hwf := hv.heap.table_wellFormed s.table
  rw [variableKeys_eq hs]
  cases hl with
  | @remove t i v hf' =>
    rw [variableKeys_withHeap hs]
    by_cases hst : s.table = t
    · subst hst
      have hki : k ≠ i := by
        rintro rfl
        rw [hf] at hf'
        cases hf'
      rw [Heap.table_setTable_self (Store.lt_fresh_of_get? ht.get?), Table.storedKeys_remove]
      refine ⟨⟨s, hs, ?_⟩, fun {j} hj ↦ keepsOrder_erase (fun hij ↦ ?_) hki.symm⟩
      · rw [Heap.table_setTable_self (Store.lt_fresh_of_get? ht.get?),
          Table.find?_remove hwf.keys_nodup, if_neg hki, hf]
      · exact hwf.keys_nodup.not_mem_erase (hij ▸ hj)
    · have htable := Heap.table_setTable_ne w.heap hst ((w.heap.table t).remove i)
      rw [htable]
      exact ⟨⟨s, hs, by rw [htable, hf]⟩, fun _ ↦ .refl _ _ _⟩
  | @bind n s' l c' hs' hl hc hu hmay' =>
    rw [variableKeys_withHeap hs]
    by_cases hst : s.table = s'.table
    · -- the table of variables is the same one, and then the key is another
      obtain rfl : name = n := hv.tables_inj (Registry.mem_of_get? hs) (Registry.mem_of_get? hs') hst
      obtain rfl : s = s' := Option.some.inj (hs.symm.trans hs')
      have hkl : k ≠ l.key := by
        rintro rfl
        exact hmay'.elim (fun h ↦ h c hf) hmay
      refine ⟨⟨s, hs, ?_⟩, fun _ ↦ keepsOrder_of_start (Heap.storedKeys_bind ht l c') _ k⟩
      rw [Heap.find?_bind ht, if_neg hkl, hf]
    · have htable := Heap.table_bind_ne w.heap hst l c'
      rw [htable]
      exact ⟨⟨s, hs, by rw [htable, hf]⟩, fun _ ↦ .refl _ _ _⟩
  | create n config hmay' =>
    have hne : name ≠ n := fun he ↦ hmay (he ▸ hmay' k)
    have hget : (w.newSymbolTable n config).symbolTables.get? name = some s := by
      rw [newSymbolTable, Registry.get?_set, if_neg hne, hs]
    have htable : (w.newSymbolTable n config).heap.table s.table = w.heap.table s.table := by
      have hold : s.table ≠ (w.heap.newTable Table.empty).2 :=
        hv.table_ne_fresh (Registry.mem_of_get? hs)
      show (w.heap.newTable Table.empty).1.table s.table = _
      rw [Heap.table_newTable, if_neg hold]
    rw [variableKeys_eq hget, htable]
    exact ⟨⟨s, hget, by rw [htable, hf]⟩, fun _ ↦ .refl _ _ _⟩

/-- What an operation keeps of a binding, and of the names around it that are there afterwards. -/
theorem Effect.attached (he : w.Effect may w') (hv : w.Valid) (ha : w.Attached name k c)
    (hmay : ¬ may name k) : w'.Attached name k c ∧ ∀ {j}, j ∈ w'.variableKeys name →
      KeepsOrder (w.variableKeys name) (w'.variableKeys name) j k := by
  cases he with
  | quiet hq =>
    obtain ⟨ha', hgrow⟩ := hq.attached hv ha
    exact ⟨ha', fun _ ↦ keepsOrder_of_start hgrow _ k⟩
  | @loud w₁ w₂ hq hl hq' hheap hsym =>
    obtain ⟨ha₁, hgrow⟩ := hq.attached hv ha
    obtain ⟨ha₂, horder⟩ := hl.attached (hq.valid hv) ha₁ hmay
    -- nothing is added after an entry was taken out, so what is there now was there all along
    have hsame : w'.variableKeys name = w₂.variableKeys name := by
      obtain ⟨s, hs, -⟩ := ha₂
      rw [variableKeys_eq hs, variableKeys_eq (hsym ▸ hs), hheap]
    rw [hsame]
    exact ⟨((hq'.attached (hl.valid (hq.valid hv))) ha₂).1, fun hj ↦
      (keepsOrder_of_start hgrow _ k).trans (horder hj)⟩

/-! ### One statement -/

/-- So does the end of a command. -/
theorem attached_settle (ha : w.Attached name k c) :
    w.settle.Attached name k c ∧ w.settle.variableKeys name = w.variableKeys name := by
  obtain ⟨s, hs, hf⟩ := ha
  have htable := (agree_settle_of_symbolTable (Registry.mem_of_get? hs)).table
  refine ⟨⟨s, hs, by rw [htable, hf]⟩, ?_⟩
  rw [variableKeys_eq hs, variableKeys_eq (w := w.settle) hs, htable]

/-- **A statement that does not bind a name anew keeps its binding**, and its place among the names
that are there before and after. -/
theorem attached_step (hv : w.Valid) (ha : w.Attached name k c) {s : Statement} {report : Report}
    (hno : ¬ w.Rebinds s.command name k) (hs : w.step s = some (w', report)) :
    w'.Attached name k c ∧ ∀ {j}, j ∈ w'.variableKeys name →
      KeepsOrder (w.variableKeys name) (w'.variableKeys name) j k := by
  obtain ⟨w₁, he, rfl⟩ : ∃ w₁, w.Effect (w.Rebinds s.command) w₁ ∧ w' = w₁.settle :=
    effect_step hv id hs
  obtain ⟨ha₁, horder⟩ := he.attached hv ha hno
  obtain ⟨ha', hkeys⟩ := attached_settle ha₁
  rw [hkeys]
  exact ⟨ha', horder⟩

/-! ### Programs -/

/-- Whether something holds all along a program: before each of its statements, and at its end. -/
def Throughout (P : Workspace → Option Command → Prop) : Workspace → List Statement → Prop
  | w, [] => P w none
  | w, s :: rest => P w (some s.command) ∧
    ∀ w' report, w.step s = some (w', report) → Throughout P w' rest

/-- Whether a program never binds a name anew. -/
def Spares (w : Workspace) (name : String) (k : Key) (program : List Statement) : Prop :=
  w.Throughout (fun w c ↦ ∀ c' ∈ c, ¬ w.Rebinds c' name k) program

/-- Whether a key is stored in a table of variables all along a program. -/
def Remains (w : Workspace) (name : String) (j : Key) (program : List Statement) : Prop :=
  w.Throughout (fun w _ ↦ j ∈ w.variableKeys name) program

/-- A program that spares a name keeps its binding, by induction on its statements. -/
theorem attached_run (hv : w.Valid) (ha : w.Attached name k c) {program : List Statement}
    {reports : List Report} (hno : w.Spares name k program)
    (hr : w.run program = some (w', reports)) :
    w'.Attached name k c ∧ ∀ {j}, w.Remains name j program →
      KeepsOrder (w.variableKeys name) (w'.variableKeys name) j k := by
  induction program generalizing w reports with
  | nil =>
    obtain ⟨rfl, -⟩ := Prod.mk.inj (Option.some.inj hr)
    exact ⟨ha, fun _ ↦ .refl _ _ k⟩
  | cons s rest ih =>
    obtain ⟨w₁, report, reports₁, hs, hrun, -⟩ := run_cons_eq_some_iff.1 hr
    obtain ⟨hnow, hlater⟩ := hno
    obtain ⟨ha₁, horder₁⟩ := attached_step hv ha (hnow _ rfl) hs
    obtain ⟨ha₂, horder₂⟩ := ih (valid_step hv hs) ha₁ (hlater _ _ hs) hrun
    refine ⟨ha₂, fun {j} hj ↦ ?_⟩
    have hrest : w₁.Remains name j rest := hj.2 _ _ hs
    have hmem : j ∈ w₁.variableKeys name := by
      cases rest with
      | nil => exact hrest
      | cons _ _ => exact hrest.1
    exact (horder₁ hmem).trans (horder₂ hrest)

/-! ### How a name comes to be bound -/

/-- Binding a name attaches it. -/
theorem attached_bindKey (hv : w.Valid) {s : SymbolTable} (hs : w.symbolTables.get? name = some s)
    (l : Label) (c : CellId) : (w.bindKey name l c).Attached name l.normalize.key c := by
  obtain ⟨t, ht, hget, -⟩ := exists_unmentioned_separate hv hs
  have hv' := (quietly_separate hv (.symbols name) Heap.admits_of_mem_nil).valid hv
  refine ⟨{ s with table := t }, by rw [bindKey_eq]; exact hget, ?_⟩
  rw [bindKey_eq, ht]
  show (Heap.table _ t).find? _ = _
  rw [Heap.find?_bind (hv'.knows_of_get? hget), if_pos rfl]

/-- Declaring a name binds it to the cell that this gives. -/
theorem attached_declareSymbol (hv : w.Valid) {s : SymbolTable}
    (hs : w.symbolTables.get? name = some s) {source : KeySource} {l : Label}
    (hl : w.symbolLabel name source = .ok l) (hd : (w.declareSymbol name source).2 = .ok c) :
    (w.declareSymbol name source).1.Attached name l.key c := by
  have hnew : ∀ v, w.heap.Admits v → (bindKey { w with heap := (w.heap.newCell v).1 } name l
      (w.heap.newCell v).2).Attached name l.key (w.heap.newCell v).2 := by
    intro v ha
    have hq : w.Quietly { w with heap := (w.heap.newCell v).1 } :=
      quietly_heap (.of_quiet (.newCell ha))
    have hbound := attached_bindKey (hq.valid hv) hs l (w.heap.newCell v).2
    rwa [Label.key_normalize_of_isNormal (isNormal_of_symbolLabel hl)] at hbound
  rw [declareSymbol, hl] at hd ⊢
  dsimp only at hd ⊢
  rw [tableAt_symbols hs] at hd ⊢
  split at hd
  next c' hf =>
    rw [← Except.ok.inj hd]
    exact ⟨s, hs, hf⟩
  next v hf =>
    rw [← Except.ok.inj hd]
    exact hnew v (hv.heap.admits_value hf)
  next hf =>
    rw [← Except.ok.inj hd]
    exact hnew .undefined Heap.admits_undefined

/-- Whether a statement has bound a name to a cell: it declared the name and its report gives the
cell, or it bound the name, without failing, to the cell that a register holds. -/
def Binds (w : Workspace) (s : Statement) (report : Report) (name : String) (k : Key)
    (c : CellId) : Prop :=
  match s.command with
  | .symbols n (.declare source) =>
    n = name ∧ w.variableKey n source = .ok k ∧ report.result = .ok [.value (.reference c)]
  | .symbols n (.bind source register) =>
    n = name ∧ w.variableKey n source = .ok k ∧ w.operand register = .reference c ∧
      report.result = .ok [.done]
  | _ => False

/-- A key of a variable comes from its label. -/
theorem exists_symbolLabel_of_variableKey {source : KeyTerm}
    (hk : w.variableKey name source = .ok k) : ∃ l,
      (w.keySource source).1.symbolLabel name (w.keySource source).2 = .ok l ∧ l.key = k := by
  rw [variableKey] at hk
  exact Except.map_eq_ok_iff.1 hk

/-- A command that declares a name attaches it to the cell that it gives. -/
theorem attached_symbolCommand_declare (hv : w.Valid) {s : SymbolTable}
    (hs : w.symbolTables.get? name = some s) {source : KeyTerm}
    (hk : w.variableKey name source = .ok k)
    (hr : (w.symbolCommand name (.declare source)).2 = .ok [.value (.reference c)]) :
    (w.symbolCommand name (.declare source)).1.Attached name k c := by
  obtain ⟨l, hl, rfl⟩ := exists_symbolLabel_of_variableKey hk
  have hthere : (w.keySource source).1.symbolTables.get? name = some s := by
    rw [symbolTables_keySource, hs]
  have hd := fun c' ↦ attached_declareSymbol (c := c') ((quietly_keySource w source).valid hv)
    hthere hl
  rw [symbolCommand] at hr ⊢
  dsimp only at hr ⊢
  split at hr
  · cases hr
  next w₁ c' heq =>
    rw [heq] at hd
    obtain rfl : c' = c := by simpa [giving] using hr
    exact hd c' rfl

/-- A command that binds a name attaches it to the cell in the register. -/
theorem attached_symbolCommand_bind (hv : w.Valid) {s : SymbolTable}
    (hs : w.symbolTables.get? name = some s) {source : KeyTerm} {register : String}
    (hk : w.variableKey name source = .ok k) (hc : w.operand register = .reference c) :
    (w.symbolCommand name (.bind source register)).1.Attached name k c := by
  obtain ⟨l, hl, rfl⟩ := exists_symbolLabel_of_variableKey hk
  have hthere : (w.keySource source).1.symbolTables.get? name = some s := by
    rw [symbolTables_keySource, hs]
  have hbound := attached_bindKey ((quietly_keySource w source).valid hv) hthere l c
  rw [Label.key_normalize_of_isNormal (isNormal_of_symbolLabel hl)] at hbound
  rw [symbolCommand, hc]
  dsimp only
  rw [bindSymbol, hl]
  exact hbound

/-- A command on a table of variables succeeds only where there is one. -/
theorem exists_symbolTable_of_carryOut {n : String} {sc : SymbolCommand} (hsc : sc.creates = false)
    {os : List Outcome} (hr : w.carryOut (.symbols n sc) = some (w', .ok os)) :
    ∃ s, w.symbolTables.get? n = some s ∧ w.symbolCommand n sc = (w', .ok os) := by
  rw [carryOut, hsc, Bool.false_or] at hr
  split at hr
  next hhas =>
    cases hs : w.symbolTables.get? n with
    | some s => exact ⟨s, rfl, Option.some.inj hr⟩
    | none =>
      rw [Registry.get?_eq_none_iff.1 hs] at hhas
      cases hhas
  · cases hr

/-- **A statement that binds a name leaves it bound.** -/
theorem attached_of_binds (hv : w.Valid) {s : Statement} {report : Report}
    (hs : w.step s = some (w', report)) (hb : w.Binds s report name k c) :
    w'.Attached name k c := by
  obtain ⟨command, into⟩ := s
  rw [step] at hs
  split at hs
  · cases hs
  next w₁ r heq =>
    obtain ⟨rfl, rfl⟩ := Prod.mk.inj (Option.some.inj hs)
    have hdelivered : w₁.Attached name k c → (w₁.deliver into r).Attached name k c := by
      intro ha
      rw [deliver.eq_def]
      split <;> exact ha
    refine (attached_settle (hdelivered ?_)).1
    cases command with
    | symbols n sc =>
      cases sc with
      | declare source =>
        obtain ⟨rfl, hk, rfl⟩ := hb
        obtain ⟨s, hs, hcommand⟩ := exists_symbolTable_of_carryOut rfl heq
        have ha := attached_symbolCommand_declare hv hs hk (c := c) (by rw [hcommand])
        rwa [hcommand] at ha
      | bind source register =>
        obtain ⟨rfl, hk, hc, rfl⟩ := hb
        obtain ⟨s, hs, hcommand⟩ := exists_symbolTable_of_carryOut rfl heq
        have ha := attached_symbolCommand_bind hv hs hk hc
        rwa [hcommand] at ha
      | _ => exact hb.elim
    | _ => exact hb.elim

/-! ### What a bound name shows -/

/-- Whether a name and a cell are one variable. -/
structure Coherent (w : Workspace) (name : String) (k : Key) (c : CellId) : Prop where
  attached : w.Attached name k c
  /-- Declaring the name gives the cell and changes nothing. -/
  declareSymbol_eq : ∀ {source : KeySource} {l : Label}, w.symbolLabel name source = .ok l →
    l.key = k → w.declareSymbol name source = (w, .ok c)
  /-- The name is visible exactly when the cell is not undefined. -/
  containsSymbol_eq : ∀ {source : KeySource} {l : Label}, w.symbolLabel name source = .ok l →
    l.key = k → w.containsSymbol name source = .ok (decide (w.heap.cell c ≠ .undefined))
  contains_eq : w.heap.contains (w.tableAt (.symbols name)) k =
    decide (w.heap.cell c ≠ .undefined)
  /-- The array behind the table of variables gives the content of the cell. -/
  get?_eq : w.heap.get? (w.tableAt (.symbols name)) k =
    if w.heap.cell c = .undefined then none else some (w.heap.cell c)
  /-- The elements of that array have the name with the content of the cell, and with nothing
  else. -/
  mem_pairs_iff : ∀ {v : Value}, (k, v) ∈ w.heap.pairs (w.tableAt (.symbols name)) ↔
    v = w.heap.cell c ∧ v ≠ .undefined
  /-- A copy of that array has the same elements. -/
  pairs_copySymbols : (w.copySymbols name).1.heap.pairs (w.copySymbols name).2 =
    w.heap.pairs (w.tableAt (.symbols name))

/-- **A name that is bound shows the content of its cell and nothing else.** -/
theorem Attached.coherent (ha : w.Attached name k c) (hv : w.Valid) : w.Coherent name k c := by
  obtain ⟨s, hs, hf⟩ := ha
  have hwf := hv.heap.table_wellFormed s.table
  have hk : k.normalize = k :=
    Key.normalize_of_isNormal (hwf.keys_normal k (Table.mem_storedKeys_of_find? hf))
  have hget : w.heap.get? (w.tableAt (.symbols name)) k =
      if w.heap.cell c = .undefined then none else some (w.heap.cell c) := by
    rw [tableAt_symbols hs, Heap.get?, Table.get?_eq_bind, hk, hf, ← Slot.load_binding]
    rfl
  have hcontains : w.heap.contains (w.tableAt (.symbols name)) k =
      decide (w.heap.cell c ≠ .undefined) := by
    rw [Heap.contains, Table.contains_eq_isSome, ← Heap.get?, hget]
    by_cases hu : w.heap.cell c = .undefined <;> simp [hu]
  refine ⟨⟨s, hs, hf⟩, fun hl hlk ↦ ?_, fun hl hlk ↦ ?_, hcontains, hget, fun {v} ↦ ?_,
    Heap.pairs_copyArray hv.heap _⟩
  · subst hlk
    rw [declareSymbol, hl]
    dsimp only
    rw [tableAt_symbols hs, hf]
  · subst hlk
    rw [containsSymbol, hl, ← hcontains]
    rfl
  · rw [tableAt_symbols hs, Heap.pairs, Table.mem_pairs_iff hwf.keys_nodup, hf, Option.bind_some,
      Slot.load_binding]
    split
    next hu => simp [hu]
    next hu =>
      rw [Option.some.injEq]
      exact ⟨fun he ↦ ⟨he.symm, he ▸ hu⟩, fun h ↦ h.1.symm⟩

/-! ### From the statement that binds a name on -/

/-- **A binding stays attached and coherent.** From a statement that binds a name on, and as long as
no statement binds it anew, the name and the cell are one variable, and the name keeps its place
among the names that remain. -/
theorem Reachable.binding_stays (hw : w.Reachable) {s : Statement} {report : Report}
    {w₁ : Workspace} (hs : w.step s = some (w₁, report)) (hb : w.Binds s report name k c)
    {program : List Statement} {reports : List Report} (hno : w₁.Spares name k program)
    (hr : w₁.run program = some (w', reports)) :
    w'.Coherent name k c ∧ ∀ {j}, w₁.Remains name j program →
      KeepsOrder (w₁.variableKeys name) (w'.variableKeys name) j k := by
  have hv₁ := valid_step hw.valid hs
  obtain ⟨ha, horder⟩ := attached_run hv₁ (attached_of_binds hw.valid hs hb) hno hr
  exact ⟨ha.coherent (valid_run hv₁ hr), horder⟩

/-- Makes a table of variables with one name that is not bound. -/
def assigning : List Statement :=
  [⟨.symbols "s" (.create {}), none⟩, ⟨.array (.constant (.int 7)), some "x"⟩,
    ⟨.symbols "s" (.set (.key (.int 1)) "x"), none⟩]

/-- Where that ends. -/
def oneVariable : Workspace := ((empty.run assigning).map (·.1)).getD empty

/-- Declares a second name. -/
def declaring : Statement := ⟨.symbols "s" (.declare (.key (.int 2))), some "c"⟩

/-- Writes to the cell, deletes the name and assigns to it. -/
def rewriting : List Statement :=
  [⟨.array (.setCell "c" "x"), none⟩, ⟨.symbols "s" (.unset (.key (.int 2))), none⟩,
    ⟨.symbols "s" (.set (.key (.int 2)) "x"), none⟩]

/-- The declared name is spared, so its binding outlasts a deletion, and the cell has what was
assigned afterwards. -/
theorem Reachable.binding_stays_declaring : ∃ w₁ report w' reports,
    oneVariable.Reachable ∧ oneVariable.step declaring = some (w₁, report) ∧
      oneVariable.Binds declaring report "s" (.int 2) ⟨0⟩ ∧ w₁.Spares "s" (.int 2) rewriting ∧
      w₁.run rewriting = some (w', reports) ∧ w'.Coherent "s" (.int 2) ⟨0⟩ ∧
      w'.heap.cell ⟨0⟩ = .int 7 := by
  have hreach : oneVariable.Reachable := ⟨assigning, _, rfl⟩
  have hspares : ∀ w : Workspace, w.Spares "s" (.int 2) rewriting := by
    refine fun w ↦ ⟨?_, fun w₁ _ _ ↦ ⟨?_, fun w₂ _ _ ↦ ⟨?_, fun w₃ _ _ ↦ ?_⟩⟩⟩
    all_goals
      intro c hc
      cases hc
      try exact id
  refine ⟨_, _, _, _, hreach, rfl, ⟨rfl, rfl, rfl⟩, hspares _, rfl, ?_, rfl⟩
  -- the report is known once the step is evaluated
  exact (hreach.binding_stays (s := declaring) rfl (by exact ⟨rfl, rfl, rfl⟩) (hspares _) rfl).1

end SharedValue.Workspace
