import SharedValue.Proofs.Acyclic.Programs

/-!
# No array contains itself

Every operation of a program keeps the heap acyclic: changes of arrays because nothing that is held
leads to where they write, the others because they gain nothing, or gain elements only in a table
that they have just made. So in every workspace that a program leads to, no array can be come to
from itself through elements alone (`Reachable.acyclic`). A way that passes through a cell or an
object can lead round.
-/

namespace SharedValue

namespace Heap

variable {h h' : Heap}

/-- A heap with the same tables is as acyclic. -/
theorem Acyclic.of_tables (ha : h.Acyclic) (ht : h'.tables = h.tables) : h'.Acyclic := by
  refine ha.of_child fun {y z} hc ↦ ?_
  obtain ⟨k, hk⟩ := hc
  rw [table, ht] at hk
  exact ⟨k, hk⟩

/-- What is left after a release is as acyclic. -/
theorem Acyclic.of_partOf (ha : h.Acyclic) (hp : h'.PartOf h) : h'.Acyclic := by
  refine ha.of_child fun {y z} hc ↦ ?_
  obtain ⟨k, hk⟩ := hc
  obtain ⟨T, hT⟩ := knows_of_find? hk
  refine ⟨k, ?_⟩
  rwa [table, hp.table hT, ← hT, ← table]

/-- Making a text makes no table. -/
theorem tables_newStr (h : Heap) (b : Bytes) : (h.newStr b).1.tables = h.tables := by
  rw [newStr]
  split <;> rfl

/-- Writing to cells makes no circle of arrays. -/
theorem Acyclic.setCells (ha : h.Acyclic) (writes : List (CellId × Value)) :
    (writes.foldl (fun h p ↦ h.setCell p.1 p.2) h).Acyclic := by
  induction writes generalizing h with
  | nil => exact ha
  | cons p rest ih => exact ih (ha.of_tables rfl)

end Heap

namespace Workspace

variable {w w' : Workspace} {name : String} {t : TableId}

/-! ### Operations on arrays, cells and objects -/

/-- What is made of a result makes no circle. -/
private theorem acyclic_of_map {x : Option (Workspace × Except ValueError (List Outcome))}
    (hx : ∀ w₁ r₁, x = some (w₁, r₁) → w₁.heap.Acyclic) {r : Except Failure (List Outcome)}
    (hr : x.map (fun (w, r) ↦ (w, result id r)) = some (w', r)) : w'.heap.Acyclic := by
  obtain ⟨⟨w₁, r₁⟩, hx₁, he⟩ := Option.map_eq_some_iff.1 hr
  obtain ⟨rfl, -⟩ := Prod.mk.inj he
  exact hx w₁ r₁ hx₁

theorem acyclic_newStr (ha : w.heap.Acyclic) (b : Bytes) : (w.newStr b).1.heap.Acyclic :=
  ha.of_tables (w.heap.tables_newStr b)

/-- Neither does making a constant. -/
theorem acyclic_construct_constant (ha : w.heap.Acyclic) (c : Constant) :
    (w.construct c.literal).1.heap.Acyclic := by
  cases c with
  | string b =>
    rw [Constant.literal, construct]
    exact acyclic_newStr ha b
  | resource n kind =>
    rw [Constant.literal, construct]
    exact (acyclic_newStr ha kind).of_tables rfl
  | _ =>
    rw [Constant.literal, construct]
    exact ha

/-- Writing to the properties of an object is writing to an array that nothing borrows. -/
theorem acyclic_insert_properties (ha : w.heap.Acyclic) (hv : w.Valid) {v : Value}
    (hm : v ∈ w.held) (o : ObjectId) (k : KeySource) :
    (w.insert (.properties o) k v).1.heap.Acyclic := by
  have hp : w.Entered [] (.properties o) := trivial
  rw [insert]
  split
  · exact ha
  · exact acyclic_storeKey ha hv hp (hv.admits_held hm).of_mem_singleton hm _

/-- Taking out makes no circle. -/
theorem acyclic_unset (ha : w.heap.Acyclic) (hv : w.Valid) (p : Place) (k : KeySource) :
    (w.unset p k).1.heap.Acyclic := by
  rw [unset]
  split
  · exact ha
  · exact acyclic_unsetKey ha hv p _

/-- **An operation on arrays, cells and objects keeps a heap acyclic.** -/
theorem acyclic_arrayCommand (ha : w.heap.Acyclic) (hv : w.Valid) {c : ArrayCommand}
    {r : Except Failure (List Outcome)} (hr : w.arrayCommand c = some (w', r)) :
    w'.heap.Acyclic := by
  cases c with
  | constant c =>
    have hc := acyclic_construct_constant ha c
    rw [arrayCommand] at hr
    split at hr <;> next heq =>
      rw [heq] at hc
      exact acyclic_of_some hr hc
  | copy name => exact acyclic_of_some hr ha
  | list names =>
    rw [arrayCommand] at hr
    split at hr
    · refine acyclic_of_some hr (ha.newList hv.heap fun v hmem ↦ ?_)
      obtain ⟨name, -, rfl⟩ := List.mem_map.1 hmem
      exact admits_operand hv name
    · cases hr
  | cell name => exact acyclic_of_some hr (ha.of_tables rfl)
  | object className name =>
    rw [arrayCommand] at hr
    split at hr
    · exact acyclic_of_some hr ((acyclic_newStr ha className).of_tables rfl)
    · exact acyclic_of_some hr ha
  | edit target e => exact acyclic_of_map (fun _ _ hx ↦ acyclic_editTarget ha hv hx) hr
  | get target k =>
    have hl := acyclic_lookIn (acyclic_readingTarget ha target) (w.readingTarget target).2 k
      fun h t k ↦ h.get? t k
    rw [arrayCommand] at hr
    dsimp only at hr
    split at hr <;> next heq =>
      rw [heq] at hl
      exact acyclic_of_some hr hl
  | contains target k =>
    have hl := acyclic_lookIn (acyclic_readingTarget ha target) (w.readingTarget target).2 k
      fun h t k ↦ h.contains t k
    exact acyclic_of_some hr hl
  | getProperty name k =>
    rw [arrayCommand] at hr
    split at hr
    next o _ =>
      have hl := acyclic_lookIn ha (.ok (w.heap.properties o)) k fun h t k ↦ h.get? t k
      split at hr <;> next heq =>
        rw [heq] at hl
        exact acyclic_of_some hr hl
    · exact acyclic_of_some hr ha
  | setProperty name k operand =>
    rw [arrayCommand] at hr
    split at hr
    next o _ =>
      have hva := admits_operand hv operand
      have hq := quietly_keySource (w.hold [w.operand operand]) k
      have hm := hq.held_subset (List.mem_append_right _ (List.mem_singleton_self _))
      have hins := acyclic_insert_properties
        (acyclic_keySource (w := w.hold [w.operand operand]) ha k)
        (hq.valid ((quietly_hold hva.of_mem_singleton).valid hv)) hm o
        (keySource (w.hold [w.operand operand]) k).2
      dsimp only at hr
      split at hr <;> next heq =>
        rw [heq] at hins
        exact acyclic_of_some hr hins
    · exact acyclic_of_some hr ha
  | unsetProperty name k =>
    rw [arrayCommand] at hr
    split at hr
    next o _ =>
      exact acyclic_of_some hr (acyclic_unset (acyclic_keySource ha k)
        ((quietly_keySource w k).valid hv) (.properties o) _)
    · exact acyclic_of_some hr ha
  | properties name =>
    rw [arrayCommand] at hr
    split at hr
    · exact acyclic_of_some hr (ha.copyArray hv.heap _)
    · exact acyclic_of_some hr ha
  | getCell name =>
    rw [arrayCommand] at hr
    split at hr <;> exact acyclic_of_some hr ha
  | setCell name operand =>
    rw [arrayCommand] at hr
    split at hr
    · exact acyclic_of_some hr (ha.of_tables rfl)
    · exact acyclic_of_some hr ha
  | drop name => exact acyclic_of_some hr ha

/-! ### Operations on tables of variables -/

/-- Binding a variable to a cell puts no array into the table of variables. -/
theorem acyclic_bindKey (ha : w.heap.Acyclic) (hv : w.Valid) (name : String) (l : Label)
    (c : CellId) : (w.bindKey name l c).heap.Acyclic := by
  rw [bindKey]
  dsimp only
  exact (Heap.gains_bind _ _ _ c ∅).acyclic (acyclic_separate ha hv Heap.admits_of_mem_nil)
    fun _ hm ↦ hm.elim

/-- The new cell holds what the name had, and the table gains a binding. -/
theorem acyclic_declareSymbol (ha : w.heap.Acyclic) (hv : w.Valid) (name : String)
    (k : KeySource) : (w.declareSymbol name k).1.heap.Acyclic := by
  rw [declareSymbol]
  split
  · exact ha
  · split
    · exact ha
    next v hf =>
      have hq := quietly_heap (w := w) (.of_quiet (.newCell (hv.heap.admits_value hf)))
      have ha₁ : (w.heap.newCell v).1.Acyclic := ha.of_tables rfl
      exact acyclic_bindKey (w := { w with heap := (w.heap.newCell v).1 }) ha₁
        (hq.valid hv) name _ _
    · have hq := quietly_heap (w := w) (.of_quiet
        (.newCell (v := .undefined) (Heap.admits_of_handle?_eq_none rfl)))
      have ha₁ : (w.heap.newCell .undefined).1.Acyclic := ha.of_tables rfl
      exact acyclic_bindKey (w := { w with heap := (w.heap.newCell .undefined).1 }) ha₁
        (hq.valid hv) name _ _

/-- Setting a variable makes no circle, because what is held does not lead to the table. -/
theorem acyclic_setSymbol (ha : w.heap.Acyclic) (hv : w.Valid)
    (hs : w.symbolTables.has name = true) {v : Value} (hm : v ∈ w.held) (k : KeySource) :
    (w.setSymbol name k v).1.heap.Acyclic := by
  have hops := (hv.admits_held hm).of_mem_singleton
  have hp : w.Entered [] (.symbols name) := trivial
  cases hl : w.symbolLabel name k with
  | error e =>
    rw [setSymbol, openSymbol, hl]
    exact ha
  | ok l =>
    rw [setSymbol, openSymbol, hl]
    dsimp only
    have hc := hp.clear_openElement hv hops (hv.knows_symbols hs) l
    have hheld := (quietly_openElement hv (.symbols name) l hops).held_subset hm
    exact (gains_assign _ _ v).acyclic (acyclic_openElement ha hv hops l)
      (not_within_singleton (hc.held hheld))

/-- Deleting a variable makes none. -/
theorem acyclic_unsetSymbol (ha : w.heap.Acyclic) (hv : w.Valid) (name : String)
    (k : KeySource) : (w.unsetSymbol name k).1.heap.Acyclic := by
  rw [unsetSymbol]
  split
  · exact ha
  · rw [unsetSymbolKey]
    split
    · exact ha
    · exact acyclic_unsetKey ha hv _ _
    · split
      · exact ha
      · exact ha.of_tables rfl

/-- Nor does an iteration during which cells are written to. -/
theorem acyclic_iterateWriting (ha : w.heap.Acyclic) (writes : List (CellId × Value))
    (entries : List Entry) : (w.iterateWriting writes entries).1.heap.Acyclic := by
  induction hlen : entries.length using Nat.strongRecOn generalizing w entries with
  | ind n ih =>
    rw [iterateWriting]
    split
    · exact ha
    next hn =>
      have hlt := Table.length_lt_of_nextShown hn
      exact ih _ (hlen ▸ hlt) (w := w.writeCells writes) (ha.setCells writes) _ rfl

/-- **An operation on a table of variables keeps a heap acyclic.** -/
theorem acyclic_symbolCommand (ha : w.heap.Acyclic) (hv : w.Valid) {c : SymbolCommand}
    (hs : c.creates = false → w.symbolTables.has name = true) :
    (w.symbolCommand name c).1.heap.Acyclic := by
  have hkey := fun k ↦ acyclic_keySource ha k
  have hvkey := fun k ↦ (quietly_keySource w k).valid hv
  cases c with
  | create config => exact ha.newTable_empty hv.heap
  | declare k =>
    have hd := acyclic_declareSymbol (hkey k) (hvkey k) name (w.keySource k).2
    rw [symbolCommand]
    dsimp only
    split <;> next heq =>
      rw [heq] at hd
      exact hd
  | bind k cell =>
    rw [symbolCommand]
    split
    · dsimp only
      rw [bindSymbol]
      split
      · exact hkey k
      · exact acyclic_bindKey (hkey k) (hvkey k) name _ _
    · exact ha
  | get k =>
    rw [symbolCommand]
    dsimp only
    split <;> exact hkey k
  | set k operand =>
    have hva := admits_operand hv operand
    have hq := quietly_keySource (w.hold [w.operand operand]) k
    have hm := hq.held_subset (List.mem_append_right _ (List.mem_singleton_self _))
    refine acyclic_setSymbol (acyclic_keySource (w := w.hold [w.operand operand]) ha k)
      (hq.valid ((quietly_hold hva.of_mem_singleton).valid hv)) ?_ hm _
    rw [symbolTables_keySource]
    exact hs rfl
  | «open» k deeds =>
    have hops : ∀ v ∈ (deeds.map w.deedOf).filterMap Deed.operand?, w.heap.Admits v :=
      fun v hmem ↦ admits_deedOf hv hmem
    have hq := quietly_keySource (w.hold ((deeds.map w.deedOf).filterMap Deed.operand?)) k
    have hv₁ := hq.valid ((quietly_hold hops).valid hv)
    have hs₁ : (keySource (w.hold ((deeds.map w.deedOf).filterMap Deed.operand?))
        k).1.symbolTables.has name = true := by
      rw [symbolTables_keySource]
      exact hs rfl
    obtain ⟨ha₂, ho⟩ := editable_openSymbol
      (acyclic_keySource (w := w.hold ((deeds.map w.deedOf).filterMap Deed.operand?)) ha k)
      hv₁ hs₁ (keySource (w.hold ((deeds.map w.deedOf).filterMap Deed.operand?)) k).2
    have hq₂ := quietly_openSymbol hv₁ name
      (keySource (w.hold ((deeds.map w.deedOf).filterMap Deed.operand?)) k).2 Heap.admits_of_mem_nil
    rw [symbolCommand]
    dsimp only
    split
    next heq =>
      rw [heq] at ha₂
      exact ha₂
    next w₁ e heq =>
      rw [heq] at ha₂ ho hq₂
      refine acyclic_perform (ho e rfl) ha₂ (hq₂.valid hv₁)
        (mem_held_of_deeds fun v hmem ↦ (hq.trans hq₂).held_subset ?_) (blocksActs_nil _ _ _)
      exact List.mem_append_right _ hmem
  | contains k => exact hkey k
  | unset k => exact acyclic_unsetSymbol (hkey k) (hvkey k) name _
  | copy => exact ha.copyArray hv.heap _
  | snapshot =>
    exact ha.newTable_storeAll hv.heap fun p hm ↦ Heap.admits_of_mem_labelled hv.heap hm
  | iterate writes => exact acyclic_iterateWriting ha _ _

/-! ### Building arrays -/

/-- Pairs are assigned to a table that is no element of any, and stays so. -/
theorem acyclic_assignPairs (ha : w.heap.Acyclic) (ht : w.heap.Topmost t)
    {pairs : List (KeySource × Value)} (hp : ∀ p ∈ pairs, p.2 ≠ .array t) :
    (w.assignPairs t pairs).1.heap.Acyclic := by
  induction pairs generalizing w with
  | nil => exact ha
  | cons p rest ih =>
    obtain ⟨k, v⟩ := p
    rw [assignPairs]
    split
    · exact ha
    next l _ =>
      have hg : w.heap.Gains t {u | u ≠ .array t} (w.heap.store t l.normalize v).1 :=
        Heap.gains_store t _ (fun he ↦ by cases he) (hp (k, v) List.mem_cons_self)
      refine ih (ha.of_gains_topmost hg ht fun hm ↦ hm rfl) (ht.gains hg fun hm ↦ hm rfl) ?_
      exact fun q hq ↦ hp q (List.mem_cons_of_mem _ hq)

/-- An array of pairs is filled while nothing refers to it. -/
theorem acyclic_newFromPairs (ha : w.heap.Acyclic) (hv : w.Valid)
    {pairs : List (KeySource × Value)} (hp : ∀ p ∈ pairs, w.heap.Admits p.2) :
    (w.newFromPairs pairs).1.heap.Acyclic := by
  have hpairs := acyclic_assignPairs (w := { w with heap := (w.heap.newTable Table.empty).1 })
    (ha.newTable_empty hv.heap) hv.heap.topmost_newTable_empty fun p hm ↦ (hp p hm).ne_fresh
  rw [newFromPairs]
  dsimp only
  split <;> next heq =>
    rw [heq] at hpairs
    exact hpairs

/-! ### Statements and programs -/

/-- **No command puts an array into itself.** -/
theorem acyclic_carryOut (ha : w.heap.Acyclic) (hv : w.Valid) {c : Command}
    {r : Except Failure (List Outcome)} (hr : w.carryOut c = some (w', r)) : w'.heap.Acyclic := by
  cases c with
  | array c => exact acyclic_arrayCommand ha hv hr
  | symbols name c =>
    rw [carryOut] at hr
    split at hr
    next hthere =>
      refine acyclic_of_some hr (acyclic_symbolCommand ha hv fun hc ↦ ?_)
      rwa [hc, Bool.false_or] at hthere
    · exact acyclic_of_some hr ha
  | editVariable name k path e =>
    rw [carryOut] at hr
    split at hr
    next hs => exact acyclic_of_map (fun _ _ hx ↦ acyclic_editVariable ha hv hs hx) hr
    · exact acyclic_of_some hr ha
  | collect pairs =>
    have hl := acyclic_labelsOf ha (pairs.map (·.1))
    have hq := quietly_labelsOf w (pairs.map (·.1))
    rw [carryOut] at hr
    dsimp only at hr
    split at hr
    next heq =>
      rw [heq] at hl
      exact acyclic_of_some hr hl
    next w₁ ls heq =>
      rw [heq] at hl hq
      refine acyclic_of_some hr (hl.newTable_storeAll (hq.valid hv).heap fun q hmem ↦ ?_)
      obtain ⟨p, -, hp⟩ := List.mem_map.1 (List.of_mem_zip hmem).2
      exact hp ▸ hq.admits (admits_operand hv p.2)
  | fromPairs pairs =>
    obtain ⟨hq, hp⟩ := quietly_keySources hv pairs
    have hn := acyclic_newFromPairs (acyclic_keySources ha pairs) (hq.valid hv) hp
    rw [carryOut] at hr
    dsimp only at hr
    split at hr <;> next heq =>
      rw [heq] at hn
      exact acyclic_of_some hr hn
  | toArray name =>
    have ht := ha.toArray hv.heap (admits_operand hv name)
    rw [carryOut] at hr
    split at hr <;> next heq =>
      obtain ⟨rfl, -⟩ := Prod.mk.inj heq
      exact acyclic_of_some hr ht
  | decode e =>
    have hd := ha.decode hv.heap e
    rw [carryOut] at hr
    split at hr <;> next heq =>
      rw [heq] at hd
      exact acyclic_of_some hr hd

/-- **A statement keeps a heap acyclic.** -/
theorem acyclic_step (ha : w.heap.Acyclic) (hv : w.Valid) {s : Statement} {report : Report}
    (hs : w.step s = some (w', report)) : w'.heap.Acyclic := by
  rw [step] at hs
  split at hs
  · cases hs
  next w₁ r heq =>
    obtain ⟨rfl, -⟩ := Prod.mk.inj (Option.some.inj hs)
    have ha₁ := acyclic_carryOut ha hv heq
    refine Heap.Acyclic.of_partOf (h := (w₁.deliver s.into r).heap) ?_ (released_settle _).part
    rw [deliver.eq_def]
    split <;> exact ha₁

/-- Hence no program does. -/
theorem acyclic_run (ha : w.heap.Acyclic) (hv : w.Valid) {program : List Statement}
    {reports : List Report} (hr : w.run program = some (w', reports)) : w'.heap.Acyclic :=
  -- a statement is seen to keep a heap acyclic in valid workspaces
  (run_induction (P := fun w ↦ w.heap.Acyclic ∧ w.Valid)
    (fun h hs ↦ ⟨acyclic_step h.1 h.2 hs, valid_step h.2 hs⟩) ⟨ha, hv⟩ hr).1

/-- At the start there are no arrays. -/
theorem acyclic_empty : Workspace.empty.heap.Acyclic := by
  rintro t u ⟨k, hk⟩
  cases hk

/-- **In every workspace that a program leads to, no array contains itself.** -/
theorem Reachable.acyclic (hr : w.Reachable) : w.heap.Acyclic := by
  obtain ⟨program, reports, hr⟩ := hr
  exact acyclic_run acyclic_empty valid_empty hr

/-! ### A circle through a cell -/

/-- A program that puts a list into a cell which the list holds. -/
def circularProgram : List Statement :=
  [⟨.array (.constant .null), some "n"⟩, ⟨.array (.cell "n"), some "c"⟩,
    ⟨.array (.list ["c"]), some "l"⟩, ⟨.array (.setCell "c" "l"), none⟩]

/-- Where that program ends. -/
def circularEnd : Workspace := ((empty.run circularProgram).map (·.1)).getD empty

theorem reachable_circularEnd : circularEnd.Reachable := ⟨circularProgram, _, rfl⟩

end Workspace

end SharedValue
