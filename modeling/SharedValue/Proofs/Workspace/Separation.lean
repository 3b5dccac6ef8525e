import SharedValue.Proofs.Workspace.Anchored

/-!
# Separation

Writing leads along a path of keys to a place, and separates the place before it changes the array
there. A place is `Reached` when the tables before it are anchored; separating it makes its own
table anchored too (`Reached.anchored_separate`), so a writer that goes down a path, separating at
each step, owns every table that it has passed.

Separating changes nothing that can be seen. The table that the place has afterwards is the same as
the one that it had (`table_separate`), what is inside it is untouched
(`Reached.table_separate_of_below`), and so is everything that is not under the base of the path
(`Reached.get?_register_separate`, `Reached.get?_cell_separate`).
-/

namespace SharedValue.Workspace

variable {w w' : Workspace} {base : Place} {path path' : List Key} {t u x : TableId}
  {k : Key} {v : Value}

/-! ### Where writing leads -/

/-- Whether a place is come to from a base along a path of keys, all tables before it being
anchored. -/
inductive Reached (w : Workspace) (base : Place) : List Key → Place → Prop
  | root (hb : base.IsOutside) : Reached w base [] base
  | element {path : List Key} {u : TableId} (hu : w.Anchored base path u) (k : Key) :
      Reached w base (path ++ [k]) (.element ⟨u, k⟩)

variable {p : Place} {n : TableId}

theorem Reached.ne_symbols {root : Root} (hr : w.Reached root.place path p) (name : String) :
    p ≠ .symbols name := by
  cases hr with
  | root => exact root.place_ne_symbols name
  | element hu k => exact fun he ↦ by cases he

/-- An element that is reached is in an anchored table. -/
theorem Reached.exists_anchored (hr : w.Reached base path (.element ⟨u, k⟩)) :
    ∃ path', path = path' ++ [k] ∧ w.Anchored base path' u := by
  generalize hp : Place.element ⟨u, k⟩ = p at hr
  cases hr with
  | root hb => exact absurd hp.symm (hb _)
  | element hu j =>
    obtain ⟨rfl, rfl⟩ := Element.mk.inj (Place.element.inj hp)
    exact ⟨_, rfl, hu⟩

/-- The only holder of its table makes it anchored. -/
theorem Reached.anchored (hr : w.Reached base path p) (hval : w.valueAt p = .array t)
    (hs : w.Sole t p) : w.Anchored base path t := by
  cases hr with
  | root hb => exact .root hb hval hs
  | element hu k => exact .child hu hs

/-- A new table leaves a place where it is, if nothing in it leads to the table before the place. -/
theorem Reached.newTable (hr : w.Reached base path p) {T : Table}
    (hT : ∀ {u k}, p = .element ⟨u, k⟩ → w.heap.LeadsAway u T) :
    Reached { w with heap := (w.heap.newTable T).1 } base path p := by
  cases hr with
  | root hb => exact .root hb
  | element hu k => exact .element (hu.newTable (hT rfl)) k

/-- A running command holds what it held. -/
theorem held_putAt (w : Workspace) (p : Place) (n : TableId) :
    (w.putAt p (.array n)).held = w.held := by
  cases p with
  | symbols name =>
    rw [putAt]
    split <;> rfl
  | _ => rfl

/-- Putting a table at a place outside all arrays moves no handle but the one at the place. -/
theorem holds_putAt_iff_of_isOutside (hp : p.IsOutside) (hq : q ≠ p) :
    (w.putAt p (.array n)).Holds x q ↔ w.Holds x q := by
  cases p with
  | element e => exact absurd rfl (hp e)
  | register name =>
    cases q with
    | register other => exact Registry.mem_set_iff_of_ne fun he ↦ hq (congrArg _ he)
    | _ => exact Iff.rfl
  | symbols name =>
    rw [putAt]
    split
    · cases q with
      | symbols other =>
        exact exists_congr fun s ↦ and_congr_left' (Registry.mem_set_iff_of_ne
          fun he ↦ hq (congrArg _ he))
      | _ => exact Iff.rfl
    · exact Iff.rfl
  | content c => exact holds_setCell_iff hq
  | properties o =>
    show Holds { w with heap := w.heap.setProperties o n } x q ↔ _
    rw [Heap.setProperties]
    split
    · exact Iff.rfl
    next r hr =>
      cases q with
      | properties o' =>
        have hne : o'.index ≠ o.index := fun he ↦ hq (by cases o; cases o'; simp_all)
        show (∃ r, Store.get? _ _ = some r ∧ _) ↔ _
        rw [Store.get?_set_ne _ hne]
        exact Iff.rfl
      | _ => exact Iff.rfl

/-- A place that held a table holds another one that is put there, and shows it. -/
theorem putAt_of_holds (hp : p.IsOutside) (hv : w.Valid) (hold : w.Holds t p) (n : TableId) :
    (w.putAt p (.array n)).Holds n p ∧ (w.putAt p (.array n)).valueAt p = .array n := by
  cases p with
  | element e => exact absurd rfl (hp e)
  | register name =>
    have hget := (w.registers.get?_set name (.array n) name).trans (if_pos rfl)
    refine ⟨Registry.mem_of_get? hget, ?_⟩
    show ((w.registers.set name (.array n)).get? name).getD _ = _
    rw [hget, Option.getD_some]
  | symbols name =>
    obtain ⟨s, hs, -⟩ := hold
    have hget := (w.symbolTables.get?_set name { s with table := n } name).trans (if_pos rfl)
    rw [putAt, Registry.get?_of_mem hv.names_nodup hs]
    refine ⟨⟨_, Registry.mem_of_get? hget, rfl⟩, ?_⟩
    rw [valueAt, hget]
  | content c =>
    have hlt := Store.lt_fresh_of_get? (show w.heap.cells.get? c.index = _ from hold)
    exact ⟨Store.get?_set_self hlt _, Heap.cell_setCell_self hlt _⟩
  | properties o =>
    obtain ⟨r, ho, -⟩ := hold
    have hget := (Store.get?_set_of_get? ho { r with properties := n } o.index).trans (if_pos rfl)
    show Holds { w with heap := w.heap.setProperties o n } n (.properties o) ∧
      Value.array ((w.heap.setProperties o n).properties o) = _
    rw [Heap.setProperties, ho]
    refine ⟨⟨_, hget, rfl⟩, ?_⟩
    rw [Heap.properties, hget]
    rfl

/-- A table that nothing mentions, put at a base. -/
private theorem anchored_putAt_base (hb : base.IsOutside) (hv : w.Valid) (hold : w.Holds t base)
    (hn : ∀ q, ¬ w.Holds n q) (hheld : .array n ∉ w.held) :
    (w.putAt base (.array n)).Anchored base [] n := by
  obtain ⟨hholds, hval⟩ := putAt_of_holds hb hv hold n
  refine .root hb hval ⟨hholds, fun {q} hq ↦ Decidable.byContradiction fun hne ↦ ?_, ?_⟩
  · exact hn q ((holds_putAt_iff_of_isOutside hb hne).1 hq)
  · rwa [held_putAt]

/-- A table that nothing mentions, put into an element of an anchored table. -/
private theorem anchored_putAt_element (hv : w.Valid) (hu : w.Anchored base path u)
    (hf : (w.heap.table u).find? k = some (.value (.array t))) (hn : ∀ q, ¬ w.Holds n q)
    (hheld : .array n ∉ w.held) :
    (w.putAt (.element ⟨u, k⟩) (.array n)).Anchored base (path ++ [k]) n := by
  have hput : w.putAt (.element ⟨u, k⟩) (.array n) =
      { w with heap := w.heap.setTable u ((w.heap.table u).put k (.value (.array n))) } := by
    show { w with heap := w.heap.write ⟨u, k⟩ (.array n) } = _
    rw [Heap.write, Heap.slot?, hf]
  have hsome : ((w.heap.table u).put k (.value (.array n))).find? k =
      some (.value (.array n)) := by
    rw [Table.find?_put, if_pos rfl, hf]
    rfl
  rw [hput]
  have haway := hu.leadsAway.put (hu.not_within_of_not_holds hn) k
  refine .child (hu.setTable hv haway) ⟨?_, fun {q} hq ↦ ?_, hheld⟩
  · exact (holds_setTable_element (hu.knows hv)).2 hsome
  · by_cases he : ∃ j, q = .element ⟨u, j⟩
    · obtain ⟨j, rfl⟩ := he
      rw [holds_setTable_element (hu.knows hv), Table.find?_put] at hq
      split at hq
      next hj => rw [hj]
      · exact absurd hq (hn (.element ⟨u, j⟩))
    · exact absurd ((holds_setTable_iff_of_ne fun j hj ↦ he ⟨j, hj⟩).1 hq) (hn q)

/-- A table that nothing mentions, put at a place, is anchored there. -/
theorem Reached.anchored_putAt (hr : w.Reached base path p) (hv : w.Valid) (hold : w.Holds t p)
    (hn : ∀ q, ¬ w.Holds n q) (hheld : .array n ∉ w.held) :
    (w.putAt p (.array n)).Anchored base path n := by
  cases hr with
  | root hb => exact anchored_putAt_base hb hv hold hn hheld
  | element hu k => exact anchored_putAt_element hv hu hold hn hheld

/-! ### Separation -/

/-- The table that is made next is not held yet. -/
theorem Valid.notMem_held_copyId (hv : w.Valid) : .array w.copyId ∉ w.held := by
  intro hmem
  obtain ⟨T, hT, -⟩ := Heap.admits_array_iff.1 (hv.admits_held hmem)
  exact Nat.lt_irrefl _ (Store.lt_fresh_of_get? hT)

/-- A new table is mentioned nowhere, not in itself either if it is made of values that are there.
-/
theorem not_holds_newTable (hv : w.Valid) {T : Table} (hT : ∀ x ∈ T.handles, w.heap.Sound x)
    (q : Place) : ¬ Holds { w with heap := (w.heap.newTable T).1 } w.copyId q := by
  rw [holds_newTable_iff]
  rintro (hq | ⟨j, -, hf⟩)
  · exact hv.not_holds_copyId q hq
  · obtain ⟨T', hT', -⟩ := hT (.table w.copyId) (Table.mem_handles_of_find? hf rfl)
    exact Nat.lt_irrefl _ (Store.lt_fresh_of_get? hT')

/-- A copy of the table at a place leaves the place where it is. -/
theorem Reached.withCopy (hr : w.Reached base path p) (hold : w.Holds t p)
    (hsound : w.heap.Sound (.table t)) : (w.withCopy t).Reached base path p := by
  have hcopy : (w.heap.table t).detached w.heap.cell = w.heap.table t :=
    Table.detached_of_bindings_eq_zero _ hsound.bindings_eq_zero
  refine hr.newTable fun {u k} hp j v hf hw ↦ ?_
  -- the table at the place would be inside itself
  subst hp
  rw [hcopy] at hf
  obtain ⟨x, rfl, hb⟩ := hw
  obtain ⟨path', -, hu⟩ := hr.exists_anchored
  exact hu.not_within_of_find? hold (Heap.within_array_iff.2 (.head ⟨j, hf⟩ hb))

/-- **Separating a place makes its table anchored.** -/
theorem Reached.anchored_separate (hr : w.Reached base path p) (hv : w.Valid)
    (hval : w.valueAt p = .array t) (hold : w.Holds t p) {operands : List Value}
    (hops : ∀ v ∈ operands, w.heap.Admits v) :
    (w.separate p operands).1.Anchored base path (w.separate p operands).2 := by
  have htable := tableAt_of_valueAt hval
  cases hs : w.isShared (w.tableAt p) operands with
  | false =>
    rw [separate_of_not_isShared hs]
    rw [htable] at hs ⊢
    exact hr.anchored hval (sole_of_not_isShared hold hs)
  | true =>
    have hsound := hv.sound_of_isShared hops hs
    rw [separate_of_isShared hs]
    rw [htable] at hsound ⊢
    have hreach := hr.withCopy hold hsound
    have hq := quietly_withCopy hv t
    refine hreach.anchored_putAt (hq.valid hv) (t := t) ?_
      (not_holds_newTable hv fun x hx ↦ hv.heap.sound_of_mem_detached hx) hv.notMem_held_copyId
    exact holds_newTable_iff.2 (.inl hold)

/-! ### What putting and separating leave alone -/

/-- Putting a value into an element replaces its table. -/
theorem putAt_element (hf : (w.heap.table u).find? k = some (.value v)) (v' : Value) :
    w.putAt (.element ⟨u, k⟩) v' =
      { w with heap := w.heap.setTable u ((w.heap.table u).put k (.value v')) } := by
  show { w with heap := w.heap.write ⟨u, k⟩ v' } = _
  rw [Heap.write, Heap.slot?, hf]

/-- Any other table is as it was. -/
theorem table_putAt_of_ne (hp : ∀ k, p ≠ .element ⟨x, k⟩) (n : TableId) :
    (w.putAt p (.array n)).heap.table x = w.heap.table x := by
  cases p with
  | register name => rfl
  | symbols name =>
    rw [putAt]
    split <;> rfl
  | element e =>
    show (w.heap.write e _).table x = _
    rw [Heap.write]
    split
    · exact Heap.table_setTable_ne _ (fun he ↦ hp e.key (by rw [he])) _
    · rfl
    · rfl
  | content c => rfl
  | properties o =>
    show (w.heap.setProperties o n).table x = _
    rw [Heap.setProperties]
    split <;> rfl

/-- Any other register is as it was. -/
theorem get?_register_putAt {name : String} (hp : p ≠ .register name) (n : TableId) :
    (w.putAt p (.array n)).registers.get? name = w.registers.get? name := by
  cases p with
  | register m =>
    show (w.registers.set m _).get? name = _
    rw [Registry.get?_set, if_neg fun he ↦ hp (congrArg _ he.symm)]
  | symbols m =>
    rw [putAt]
    split <;> rfl
  | _ => rfl

/-- Any other cell is as it was, since the place was not bound. -/
theorem get?_cell_putAt (hold : w.Holds t p) {c : CellId} (hp : p ≠ .content c) (n : TableId) :
    (w.putAt p (.array n)).heap.cells.get? c.index = w.heap.cells.get? c.index := by
  cases p with
  | register m => rfl
  | symbols m =>
    rw [putAt]
    split <;> rfl
  | element e => rw [show w.putAt (.element e) _ = _ from putAt_element hold _]; rfl
  | content c' =>
    have hne : c.index ≠ c'.index := fun he ↦ hp (by cases c; cases c'; simp_all)
    exact Store.get?_set_ne _ hne _
  | properties o =>
    show (w.heap.setProperties o n).cells.get? _ = _
    rw [Heap.setProperties]
    split <;> rfl

/-- Writing from one base does not lead to a register that is another. -/
theorem Reached.ne_register (hr : w.Reached base path p) {name : String}
    (hne : base ≠ .register name) : p ≠ .register name := by
  cases hr with
  | root => exact hne
  | element hu k => exact fun he ↦ by cases he

/-- Nor to a cell that is another. -/
theorem Reached.ne_content (hr : w.Reached base path p) {c : CellId} (hne : base ≠ .content c) :
    p ≠ .content c := by
  cases hr with
  | root => exact hne
  | element hu k => exact fun he ↦ by cases he

/-- What is inside a table that is there is there. -/
theorem Valid.knows_of_below (hv : w.Valid) (ht : w.heap.Knows t) (hb : w.heap.Below t x) :
    w.heap.Knows x := by
  cases hb using Relation.ReflTransGen.casesOn with
  | refl => exact ht
  | tail _ hc =>
    obtain ⟨k, hf⟩ := hc
    exact hv.knows_of_holds (p := .element ⟨_, k⟩) hf

/-- The table before a place is not inside the array at the place. -/
theorem Reached.ne_element_of_below (hr : w.Reached base path p) (hold : w.Holds t p)
    (hb : w.heap.Below t x) (k : Key) : p ≠ .element ⟨x, k⟩ := by
  rintro rfl
  obtain ⟨path', -, hx⟩ := hr.exists_anchored
  exact hx.not_within_of_find? hold (Heap.within_array_iff.2 hb)

section Separate

variable {operands : List Value}

/-- What is inside the array at a place stays as it is when the place is separated. -/
theorem Reached.table_separate_of_below (hr : w.Reached base path p) (hv : w.Valid)
    (hold : w.Holds t p) (hb : w.heap.Below t x) :
    (w.separate p operands).1.heap.table x = w.heap.table x := by
  cases hs : w.isShared (w.tableAt p) operands with
  | false => rw [separate_of_not_isShared hs]
  | true =>
    rw [separate_of_isShared hs, table_putAt_of_ne (hr.ne_element_of_below hold hb)]
    exact Heap.table_newTable_of_knows (hv.knows_of_below (hv.knows_of_holds hold) hb) _

/-- Separating leaves the registers that are not the base. -/
theorem Reached.get?_register_separate (hr : w.Reached base path p) {name : String}
    (hne : base ≠ .register name) :
    (w.separate p operands).1.registers.get? name = w.registers.get? name := by
  cases hs : w.isShared (w.tableAt p) operands with
  | false => rw [separate_of_not_isShared hs]
  | true =>
    rw [separate_of_isShared hs]
    exact get?_register_putAt (hr.ne_register hne) _

/-- And the cells. -/
theorem Reached.get?_cell_separate (hr : w.Reached base path p) (hold : w.Holds t p) {c : CellId}
    (hne : base ≠ .content c) :
    (w.separate p operands).1.heap.cells.get? c.index = w.heap.cells.get? c.index := by
  cases hs : w.isShared (w.tableAt p) operands with
  | false => rw [separate_of_not_isShared hs]
  | true =>
    rw [separate_of_isShared hs]
    exact get?_cell_putAt (holds_newTable_iff.2 (.inl hold)) (hr.ne_content hne) _

end Separate

end SharedValue.Workspace
