import SharedValue.Proofs.Heap.Mention
import SharedValue.Workspace

/-!
# Who holds a table

A place *holds* a table when it is there that a mention of the table stands. The workspace counts
mentions without asking where they are; the module ties the count to the places. Two places that
hold a table make two mentions (`Holds.eq_of_count_le_one`), so where the count says that a table is
not shared, the place that was asked about is the only one to hold it (`sole_of_not_isShared`).

Writing separates first, and this is the fact that makes it safe to write after a separation that
copied nothing.
-/

namespace SharedValue

/-! ### Two mentions -/

section Count

variable {α : Type} {l : List α} {f : α → List Handle} {a b : α} {x : Handle}

theorem one_le_count_flatMap (ha : a ∈ l) (hx : x ∈ f a) : 1 ≤ (l.flatMap f).count x :=
  List.one_le_count_iff.2 (List.mem_flatMap.2 ⟨a, ha, hx⟩)

/-- A thing mentioned at two positions is mentioned twice. -/
theorem two_le_count_flatMap {i j : Nat} (hij : i ≠ j) (hi : l[i]? = some a) (hj : l[j]? = some b)
    (ha : x ∈ f a) (hb : x ∈ f b) : 2 ≤ (l.flatMap f).count x := by
  induction l generalizing i j with
  | nil => simp at hi
  | cons c rest ih =>
    rw [List.flatMap_cons, List.count_append]
    match i, j with
    | 0, 0 => exact absurd rfl hij
    | 0, j + 1 =>
      obtain rfl : c = a := by simpa using hi
      have hc := List.one_le_count_iff.2 ha
      have hj : rest[j]? = some b := hj
      have hr := one_le_count_flatMap (List.mem_of_getElem? hj) hb
      omega
    | i + 1, 0 =>
      obtain rfl : c = b := by simpa using hj
      have hc := List.one_le_count_iff.2 hb
      have hi : rest[i]? = some a := hi
      have hr := one_le_count_flatMap (List.mem_of_getElem? hi) ha
      omega
    | i + 1, j + 1 =>
      have hr := ih (fun h ↦ hij (congrArg (· + 1) h)) hi hj
      omega

/-- Two members that mention a thing mention it twice. -/
theorem two_le_count_flatMap_of_mem (hab : a ≠ b) (ha : a ∈ l) (hb : b ∈ l) (hxa : x ∈ f a)
    (hxb : x ∈ f b) : 2 ≤ (l.flatMap f).count x := by
  obtain ⟨i, hi⟩ := List.getElem?_of_mem ha
  obtain ⟨j, hj⟩ := List.getElem?_of_mem hb
  refine two_le_count_flatMap (fun hij ↦ hab ?_) hi hj hxa hxb
  rw [hij, hj] at hi
  exact (Option.some.inj hi).symm

end Count

/-- What values mention, one after the other. -/
theorem handlesOf_eq_flatMap (vs : List Value) :
    handlesOf vs = vs.flatMap fun v ↦ v.handle?.toList := by
  induction vs with
  | nil => rfl
  | cons v vs ih =>
    rw [List.flatMap_cons, ← ih, handlesOf, List.filterMap_cons]
    cases v.handle? <;> rfl

theorem Store.toList_flatMap {α : Type} (s : Store α) (f : α → List Handle) :
    s.toList.flatMap f = s.items.toList.flatMap fun o ↦ o.toList.flatMap f := by
  rw [toList]
  induction s.items.toList with
  | nil => rfl
  | cons o rest ih =>
    rw [List.flatMap_cons, ← ih]
    cases o with
    | none => rfl
    | some a =>
      show f a ++ (List.filterMap id rest).flatMap f = (f a ++ []) ++ _
      rw [List.append_nil]

/-- What two things mention is mentioned twice. -/
theorem Store.two_le_count {α : Type} {s : Store α} {f : α → List Handle} {i j : Nat} {a b : α}
    {x : Handle} (hij : i ≠ j) (hi : s.get? i = some a) (hj : s.get? j = some b) (ha : x ∈ f a)
    (hb : x ∈ f b) : 2 ≤ (s.toList.flatMap f).count x := by
  rw [toList_flatMap]
  rw [get?, Option.join_eq_some_iff, ← Array.getElem?_toList] at hi hj
  exact two_le_count_flatMap hij hi hj (by simpa using ha) (by simpa using hb)

theorem Store.one_le_count {α : Type} {s : Store α} {f : α → List Handle} {i : Nat} {a : α}
    {x : Handle} (hi : s.get? i = some a) (ha : x ∈ f a) : 1 ≤ (s.toList.flatMap f).count x :=
  one_le_count_flatMap (mem_toList_iff.2 ⟨i, hi⟩) ha

namespace Workspace

variable {w : Workspace} {t : TableId} {p q : Place}

/-! ### Places that hold a table -/

/-- Whether a mention of a table stands at a place. An element that is bound holds nothing
itself. -/
def Holds (w : Workspace) (t : TableId) : Place → Prop
  | .register name => (name, .array t) ∈ w.registers
  | .symbols name => ∃ s, (name, s) ∈ w.symbolTables ∧ s.table = t
  | .element e => (w.heap.table e.table).find? e.key = some (.value (.array t))
  | .content c => w.heap.cells.get? c.index = some (.array t)
  | .properties o => ∃ r, w.heap.objects.get? o.index = some r ∧ r.properties = t

/-- A cell holds the table of the array in it. -/
theorem holds_content_iff {c : CellId} :
    w.Holds t (.content c) ↔ w.heap.cell c = .array t :=
  ⟨fun hc ↦ by rw [Heap.cell, hc]; rfl, Heap.get?_of_cell_eq_array⟩

/-- Writing to a cell leaves what other places hold. -/
theorem holds_setCell_iff {c : CellId} {v : Value} (hq : q ≠ .content c) :
    Holds { w with heap := w.heap.setCell c v } t q ↔ w.Holds t q := by
  cases q with
  | content c' =>
    have hne : c' ≠ c := fun he ↦ hq (congrArg _ he)
    rw [holds_content_iff, holds_content_iff, Heap.cell_setCell_ne _ hne]
  | _ => exact Iff.rfl

/-- How often a thing is mentioned at places of the same sort. -/
def share (w : Workspace) (x : Handle) : Place → Nat
  | .register _ => (handlesOf (w.registers.map (·.2))).count x
  | .symbols _ => (w.symbolTables.map fun s ↦ Handle.table s.2.table).count x
  | .element _ => (w.heap.tables.toList.flatMap Table.handles).count x
  | .content _ => (handlesOf w.heap.cells.toList).count x
  | .properties _ =>
    (w.heap.objects.toList.flatMap fun o ↦ [.text o.className, .table o.properties]).count x

/-- The holders of a thing are those at places of each sort, and the running command. -/
theorem holders_eq (w : Workspace) (x : Handle) :
    w.holders x = w.share x (.register "") + w.share x (.symbols "") + (handlesOf w.held).count x +
      w.share x (.element ⟨⟨0⟩, .int 0⟩) + w.share x (.properties ⟨0⟩) + w.share x (.content ⟨0⟩) +
      (w.heap.resources.toList.map fun r ↦ Handle.text r.kind).count x := by
  simp only [holders, roots, Heap.handles, List.count_append, share]
  omega

/-- Where a table is held, places of that sort have a share in it. -/
theorem Holds.one_le_share (hp : w.Holds t p) : 1 ≤ w.share (.table t) p := by
  cases p with
  | register name =>
    rw [share, handlesOf_eq_flatMap]
    exact one_le_count_flatMap (List.mem_map_of_mem hp) (by simp [Value.handle?])
  | symbols name =>
    obtain ⟨s, hs, rfl⟩ := hp
    exact List.one_le_count_iff.2 (List.mem_map_of_mem hs)
  | element e =>
    exact Store.one_le_count (Heap.get?_of_find? hp) (Table.mem_handles_of_find? hp rfl)
  | content c =>
    rw [share, handlesOf_eq_flatMap]
    exact Store.one_le_count hp (by simp [Value.handle?])
  | properties o =>
    obtain ⟨r, hr, rfl⟩ := hp
    exact Store.one_le_count hr (by simp)

/-- Two elements of one table. -/
private theorem two_le_count_table {T : Table} {k k' : Key} {s s' : Slot} {x : Handle}
    (hk : k ≠ k') (hf : T.find? k = some s) (hf' : T.find? k' = some s') (hs : s.handle? = some x)
    (hs' : s'.handle? = some x) : 2 ≤ T.handles.count x := by
  obtain ⟨e, he, rfl, rfl⟩ := Table.exists_entry_of_find? hf
  obtain ⟨e', he', rfl, rfl⟩ := Table.exists_entry_of_find? hf'
  exact two_le_count_flatMap_of_mem (fun hee ↦ hk (congrArg Entry.key hee)) he he'
    (Entry.mem_handles_iff.2 (.inr hs)) (Entry.mem_handles_iff.2 (.inr hs'))

/-- Two elements, of one table or of two. -/
private theorem two_le_share_element {e e' : Element} (he : e ≠ e')
    (hf : w.Holds t (.element e)) (hf' : w.Holds t (.element e')) :
    2 ≤ (w.heap.tables.toList.flatMap Table.handles).count (.table t) := by
  by_cases htab : e.table = e'.table
  · have hkey : e.key ≠ e'.key := fun hk ↦ he (by cases e; cases e'; simp_all)
    have hf' : (w.heap.table e.table).find? e'.key = some (.value (.array t)) := htab ▸ hf'
    have htwo := two_le_count_table hkey hf hf' rfl rfl
    -- the mentions of one table are among those of all tables
    have hsub : (w.heap.table e.table).handles.Sublist
        (w.heap.tables.toList.flatMap Table.handles) :=
      List.sublist_flatten_of_mem (List.mem_map_of_mem
        (Store.mem_toList_iff.2 ⟨_, Heap.get?_of_find? hf⟩))
    exact Nat.le_trans htwo (hsub.count_le _)
  · have hindex : e.table.index ≠ e'.table.index := fun h ↦ htab (by
      cases e with | mk u _ => cases e' with | mk u' _ => cases u; cases u'; simp_all)
    exact Store.two_le_count hindex (Heap.get?_of_find? hf) (Heap.get?_of_find? hf')
      (Table.mem_handles_of_find? hf rfl) (Table.mem_handles_of_find? hf' rfl)

/-- **Two places that hold a table make two mentions of it.** -/
theorem Holds.eq_of_holders_le_one (hp : w.Holds t p) (hq : w.Holds t q)
    (hone : w.holders (.table t) ≤ 1) : p = q := by
  have hp₁ := hp.one_le_share
  have hq₁ := hq.one_le_share
  rw [holders_eq] at hone
  refine Decidable.byContradiction fun hne ↦ ?_
  -- places of two sorts are counted apart, and of each sort two places are counted twice
  cases p <;> cases q <;> simp only [share] at hone hp₁ hq₁ <;> try omega
  case register n m =>
    have htwo := two_le_count_flatMap_of_mem (f := fun p : String × Value ↦ p.2.handle?.toList)
      (x := .table t) (fun h ↦ hne (congrArg Place.register (Prod.mk.inj h).1)) hp hq
      (by simp [Value.handle?]) (by simp [Value.handle?])
    rw [handlesOf_eq_flatMap, List.flatMap_map] at hone
    omega
  case symbols n m =>
    obtain ⟨s, hs, rfl⟩ := hp
    obtain ⟨s', hs', hs''⟩ := hq
    have htwo := two_le_count_flatMap_of_mem
      (f := fun p : String × SymbolTable ↦ [Handle.table p.2.table]) (x := .table s.table)
      (fun h ↦ hne (congrArg Place.symbols (Prod.mk.inj h).1)) hs hs' (by simp) (by simp [hs''])
    rw [← List.map_eq_flatMap] at htwo
    omega
  case element e e' =>
    have htwo := two_le_share_element (fun h ↦ hne (congrArg Place.element h)) hp hq
    omega
  case content c c' =>
    have hindex : c.index ≠ c'.index := fun h ↦ hne (by cases c; cases c'; simp_all)
    have htwo := Store.two_le_count (f := fun v : Value ↦ v.handle?.toList) (x := .table t) hindex
      hp hq (by simp [Value.handle?]) (by simp [Value.handle?])
    rw [handlesOf_eq_flatMap w.heap.cells.toList] at hone
    omega
  case properties o o' =>
    obtain ⟨r, hr, rfl⟩ := hp
    obtain ⟨r', hr', hrr⟩ := hq
    have hindex : o.index ≠ o'.index := fun h ↦ hne (by cases o; cases o'; simp_all)
    have htwo := Store.two_le_count (x := .table r.properties)
      (f := fun o : ObjectRecord ↦ [.text o.className, .table o.properties]) hindex hr hr'
      (by simp) (by simp [hrr])
    omega

/-! ### The only holder -/

/-- Whether a place alone holds a table: no other place does, nor does a running command. -/
structure Sole (w : Workspace) (t : TableId) (p : Place) : Prop where
  holds : w.Holds t p
  eq_of_holds : ∀ {q : Place}, w.Holds t q → q = p
  notMem_held : .array t ∉ w.held

private theorem mem_handlesOf {vs : List Value} (h : .array t ∈ vs) : .table t ∈ handlesOf vs :=
  List.mem_filterMap.2 ⟨_, h, rfl⟩

/-- **A table that is not shared has one holder.** -/
theorem sole_of_not_isShared {operands : List Value} (hp : w.Holds t p)
    (hs : w.isShared t operands = false) : w.Sole t p := by
  have hone : w.holders (.table t) + (handlesOf operands).count (.table t) ≤ 1 := by
    simpa [isShared] using hs
  have hp₁ := hp.one_le_share
  have hheld : w.share (.table t) p + (handlesOf w.held).count (.table t) ≤
      w.holders (.table t) := by
    rw [holders_eq]
    cases p <;> simp only [share] <;> omega
  refine ⟨hp, fun hq ↦ hq.eq_of_holders_le_one hp (by omega), fun hmem ↦ ?_⟩
  have := List.one_le_count_iff.2 (mem_handlesOf hmem)
  omega

end Workspace

end SharedValue
