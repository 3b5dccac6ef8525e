import SharedValue.Proofs.Table.Pairs
import SharedValue.Proofs.Workspace.Target

/-!
# The mirror of an array

An array that is changed through one handle is a list of keys and slots in the order in which the
keys were first stored. `Mirror` is that list together with the contents of the cells, and says in
one line each what the changes come to: assigning to a key that is there keeps its position and
leaves every other slot alone, or writes to the cell if the slot holds a reference; assigning to any
other key puts it last; taking a key out leaves the others in their order.

While an array in a cell is changed, the cell is borrowed, and an assignment that goes through a
reference to it is refused (`Mirror.blocks`). No other change is, and where no cell is borrowed all
changes are made (`Mirror.run_of_nothing_borrowed`).

Once writing has led to an array, one change of it is the same change of its mirror, and is refused
if and only if the mirror refuses it (`Located.carried_edit`). -/

namespace SharedValue

/-! ### The mirror -/

/-- The slots of an array in order, and the contents of all cells. -/
structure Mirror where
  slots : Pairs Slot
  content : CellId → Value

namespace Mirror

/-- Assigns to a key, or to the cell that it refers to. -/
def assign (m : Mirror) (k : Key) (v : Value) : Mirror :=
  match m.slots.find? k with
  | some (.value (.reference c)) => { m with content := fun d ↦ if d = c then v else m.content d }
  | _ => { m with slots := m.slots.assign k (.value v) }

/-- A key that refers to no cell is assigned to in the slots. -/
theorem assign_of_ne_reference {m : Mirror} {k : Key}
    (hf : ∀ c, m.slots.find? k ≠ some (.value (.reference c))) (v : Value) :
    m.assign k v = { m with slots := m.slots.assign k (.value v) } := by
  rw [assign]
  split
  next c hc => exact absurd hc (hf c)
  · rfl

/-- Puts a value under the next key, if there is one. -/
def push (m : Mirror) (v : Value) : Mirror :=
  match nextKey m.slots.keys with
  | none => m
  | some n => { m with slots := m.slots.add (.int n) (.value v) }

/-- Makes a change. The ones that are not listed are none of a map. -/
def apply (m : Mirror) : Edit Key Value → Mirror
  | .insert k v | .open k [.assign v] => m.assign k v
  | .push v => m.push v
  | .unset k => { m with slots := m.slots.remove k }
  | .clear => { m with slots := [] }
  | _ => m

/-- Makes changes in turn. -/
def applyAll (m : Mirror) (es : List (Edit Key Value)) : Mirror := es.foldl apply m

/-- Whether a key refers to one of some cells. -/
def refersTo (m : Mirror) (cells : List CellId) (k : Key) : Bool :=
  match m.slots.find? k with
  | some (.value (.reference c)) => cells.contains c
  | _ => false

/-- A key refers to one of some cells if its slot has a reference to it. -/
theorem refersTo_iff {m : Mirror} {cells : List CellId} {k : Key} : m.refersTo cells k = true ↔
    ∃ c ∈ cells, m.slots.find? k = some (.value (.reference c)) := by
  rw [refersTo]
  split
  next c hf => simp [hf]
  next hf => simpa using fun c _ hc ↦ hf c hc

/-- Whether a change assigns through a reference to a cell that is borrowed. -/
def blocks (m : Mirror) (borrowed : List CellId) : Edit Key Value → Bool
  | .insert k _ | .open k [.assign _] => m.refersTo borrowed k
  | _ => false

/-- Makes changes in turn. Gives nothing if one of them is blocked when its turn comes. -/
def run (m : Mirror) (borrowed : List CellId) : List (Edit Key Value) → Option Mirror
  | [] => some m
  | e :: es => if m.blocks borrowed e then none else (m.apply e).run borrowed es

/-- Changes are made in two parts as they are made in one. -/
theorem run_append (m : Mirror) (borrowed : List CellId) (es es' : List (Edit Key Value)) :
    m.run borrowed (es ++ es') = (m.run borrowed es).bind (·.run borrowed es') := by
  induction es generalizing m with
  | nil => rfl
  | cons e es ih =>
    rw [List.cons_append, run, run]
    split
    · rfl
    · exact ih _

theorem run_singleton (m : Mirror) (borrowed : List CellId) (e : Edit Key Value) :
    m.run borrowed [e] = if m.blocks borrowed e then none else some (m.apply e) :=
  rfl

/-- **Where no cell is borrowed, all changes are made.** -/
theorem run_of_nothing_borrowed (m : Mirror) (es : List (Edit Key Value)) :
    m.run [] es = some (m.applyAll es) := by
  induction es generalizing m with
  | nil => rfl
  | cons e es ih =>
    have hfree : m.blocks [] e = false := by
      rw [← Bool.not_eq_true]
      intro hb
      rw [blocks.eq_def] at hb
      split at hb
      · obtain ⟨c, hc, -⟩ := refersTo_iff.1 hb
        exact List.not_mem_nil hc
      · obtain ⟨c, hc, -⟩ := refersTo_iff.1 hb
        exact List.not_mem_nil hc
      · cases hb
    rw [run, hfree, if_neg Bool.false_ne_true, ih]
    rfl

/-- The pairs that are shown. -/
def pairs (m : Mirror) : Pairs Value :=
  m.slots.filterMap fun p ↦ (p.2.load m.content).map (p.1, ·)

/-- A key that was taken out and is assigned again is last. -/
theorem assign_remove (m : Mirror) (k : Key) (v : Value) :
    (({ m with slots := m.slots.remove k } : Mirror).assign k v).slots =
      (m.slots.remove k).add k (.value v) := by
  rw [assign, Pairs.find?_remove_self]
  exact Pairs.assign_remove m.slots k (.value v)

end Mirror

/-- The changes that an ordered map has: assigning to a key at once or through its element,
appending, taking out, and clearing. -/
def Edit.IsOfMap {κ ν : Type} : Edit κ ν → Prop
  | .insert _ _ | .open _ [.assign _] | .push _ | .unset _ | .clear => True
  | _ => False

/-- Through an element, an ordered map only assigns to it. -/
theorem Edit.IsOfMap.eq_assign {κ ν : Type} {l : κ} {deeds : List (Deed ν)}
    (he : (Edit.open l deeds).IsOfMap) : ∃ v, deeds = [.assign v] := by
  rcases deeds with _ | ⟨d, _ | ⟨d', rest⟩⟩
  · exact absurd he id
  · cases d with
    | assign v => exact ⟨v, rfl⟩
    | _ => exact absurd he id
  · cases d <;> exact absurd he id

namespace Workspace

variable {w w' w₁ : Workspace} {base : Place} {path : List Key} {t : TableId} {m : Mirror}
  {p : Place} {l : Label} {k : Key} {v : Value} {borrowed : List CellId}

/-- The mirror of an array as it is. -/
def mirror (w : Workspace) (t : TableId) : Mirror := ⟨(w.heap.table t).slots, w.heap.cell⟩

/-- Whether a mirror has the slots of an array, and the contents of the cells that are there. The
cell that is the base of the array is left out. -/
structure Mirrors (w : Workspace) (base : Place) (t : TableId) (m : Mirror) : Prop where
  slots : (w.heap.table t).slots = m.slots
  content : ∀ {c}, base ≠ .content c → w.heap.Sound (.cell c) → w.heap.cell c = m.content c

/-- An array has its mirror. -/
theorem mirrors_mirror (w : Workspace) (base : Place) (t : TableId) :
    w.Mirrors base t (w.mirror t) :=
  ⟨rfl, fun _ _ ↦ rfl⟩

/-! ### Changes of the table -/

/-- The slot under a key is the same in the mirror. -/
theorem Mirrors.find?_eq (hm : w.Mirrors base t m) (k : Key) :
    m.slots.find? k = (w.heap.table t).find? k := by
  rw [← hm.slots, Table.find?_slots]

theorem Mirrors.matches_slots (hm : w.Mirrors base t m) : (w.heap.table t).Matches Eq m.slots := by
  rw [← hm.slots]
  exact (w.heap.table t).matches_slots

/-- And so are the keys. -/
theorem Mirrors.keys_eq (hm : w.Mirrors base t m) : m.slots.keys = (w.heap.table t).storedKeys :=
  hm.matches_slots.keys_eq.symm

/-- The mirror of an array that was separated or cleared, or whose table is another one. -/
theorem Mirrors.aside {t₁ : TableId} (hm : w.Mirrors base t m) (ha : Aside base w w₁)
    {slots : Pairs Slot} (hT : (w₁.heap.table t₁).Matches Eq slots) :
    w₁.Mirrors base t₁ { m with slots := slots } where
  slots := hT.slots_eq
  content := fun {c} hc hsound ↦ by
    have hcell := ha.cell hc
    obtain ⟨u, hu⟩ := hsound
    rw [← hm.content hc ⟨u, hcell.symm.trans hu⟩, Heap.cell, Heap.cell, hcell]

/-- The mirror of an array is that of any other one with the same table. -/
theorem Mirrors.of_table_eq {t₁ : TableId} (hm : w.Mirrors base t m) (ha : Aside base w w₁)
    (htable : w₁.heap.table t₁ = w.heap.table t) : w₁.Mirrors base t₁ m := by
  have hmatch := hm.matches_slots
  rw [← htable] at hmatch
  exact hm.aside ha hmatch

/-- Another table in place of the array. -/
theorem Mirrors.setTable (hm : w.Mirrors base t m) (ht : w.heap.Knows t) {T : Table}
    {slots : Pairs Slot} (hT : T.Matches Eq slots) :
    Mirrors { w with heap := w.heap.setTable t T } base t { m with slots := slots } where
  slots := by
    show ((w.heap.setTable t T).table t).slots = _
    rw [Heap.table_setTable_self (Store.lt_fresh_of_get? ht.get?), hT.slots_eq]
  content := fun hc hsound ↦ hm.content hc hsound

/-- Assigning to a key. -/
theorem Mirrors.assigned (hm : w.Mirrors base t m) (hv : w.Valid) (ht : w.heap.Knows t) (l : Label)
    (v : Value) :
    Mirrors { w with heap := w.heap.assigned t l v } base t (m.assign l.key v) := by
  by_cases hc : ∃ c, (w.heap.table t).find? l.key = some (.value (.reference c))
  · obtain ⟨c, hf⟩ := hc
    obtain ⟨u, hu⟩ := Heap.admits_reference_iff.1 (hv.heap.admits_value hf)
    rw [Heap.assigned_of_reference hf, Mirror.assign, hm.find?_eq, hf]
    refine ⟨hm.slots, fun {d} hd hsound ↦ ?_⟩
    show (w.heap.setCell c v).cell d = if d = c then v else m.content d
    split
    next he =>
      rw [he]
      exact Heap.cell_setCell_self (Store.lt_fresh_of_get? hu) v
    next he =>
      rw [Heap.cell_setCell_ne _ he]
      obtain ⟨x, hx⟩ := hsound
      have hindex : d.index ≠ c.index := fun hi ↦ he (by cases c; cases d; simp_all)
      exact hm.content hd ⟨x, (Store.get?_set_ne _ hindex _).symm.trans hx⟩
  · have hne := not_exists.1 hc
    rw [Heap.assigned_of_ne_reference hne, Mirror.assign_of_ne_reference (hm.find?_eq _ ▸ hne)]
    exact hm.setTable ht (hm.matches_slots.assign rfl l)

/-! ### One change -/

/-- Whether the array on a path from a base is there with another mirror, and other registers are as
they were. -/
structure Carried (base : Place) (path : List Key) (registers : Registry Value) (w' : Workspace)
    (m : Mirror) : Prop where
  leads : ∃ t, w'.Leads t base path ∧ w'.Mirrors base t m
  register : ∀ {name}, base ≠ .register name → w'.registers.get? name = registers.get? name

/-- Nothing changed. -/
theorem Carried.of_leads (hl : w.Leads t base path) (hm : w.Mirrors base t m) :
    Carried base path w.registers w m :=
  ⟨⟨t, hl, hm⟩, fun _ ↦ rfl⟩

/-- What was changed apart from the base before makes no difference. -/
theorem Aside.rel_carried {α : Type} (ha : Aside base w w₁) {x : Option (Workspace × α)}
    {y : Option Mirror} (h : Option.Rel (fun q m' ↦ Carried base path w₁.registers q.1 m') x y) :
    Option.Rel (fun q m' ↦ Carried base path w.registers q.1 m') x y := by
  cases h with
  | none => exact .none
  | some hc => exact .some ⟨hc.leads, fun hn ↦ (hc.register hn).trans (ha.register hn)⟩

/-- Holding the result makes no difference. -/
theorem Carried.hold {registers : Registry Value} (hc : Carried base path registers w' m)
    (vs : List Value) : Carried base path registers (w'.hold vs) m := by
  obtain ⟨t, hl, hm⟩ := hc.leads
  exact ⟨⟨t, hl.hold vs, hm.slots, hm.content⟩, hc.register⟩

section Separated

variable {t₁ : TableId} (hs : Separated base path w (w.heap.table t) w₁ t₁)
  (hm : w.Mirrors base t m)

include hs hm

/-- Another content of a separated array, and the same in the mirror. -/
theorem carried_setTable {T : Table} (hT : w₁.heap.LeadsAway t₁ T) {slots : Pairs Slot}
    (hslots : T.Matches Eq slots) :
    Carried base path w.registers { w₁ with heap := w₁.heap.setTable t₁ T }
      { m with slots := slots } :=
  ⟨⟨t₁, (hs.anchored.setTable hs.valid hT).leads,
    (hm.of_table_eq hs.aside hs.table).setTable hs.sound.knows hslots⟩, hs.aside.register⟩

/-- Assigning in a separated array, unless it is to the base. -/
theorem carried_assigned (hmem : v ∈ w.held) (hbase : ∀ c,
      (w.heap.table t).find? l.key = some (.value (.reference c)) → base ≠ .content c) :
    Carried base path w.registers { w₁ with heap := w₁.heap.assigned t₁ l v }
      (m.assign l.key v) := by
  rw [← hs.table] at hbase
  rw [← hs.aside.held] at hmem
  exact ⟨⟨t₁, (hs.anchored.assigned hs.valid (hs.anchored.not_within_of_mem_held hmem) hbase).leads,
    (hm.of_table_eq hs.aside hs.table).assigned hs.valid hs.sound.knows l v⟩, hs.aside.register⟩

end Separated

section Located

variable (hloc : w.Located base path p t) (hv : w.Valid) (hm : w.Mirrors base t m)

include hloc hv hm

/-- Assigning to a key at once. -/
theorem Located.carried_storeKey {operands : List Value}
    (hops : ∀ u ∈ operands, w.heap.Admits u) (hmem : v ∈ w.held)
    (hbase : ∀ c, (w.heap.table t).find? l.normalize.key = some (.value (.reference c)) →
      base ≠ .content c) :
    Carried base path w.registers (w.storeKey p l v operands).1 (m.assign l.normalize.key v) := by
  have hs := hloc.separated hv hops
  rw [storeKey_eq, hs.valid.heap.store_eq hs.sound]
  exact carried_assigned hs hm hmem hbase

/-- Assigning through an element. -/
theorem Located.carried_open (hmem : v ∈ w.held)
    (hbase : ∀ c, (w.heap.table t).find? l.normalize.key = some (.value (.reference c)) →
      base ≠ .content c) :
    Carried base path w.registers ((w.openElement p l []).1.assign (w.openElement p l []).2 v)
      (m.assign l.normalize.key v) := by
  have hs := hloc.separated hv Heap.admits_of_mem_nil
  rw [openElement_eq, assign, replace]
  dsimp only
  rw [hs.valid.heap.replace_materialize hs.sound]
  exact carried_assigned hs hm hmem hbase

/-- Appending. -/
theorem Located.carried_push (hmem : v ∈ w.held) :
    Carried base path w.registers (w.push p v).1 (m.push v) := by
  have hs := hloc.separated hv (hv.admits_held hmem).of_mem_singleton
  rw [Mirror.push, hm.keys_eq]
  cases hn : nextKey (w.heap.table t).storedKeys with
  | none =>
    rw [push_eq_error hv hloc.valueAt hn]
    exact .of_leads hloc.leads hm
  | some n =>
    rw [push_eq_ok hv hloc.valueAt hs.sound.knows hs.table hn, ← hs.table]
    refine carried_setTable hs hm ?_ ?_
    rotate_left
    · rw [hs.table]
      exact hm.matches_slots.insertNew rfl (Label.int n)
    refine hs.anchored.leadsAway.insertNew ?_ ?_
    · rw [hs.table]
      exact Table.find?_eq_none_iff_notMem.2 (notMem_of_nextKey hn)
    · rw [← hs.aside.held] at hmem
      exact hs.anchored.not_within_of_mem_held hmem

/-- Taking a key out. -/
theorem Located.carried_unsetKey (k : Key) :
    Carried base path w.registers (w.unsetKey p k).1
      { m with slots := m.slots.remove k.normalize } := by
  have hs := hloc.separated hv Heap.admits_of_mem_nil
  rw [unsetKey, tableAt_of_valueAt hloc.valueAt]
  cases hstored : (w.heap.table t).stores k.normalize with
  | false =>
    -- nothing is taken out of the mirror either
    rw [← Table.find?_eq_none_iff, Table.find?_eq_none_iff_notMem, ← hm.keys_eq] at hstored
    rw [Pairs.remove_of_notMem hstored]
    exact .of_leads hloc.leads hm
  | true =>
    have hnd := (hs.valid.heap.table_wellFormed (w.separate p []).2).keys_nodup
    refine carried_setTable hs hm (hs.anchored.leadsAway.remove hnd _) ?_
    rw [hs.table] at hnd ⊢
    exact hm.matches_slots.remove hnd _

/-- Clearing. -/
theorem Located.carried_clear :
    Carried base path w.registers (w.clear p) { m with slots := [] } := by
  have hs := hloc.cleared hv
  have hmatch : ((w.clear p).heap.table w.copyId).Matches Eq [] := by
    rw [hs.table]
    exact Table.matches_empty
  exact ⟨⟨_, hs.anchored.leads, hm.aside hs.aside hmatch⟩, hs.aside.register⟩

end Located

/-! ### What is refused -/

/-- Assigning to an element that is not bound is refused if and only if it refers to a borrowed
cell. -/
theorem isBlocked_iff (hslot : ∀ c, (w.heap.table t).find? k ≠ some (.binding c)) :
    w.isBlocked ⟨t, k⟩ borrowed = true ↔
      ∃ c ∈ borrowed, (w.heap.table t).find? k = some (.value (.reference c)) := by
  rw [isBlocked, Heap.read, Heap.binding?, Heap.slot?]
  dsimp only
  cases hf : (w.heap.table t).find? k with
  | none => simp
  | some s =>
    cases s with
    | binding c => exact absurd hf (hslot c)
    | value v => cases v <;> simp

/-- An assignment is refused where the mirror refuses it. -/
theorem Mirrors.isBlocked_eq (hm : w.Mirrors base t m) (hv : w.Valid)
    (ht : w.heap.Sound (.table t)) (k : Key) :
    w.isBlocked ⟨t, k⟩ borrowed = m.refersTo borrowed k := by
  rw [Bool.eq_iff_iff, isBlocked_iff fun c ↦ find?_ne_binding hv ht.bindings_eq_zero k c,
    Mirror.refersTo_iff, hm.find?_eq]

/-- Making the element ready makes no difference to that: a reference in it is left alone, and none
comes about. -/
theorem Located.isBlocked_openElement (hloc : w.Located base path p t) (hv : w.Valid) (l : Label) :
    (w.openElement p l []).1.isBlocked (w.openElement p l []).2 borrowed =
      w.isBlocked ⟨t, l.normalize.key⟩ borrowed := by
  have hs := hloc.separated hv Heap.admits_of_mem_nil
  have hbind := find?_ne_binding hv (hloc.sound hv).bindings_eq_zero l.normalize.key
  have hready := (w.heap.table t).find?_ready l.normalize
  rw [← hs.table, ← hs.anchored.table_setTable hs.valid (Table.ready _ _),
    ← hs.valid.heap.materialize_eq hs.sound, hs.table] at hready
  rw [openElement_eq, Bool.eq_iff_iff, isBlocked_iff hbind, isBlocked_iff]
  · dsimp only
    rw [hready]
    split <;> simp_all
  · dsimp only
    rw [hready]
    intro c
    split
    · simp
    · simp
    next s hf => exact hf ▸ hbind c

/-- Assigning to an element is all or nothing. -/
theorem performDeeds_assign (w : Workspace) (e : Element) (borrowed : List CellId) (v : Value) :
    w.performDeeds e borrowed [.assign v] =
      if w.isBlocked e borrowed then none else some (w.assign e v, .ok [.done]) := by
  have hblocks : w.blocksActs e borrowed [.assign v] = w.isBlocked e borrowed := by
    show (w.isBlocked e borrowed || false) = _
    rw [Bool.or_false]
  rw [performDeeds, List.map_cons, List.map_nil, Deed.act, hblocks]
  rfl

/-- **One change of an array is the same change of its mirror**, and is refused if and only if the
mirror refuses it. -/
theorem Located.carried_edit (hloc : w.Located base path p t) (hv : w.Valid)
    (hm : w.Mirrors base t m) {e : Edit Label Value} (he : e.IsOfMap)
    (hheld : ∀ v ∈ e.operands, v ∈ w.held) (hbase : ∀ {c}, base = .content c → c ∈ borrowed) :
    Option.Rel (fun q m' ↦ Carried base path w.registers q.1 m') (w.edit p borrowed e)
      (m.run borrowed [e.mapKeys fun l ↦ l.normalize.key]) := by
  have hblocked : ∀ k, w.isBlocked ⟨t, k⟩ borrowed = m.refersTo borrowed k :=
    hm.isBlocked_eq hv (hloc.sound hv)
  -- what is not blocked does not refer to the base
  have hfree : ∀ {k : Key}, m.refersTo borrowed k ≠ true → ∀ c,
      (w.heap.table t).find? k = some (.value (.reference c)) → base ≠ .content c :=
    fun hb c hf hc ↦ hb (Mirror.refersTo_iff.2 ⟨c, hbase hc, (hm.find?_eq _).trans hf⟩)
  rw [Mirror.run_singleton]
  cases e with
  | clear => exact .some (hloc.carried_clear hv hm)
  | insert l v =>
    rw [Workspace.edit, tableAt_of_valueAt hloc.valueAt, hblocked]
    show Option.Rel _ _ (if m.refersTo borrowed l.normalize.key = true then none
      else some (m.assign l.normalize.key v))
    split
    next hb => exact .none
    next hb =>
      have hmem : v ∈ w.held := hheld v List.mem_cons_self
      exact .some ((hloc.carried_storeKey hv hm (hv.admits_held hmem).of_mem_singleton hmem
        (hfree hb)).hold _)
  | push v =>
    have hc := hloc.carried_push hv hm (hheld v List.mem_cons_self)
    rw [Workspace.edit]
    split <;> next heq =>
      rw [heq] at hc
      exact .some hc
  | unset l =>
    have hc := hloc.carried_unsetKey hv hm l.key
    rw [← Label.key_normalize] at hc
    exact .some hc
  | extend pairs => exact absurd he id
  | «open» l deeds =>
    obtain ⟨v, rfl⟩ := he.eq_assign
    rw [Workspace.edit]
    dsimp only
    rw [performDeeds_assign, hloc.isBlocked_openElement hv, hblocked]
    show Option.Rel _ _ (if m.refersTo borrowed l.normalize.key = true then none
      else some (m.assign l.normalize.key v))
    split
    next hb => exact .none
    next hb =>
      refine .some ?_
      dsimp only
      exact hloc.carried_open hv hm (hheld v List.mem_cons_self) (hfree hb)
  | append deeds => exact absurd he id

/-- A change of the array at the end of a path. -/
theorem Reached.carried_editFrom (hr : w.Reached base path p) (hv : w.Valid) {labels : List Label}
    (hl : w.Leads t p (labels.map (·.key))) (hsym : ∀ name, p ≠ .symbols name)
    (hnormal : ∀ l ∈ labels, l.key.IsNormal) (hm : w.Mirrors base t m) {e : Edit Label Value}
    (he : e.IsOfMap) (hheld : ∀ v ∈ e.operands, v ∈ w.held)
    (hbase : ∀ {c}, base = .content c → c ∈ borrowed) :
    Option.Rel (fun q m' ↦ Carried base (path ++ labels.map (·.key)) w.registers q.1 m')
      (w.editFrom p labels borrowed e)
      (m.run borrowed [e.mapKeys fun l ↦ l.normalize.key]) := by
  obtain ⟨w₁, q, heq, hloc, htable, ha, hv₁⟩ := hl.followWriting hv hr hsym hnormal
  rw [editFrom, heq]
  exact ha.rel_carried
    (hloc.carried_edit hv₁ (hm.of_table_eq ha htable) he (ha.held ▸ hheld) hbase)

end Workspace

end SharedValue
