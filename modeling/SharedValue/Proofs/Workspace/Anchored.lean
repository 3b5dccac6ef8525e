import SharedValue.Proofs.Workspace.Holders
import SharedValue.Proofs.Workspace.Operations

/-!
# Tables that one place owns

A table is *anchored* at a place outside all arrays, its base, when there is one way to come to it:
from that place through elements, each of which alone holds the array in it. The keys on the way
are the table's path. Writing to an anchored table is seen through its base and nowhere else, for
three reasons:

* a table from which an anchored one can be come to is anchored itself, on the same path
  (`Anchored.exists_of_below`), so no other base and no value that is held leads to an anchored
  table;
* an anchored table is not inside its own elements (`Anchored.not_within_of_find?`);
* a change that puts no value into an anchored table that leads back to it leaves the table and all
  the tables on its path anchored (`Anchored.setTable`).
-/

namespace SharedValue

/-- A place outside all arrays, but for the tables of variables. -/
inductive Root
  | register (name : String)
  | cell (c : CellId)
  /-- The property array of an object. -/
  | object (o : ObjectId)
  deriving DecidableEq

/-- Whether a place is outside all arrays. -/
def Place.IsOutside (p : Place) : Prop := ∀ e, p ≠ .element e

/-- A root as a place. -/
def Root.place : Root → Place
  | .register name => .register name
  | .cell c => .content c
  | .object o => .properties o

/-- A root is outside all arrays. -/
theorem Root.isOutside_place (root : Root) : root.place.IsOutside := by
  cases root <;> exact fun _ he ↦ by cases he

theorem Root.place_ne_symbols (root : Root) (name : String) : root.place ≠ .symbols name := by
  cases root <;> exact fun he ↦ by cases he

/-- Different roots are different places. -/
theorem Root.place_inj {root : Root} (root' : Root) (h : root.place = root'.place) :
    root = root' := by
  cases root <;> cases root' <;> simp [place] at h <;> simp [h]

theorem Root.place_ne_content {root : Root} {c : CellId} (h : root ≠ .cell c) :
    root.place ≠ .content c :=
  fun he ↦ h (place_inj (.cell c) he)

/-! ### Inside a value -/

namespace Heap

variable {h : Heap} {t u x : TableId} {v : Value}

/-- Whether a table is an element of another one. -/
def Child (h : Heap) (u t : TableId) : Prop :=
  ∃ k, (h.table u).find? k = some (.value (.array t))

/-- Whether a table is come to from another one through elements, or is the same one. -/
def Below (h : Heap) : TableId → TableId → Prop := Relation.ReflTransGen h.Child

/-- Whether a table is inside a value. -/
def Within (h : Heap) (t : TableId) (v : Value) : Prop := ∃ u, v = .array u ∧ h.Below u t

/-- What is inside an array is come to from it. -/
theorem within_array_iff : h.Within t (.array u) ↔ h.Below u t := by
  simp [Within]

/-- A scalar has nothing inside. -/
theorem not_within_of_ne_array (hv : ∀ u, v ≠ .array u) : ¬ h.Within t v :=
  fun ⟨u, hu, _⟩ ↦ hv u hu

/-- Whether nothing in a table leads to a given one. -/
def LeadsAway (h : Heap) (t : TableId) (T : Table) : Prop :=
  ∀ k v, T.find? k = some (.value v) → ¬ h.Within t v

end Heap

namespace Workspace

variable {w w' : Workspace} {base q : Place} {path path' : List Key} {t u x : TableId}
  {k : Key} {v : Value}

/-! ### Anchored tables -/

/-- Whether the way from a base along a path of keys is the only one to a table. -/
inductive Anchored (w : Workspace) (base : Place) : List Key → TableId → Prop
  | root {t : TableId} (hb : base.IsOutside) (hv : w.valueAt base = .array t)
      (hs : w.Sole t base) : Anchored w base [] t
  | child {path : List Key} {u : TableId} {k : Key} {t : TableId} (hu : Anchored w base path u)
      (hs : w.Sole t (.element ⟨u, k⟩)) : Anchored w base (path ++ [k]) t

/-- Where an anchored table is held. -/
theorem Anchored.exists_sole (ha : w.Anchored base path t) : ∃ p, w.Sole t p := by
  cases ha with
  | root _ _ hs => exact ⟨_, hs⟩
  | child _ hs => exact ⟨_, hs⟩

/-- A running command does not hold an anchored table. -/
theorem Anchored.notMem_held (ha : w.Anchored base path t) : .array t ∉ w.held := by
  obtain ⟨p, hs⟩ := ha.exists_sole
  exact hs.notMem_held

/-- A place outside all arrays that holds an anchored table is the one it is anchored at. -/
theorem Anchored.eq_base_of_holds (ha : w.Anchored base path t) (hb : q.IsOutside)
    (hq : w.Holds t q) : q = base ∧ path = [] := by
  cases ha with
  | root _ _ hs => exact ⟨hs.eq_of_holds hq, rfl⟩
  | child _ hs => exact absurd (hs.eq_of_holds hq) (hb _)

/-- A base is outside all arrays. -/
theorem Anchored.isOutside (ha : w.Anchored base path t) : base.IsOutside := by
  induction ha with
  | root hb _ _ => exact hb
  | child _ _ ih => exact ih

/-- An element that holds an anchored table is the last step of its path. -/
theorem Anchored.exists_parent (ha : w.Anchored base path t)
    (he : w.Holds t (.element ⟨u, k⟩)) :
    ∃ path', path = path' ++ [k] ∧ w.Anchored base path' u := by
  cases ha with
  | root hb _ hs => exact absurd (hs.eq_of_holds he).symm (hb _)
  | child hu hs =>
    obtain ⟨rfl, rfl⟩ := Element.mk.inj (Place.element.inj (hs.eq_of_holds he))
    exact ⟨_, rfl, hu⟩

/-- There is one path to an anchored table. -/
theorem Anchored.path_eq (ha : w.Anchored base path t) (ha' : w.Anchored base path' t) :
    path = path' := by
  induction ha generalizing path' with
  | root hb _ hs => exact (ha'.eq_base_of_holds hb hs.holds).2.symm
  | child _ hs ih =>
    obtain ⟨path'', rfl, hu'⟩ := ha'.exists_parent hs.holds
    rw [ih hu']

/-- **Whatever leads to an anchored table is anchored**, on the way to it. -/
theorem Anchored.exists_of_below (ha : w.Anchored base path t) (hb : w.heap.Below x t) :
    ∃ path', path' <+: path ∧ w.Anchored base path' x := by
  induction hb using Relation.ReflTransGen.head_induction_on with
  | refl => exact ⟨path, List.prefix_rfl, ha⟩
  | head hc _ ih =>
    obtain ⟨path', hp, hy⟩ := ih
    obtain ⟨k, hk⟩ := hc
    obtain ⟨path'', rfl, hx⟩ := hy.exists_parent (k := k) hk
    exact ⟨path'', (List.prefix_append _ _).trans hp, hx⟩

/-- An anchored table is not inside its own elements. -/
theorem Anchored.not_within_of_find? (ha : w.Anchored base path t)
    (hf : (w.heap.table t).find? k = some (.value v)) : ¬ w.heap.Within t v := by
  rintro ⟨x, rfl, hb⟩
  obtain ⟨path', hp, hx⟩ := ha.exists_of_below hb
  obtain ⟨path'', rfl, ht⟩ := hx.exists_parent (k := k) hf
  -- the path of the element would be a part of the path of its table
  rw [ht.path_eq ha] at hp
  have hlen := hp.length_le
  rw [List.length_append] at hlen
  exact Nat.not_succ_le_self _ hlen

/-- What is held has no anchored table inside. -/
theorem Anchored.not_within_of_mem_held (ha : w.Anchored base path t) (hv : v ∈ w.held) :
    ¬ w.heap.Within t v := by
  rintro ⟨x, rfl, hb⟩
  obtain ⟨path', -, hx⟩ := ha.exists_of_below hb
  exact hx.notMem_held hv

/-- A table that nothing mentions has no anchored table inside, for what leads to one is held. -/
theorem Anchored.not_within_of_not_holds (ha : w.Anchored base path t)
    (hn : ∀ p, ¬ w.Holds x p) : ¬ w.heap.Within t (.array x) := by
  intro hw
  obtain ⟨path', -, hx⟩ := ha.exists_of_below (Heap.within_array_iff.1 hw)
  obtain ⟨p, hs⟩ := hx.exists_sole
  exact hn p hs.holds

/-- What another place outside all arrays holds has no anchored table inside. -/
theorem Anchored.not_within_of_holds (ha : w.Anchored base path t) (hne : q ≠ base)
    (hb : q.IsOutside) (hq : w.Holds x q) : ¬ w.heap.Within t (.array x) := by
  rintro ⟨y, hy, hbelow⟩
  obtain rfl := Value.array.inj hy
  obtain ⟨path', -, hx⟩ := ha.exists_of_below hbelow
  exact hne (hx.eq_base_of_holds hb hq).1

/-! ### Tables that lead away from an anchored one -/

/-- Nothing in an anchored table leads back to it. -/
theorem Anchored.leadsAway (ha : w.Anchored base path t) :
    w.heap.LeadsAway t (w.heap.table t) :=
  fun _ _ ↦ ha.not_within_of_find?

end Workspace

namespace Heap.LeadsAway

variable {h : Heap} {t : TableId} {T : Table} {v : Value}

/-- Another value under a key, if it leads away. -/
theorem put (hT : h.LeadsAway t T) (hv : ¬ h.Within t v) (k : Key) :
    h.LeadsAway t (T.put k (.value v)) := by
  intro j u hj
  rw [Table.find?_put] at hj
  split at hj
  · cases hf : T.find? k with
    | none =>
      rw [hf] at hj
      cases hj
    | some s =>
      rw [hf] at hj
      rwa [← Slot.value.inj (Option.some.inj hj)]
  · exact hT j u hj

/-- A new key for a value that leads away. -/
theorem insertNew (hT : h.LeadsAway t T) {l : Label} (hf : T.find? l.key = none)
    (hv : ¬ h.Within t v) : h.LeadsAway t (T.insertNew l (.value v)) := by
  intro j u hj
  rw [Table.find?_insertNew hf] at hj
  split at hj
  · rwa [← Slot.value.inj (Option.some.inj hj)]
  · exact hT j u hj

/-- One key less. -/
theorem remove (hT : h.LeadsAway t T) (hnd : T.storedKeys.Nodup) (k : Key) :
    h.LeadsAway t (T.remove k) := by
  intro j u hj
  rw [Table.find?_remove hnd] at hj
  split at hj
  · cases hj
  · exact hT j u hj

end Heap.LeadsAway

namespace Workspace

variable {w w' : Workspace} {base q : Place} {path path' : List Key} {t u x : TableId}
  {k : Key} {v : Value}

/-! ### What is held is there -/

/-- A table that is held at a place, but for the tables of variables, is sound. -/
theorem Valid.sound_of_holds (hv : w.Valid) {p : Place} (hp : w.Holds t p)
    (hsym : ∀ name, p ≠ .symbols name) : w.heap.Sound (.table t) := by
  cases p with
  | register name => exact Heap.admits_array_iff.1 (hv.admits_register hp)
  | symbols name => exact absurd rfl (hsym name)
  | element e => exact Heap.admits_array_iff.1 (hv.heap.admits_value hp)
  | content c =>
    refine hv.heap.sound (Heap.mem_handles_of_cell hp ?_)
    rfl
  | properties o =>
    obtain ⟨r, hr, rfl⟩ := hp
    exact hv.heap.sound (Heap.mem_handles_of_object hr)

/-- A table that is held at a place is there. -/
theorem Valid.knows_of_holds (hv : w.Valid) {p : Place} (hp : w.Holds t p) : w.heap.Knows t := by
  cases p with
  | symbols name =>
    obtain ⟨s, hs, rfl⟩ := hp
    exact hv.knows hs
  | _ => exact (hv.sound_of_holds hp fun _ he ↦ by cases he).knows

/-- No place holds the table that is made next. -/
theorem Valid.not_holds_copyId (hv : w.Valid) (p : Place) : ¬ w.Holds w.copyId p := by
  intro hp
  exact Nat.lt_irrefl _ (Store.lt_fresh_of_get? (hv.knows_of_holds hp).get?)

theorem Anchored.knows (ha : w.Anchored base path t) (hv : w.Valid) : w.heap.Knows t := by
  obtain ⟨p, hs⟩ := ha.exists_sole
  exact hv.knows_of_holds hs.holds

/-- A table that is anchored at a root is sound. Any other base has a table of variables. -/
theorem Anchored.sound {root : Root} (ha : w.Anchored root.place path t) (hv : w.Valid) :
    w.heap.Sound (.table t) := by
  cases ha with
  | root _ _ hs => exact hv.sound_of_holds hs.holds root.place_ne_symbols
  | child _ hs => exact hv.sound_of_holds hs.holds fun _ he ↦ by cases he

theorem Anchored.table_setTable (ha : w.Anchored base path t) (hv : w.Valid) (T : Table) :
    (w.heap.setTable t T).table t = T :=
  Heap.table_setTable_self (Store.lt_fresh_of_get? (ha.knows hv).get?) T

/-- The slots of a table that is anchored at a root are not bound. -/
theorem Anchored.exists_value {root : Root} (ha : w.Anchored root.place path t) (hv : w.Valid)
    {s : Slot} (hf : (w.heap.table t).find? k = some s) : ∃ v, s = .value v :=
  (hv.heap.table_wellFormed t).find?_of_bindings_eq_zero (ha.sound hv).bindings_eq_zero hf

/-! ### Changes -/

/-- A change that leaves the holders of the tables on the way alone. -/
theorem Anchored.congr (ha : w.Anchored base path t)
    (hval : w'.valueAt base = w.valueAt base)
    (hheld : ∀ {x}, w.heap.Below x t → .array x ∉ w'.held)
    (hholds : ∀ {x q}, w.heap.Below x t → (w'.Holds x q ↔ w.Holds x q)) :
    w'.Anchored base path t := by
  have hsole : ∀ {x q}, w.heap.Below x t → w.Sole x q → w'.Sole x q := fun hb hs ↦
    ⟨(hholds hb).2 hs.holds, fun hq ↦ hs.eq_of_holds ((hholds hb).1 hq), hheld hb⟩
  induction ha with
  | root hb hv hs => exact .root hb (hval.trans hv) (hsole .refl hs)
  | @child path u k t hu hs ih =>
    have hb : w.heap.Below u t := .single ⟨k, hs.holds⟩
    exact .child (ih (fun h ↦ hheld (h.trans hb)) (fun h ↦ hholds (h.trans hb))
      fun h ↦ hsole (h.trans hb)) (hsole .refl hs)

/-- Holding values that do not lead to an anchored table. -/
theorem Anchored.hold (ha : w.Anchored base path t) {vs : List Value}
    (hvs : ∀ v ∈ vs, ¬ w.heap.Within t v) : (w.hold vs).Anchored base path t := by
  refine ha.congr rfl (fun hb hmem ↦ ?_) fun _ ↦ Iff.rfl
  rcases List.mem_append.1 hmem with hmem | hmem
  · exact ha.not_within_of_mem_held hmem (Heap.within_array_iff.2 hb)
  · exact hvs _ hmem (Heap.within_array_iff.2 hb)

/-- Replacing a table leaves what is outside all arrays. -/
theorem valueAt_setTable_of_isOutside (w : Workspace) (hb : base.IsOutside) (t : TableId)
    (T : Table) : valueAt { w with heap := w.heap.setTable t T } base = w.valueAt base := by
  cases base with
  | element e => exact absurd rfl (hb e)
  | properties o =>
    show Value.array ((w.heap.setTable t T).properties o) = .array (w.heap.properties o)
    rw [Heap.properties, Heap.properties, Heap.setTable, Store.fresh_set]
  | _ => rfl

/-- Who holds a table when another table is replaced: the elements of that table tell anew. -/
theorem holds_setTable_element {T : Table} (ht : w.heap.Knows t) :
    Holds { w with heap := w.heap.setTable t T } x (.element ⟨t, k⟩) ↔
      T.find? k = some (.value (.array x)) := by
  show ((w.heap.setTable t T).table t).find? k = _ ↔ _
  rw [Heap.table_setTable_self (Store.lt_fresh_of_get? ht.get?)]

/-- The other places hold what they held. -/
theorem holds_setTable_iff_of_ne {T : Table} {q : Place} (hq : ∀ j, q ≠ .element ⟨t, j⟩) :
    Holds { w with heap := w.heap.setTable t T } x q ↔ w.Holds x q := by
  cases q with
  | element e =>
    have he : e.table ≠ t := fun he ↦ hq e.key (by rw [← he])
    show ((w.heap.setTable t T).table e.table).find? e.key = _ ↔ _
    rw [Heap.table_setTable_ne _ he]
    exact Iff.rfl
  | _ => exact Iff.rfl

/-- **Another content of an anchored table** leaves it anchored, and the tables on its path too, if
nothing in it leads back. -/
theorem Anchored.setTable (ha : w.Anchored base path t) (hv : w.Valid) {T : Table}
    (hT : w.heap.LeadsAway t T) :
    Anchored { w with heap := w.heap.setTable t T } base path t := by
  refine ha.congr (w.valueAt_setTable_of_isOutside ha.isOutside t T)
    (fun hb hmem ↦ ha.not_within_of_mem_held hmem (Heap.within_array_iff.2 hb)) fun {x q} hb ↦ ?_
  by_cases hq : ∃ j, q = .element ⟨t, j⟩
  · obtain ⟨j, rfl⟩ := hq
    rw [holds_setTable_element (ha.knows hv)]
    exact iff_of_false (fun hf ↦ hT _ _ hf (Heap.within_array_iff.2 hb)) fun hf ↦
      ha.not_within_of_find? hf (Heap.within_array_iff.2 hb)
  · exact holds_setTable_iff_of_ne fun j he ↦ hq ⟨j, he⟩

/-- Writing to a cell that is not the base. -/
theorem Anchored.setCell (ha : w.Anchored base path t) {c : CellId} (hc : base ≠ .content c)
    (hsound : w.heap.Sound (.cell c)) (hv : ¬ w.heap.Within t v) :
    Anchored { w with heap := w.heap.setCell c v } base path t := by
  refine ha.congr ?_ (fun hb hmem ↦ ha.not_within_of_mem_held hmem (Heap.within_array_iff.2 hb)) ?_
  · cases base with
    | element e => exact absurd rfl (ha.isOutside e)
    | content c' => exact Heap.cell_setCell_ne _ (fun he ↦ hc (congrArg Place.content he)) _
    | _ => rfl
  · intro x q hb
    cases q with
    | content c' =>
      obtain ⟨u, hu⟩ := hsound
      show (Heap.setCell _ c v).cells.get? c'.index = _ ↔ w.heap.cells.get? c'.index = _
      rw [Heap.setCell, Store.get?_set_of_get? hu]
      split
      next he =>
        -- neither the new content nor the old one is a table on the way
        refine iff_of_false (fun h ↦ hv ?_) fun h ↦ ?_
        · rw [Option.some.inj h]
          exact Heap.within_array_iff.2 hb
        · have hholds : w.Holds x (.content c) := by
            show w.heap.cells.get? c.index = _
            rw [← he, h]
          exact ha.not_within_of_holds hc.symm (fun _ he ↦ by cases he) hholds
            (Heap.within_array_iff.2 hb)
      · exact Iff.rfl
    | _ => exact Iff.rfl

/-! ### A new table -/

/-- The base of an anchored table holds a table. -/
theorem Anchored.exists_base (ha : w.Anchored base path t) : ∃ u, w.Holds u base := by
  induction ha with
  | root _ _ hs => exact ⟨_, hs.holds⟩
  | child _ _ ih => exact ih

/-- A new table leaves what is outside all arrays. -/
theorem valueAt_newTable_of_isOutside (hb : base.IsOutside) (hq : w.Holds t base) (T : Table) :
    valueAt { w with heap := (w.heap.newTable T).1 } base = w.valueAt base := by
  cases base with
  | element e => exact absurd rfl (hb e)
  | properties o =>
    obtain ⟨r, hr, -⟩ := hq
    show Value.array (Heap.properties _ o) = .array (w.heap.properties o)
    rw [Heap.properties, Heap.properties, Heap.newTable, hr]
    rfl
  | _ => rfl

/-- Who holds a table besides a new one. -/
theorem holds_newTable_iff {T : Table} {p : Place} :
    Holds { w with heap := (w.heap.newTable T).1 } x p ↔
      w.Holds x p ∨ ∃ k, p = .element ⟨w.copyId, k⟩ ∧ T.find? k = some (.value (.array x)) := by
  have hplain : (∀ e, p ≠ .element e) →
      (w.Holds x p ↔ w.Holds x p ∨ ∃ k, p = .element ⟨w.copyId, k⟩ ∧
        T.find? k = some (.value (.array x))) := by
    intro hne
    refine ⟨.inl, fun h ↦ h.elim id ?_⟩
    rintro ⟨k, he, -⟩
    exact absurd he (hne _)
  cases p with
  | element e =>
    obtain ⟨u, k⟩ := e
    show ((w.heap.newTable T).1.table u).find? k = _ ↔ _
    rw [Heap.table_newTable]
    split
    next hu =>
      obtain rfl : u = w.copyId := hu
      refine ⟨fun hf ↦ .inr ⟨k, rfl, hf⟩, fun h ↦ ?_⟩
      rcases h with hf | ⟨j, he, hf⟩
      · -- the table that is made next has no elements yet
        have hlt := Store.lt_fresh_of_get? (Heap.knows_of_find? hf).get?
        exact absurd hlt (Nat.lt_irrefl _)
      · obtain ⟨-, rfl⟩ := Element.mk.inj (Place.element.inj he)
        exact hf
    next hu =>
      refine ⟨.inl, fun h ↦ h.elim id ?_⟩
      rintro ⟨j, he, -⟩
      exact absurd (Element.mk.inj (Place.element.inj he)).1 hu
  | _ => exact hplain fun _ he ↦ by cases he

/-- A new table leaves a table anchored if nothing in it leads there. -/
theorem Anchored.newTable (ha : w.Anchored base path t) {T : Table} (hT : w.heap.LeadsAway t T) :
    Anchored { w with heap := (w.heap.newTable T).1 } base path t := by
  obtain ⟨u, hu⟩ := ha.exists_base
  refine ha.congr (valueAt_newTable_of_isOutside ha.isOutside hu T)
    (fun hb hmem ↦ ha.not_within_of_mem_held hmem (Heap.within_array_iff.2 hb)) fun {x q} hb ↦ ?_
  rw [holds_newTable_iff]
  refine ⟨fun h ↦ h.elim id ?_, .inl⟩
  rintro ⟨k, -, hf⟩
  exact absurd (Heap.within_array_iff.2 hb) (hT _ _ hf)

end Workspace

end SharedValue
