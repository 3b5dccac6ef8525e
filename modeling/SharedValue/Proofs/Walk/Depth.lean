import Mathlib.Data.Finset.Card
import Mathlib.Tactic.Ring
import SharedValue.Proofs.Acyclic.Gains
import SharedValue.Proofs.Table.Readings

/-!
# How deep walks get

A walk through a heap goes from arrays to their elements, from objects to their properties and from
cells to their contents, and it enters no cell and no object that it is inside of already. Between
two of them it can only descend from table to table, which comes to an end where no array contains
itself. So the levels that are still ahead of a walk are bounded (`Heap.ahead`) by what it has not
entered and by the tables below the array that it is at, and each step of a walk lowers the bound:

* `ahead_lt_of_mem_values`: a step from an array to an element;
* `ahead_lt_of_enter`: a step into a cell or an object;
* `ahead_nil_lt_extent`: a walk that starts outside all cells and objects never gets as deep as
  `Heap.extent`.
-/

namespace SharedValue.Heap

variable {h : Heap} {t u : TableId} {v : Value} {x : Handle} {path : List Handle}

/-! ### Elements -/

/-- What an array shows is there. -/
theorem Valid.admits_of_mem_pairs (hv : h.Valid) {p : Key × Value} (hp : p ∈ h.pairs t) :
    h.Admits p.2 := by
  obtain ⟨q, hq, rfl⟩ := List.mem_map.1 hp
  exact admits_of_mem_labelled hv hq

theorem Valid.admits_of_mem_values (hv : h.Valid) (hm : v ∈ h.values t) : h.Admits v := by
  obtain ⟨p, hp, rfl⟩ := List.mem_map.1 hm
  exact hv.admits_of_mem_pairs hp

/-- An array that an array without bindings shows is an element of it. -/
theorem Valid.child_of_mem_values (hv : h.Valid) (ht : h.Sound (.table t))
    (hm : .array u ∈ h.values t) : h.Child t u := by
  obtain ⟨⟨k, w⟩, hp, rfl⟩ := List.mem_map.1 hm
  have hwf := hv.table_wellFormed t
  obtain ⟨s, hs, hl⟩ := Option.bind_eq_some_iff.1 ((Table.mem_pairs_iff hwf.keys_nodup).1 hp)
  obtain ⟨z, rfl⟩ := hwf.find?_of_bindings_eq_zero ht.bindings_eq_zero hs
  refine ⟨k, ?_⟩
  have hz : z.shown = .array u := Option.some.inj hl
  cases z <;> cases hz
  exact hs

/-! ### Tables below an array -/

open Classical in
/-- The tables that are come to from a table through elements, itself included. -/
noncomputable def tablesBelow (h : Heap) (t : TableId) : Finset Nat :=
  (Finset.range h.tables.fresh).filter fun i ↦ h.Below t ⟨i⟩

/-- The tables below one are those that it leads to. -/
theorem mem_tablesBelow {i : Nat} : i ∈ h.tablesBelow t ↔ i < h.tables.fresh ∧ h.Below t ⟨i⟩ := by
  simp only [tablesBelow, Finset.mem_filter, Finset.mem_range]

theorem self_mem_tablesBelow (ht : h.Knows t) : t.index ∈ h.tablesBelow t :=
  mem_tablesBelow.2 ⟨Store.lt_fresh_of_get? ht.get?, .refl⟩

/-- There are at most as many as were made. -/
theorem card_tablesBelow_le (h : Heap) (t : TableId) : (h.tablesBelow t).card ≤ h.tables.fresh := by
  have hsub : h.tablesBelow t ⊆ Finset.range h.tables.fresh := fun _ hi ↦
    Finset.mem_range.2 (mem_tablesBelow.1 hi).1
  exact (Finset.card_le_card hsub).trans_eq (Finset.card_range _)

/-- An element has fewer tables below it than the array. -/
theorem Acyclic.card_tablesBelow_lt (ha : h.Acyclic) (ht : h.Knows t) (hc : h.Child t u) :
    (h.tablesBelow u).card < (h.tablesBelow t).card := by
  refine Finset.card_lt_card ((Finset.ssubset_iff_of_subset fun i hi ↦ ?_).2
    ⟨t.index, self_mem_tablesBelow ht, fun hi ↦ ?_⟩)
  · obtain ⟨hlt, hb⟩ := mem_tablesBelow.1 hi
    exact mem_tablesBelow.2 ⟨hlt, .head hc hb⟩
  · exact ha.not_below hc (mem_tablesBelow.1 hi).2

/-- How many tables are below a value. -/
noncomputable def height (h : Heap) : Value → Nat
  | .array t => (h.tablesBelow t).card
  | _ => 0

/-- So no value is higher than the number of tables. -/
theorem height_le (h : Heap) (v : Value) : h.height v ≤ h.tables.fresh := by
  cases v with
  | array t => exact h.card_tablesBelow_le t
  | _ => exact Nat.zero_le _

/-- An array is at least one high. -/
theorem height_array_pos (ht : h.Knows t) : 0 < h.height (.array t) :=
  Finset.card_pos.2 ⟨_, self_mem_tablesBelow ht⟩

/-- An element is less high than its array, since the array is not below it. -/
theorem height_lt_of_mem_values (ha : h.Acyclic) (hv : h.Valid) (ht : h.Sound (.table t))
    (hm : v ∈ h.values t) : h.height v < h.height (.array t) := by
  cases v with
  | array u => exact ha.card_tablesBelow_lt ht.knows (hv.child_of_mem_values ht hm)
  | _ => exact height_array_pos ht.knows

/-! ### What a walk is inside of -/

/-- Whether a walk enters what a handle mentions: a cell or an object that is there. -/
def Enterable (h : Heap) (x : Handle) : Prop :=
  h.Sound x ∧ ((∃ c, x = .cell c) ∨ ∃ o, x = .object o)

/-- Whether a walk can be inside of a list of things, the innermost first: it enters none of them
twice. -/
structure Trail (h : Heap) (path : List Handle) : Prop where
  nodup : path.Nodup
  enterable : ∀ x ∈ path, h.Enterable x

/-- Nothing was entered yet. -/
theorem Trail.nil (h : Heap) : h.Trail [] := ⟨.nil, fun _ hx ↦ by cases hx⟩

/-- One step further, to where the walk has not been. -/
theorem Trail.cons (hp : h.Trail path) (hx : h.Enterable x) (hn : x ∉ path) :
    h.Trail (x :: path) where
  nodup := List.nodup_cons.2 ⟨hn, hp.nodup⟩
  enterable := by
    intro y hy
    rcases List.mem_cons.1 hy with rfl | hy
    · exact hx
    · exact hp.enterable y hy

/-- A walk is inside of no more things than there are. -/
theorem Trail.length_le (hp : h.Trail path) :
    path.length ≤ h.objects.fresh + h.cells.fresh := by
  have hsub : path.toFinset ⊆ (Finset.range h.objects.fresh).image (fun i ↦ .object ⟨i⟩) ∪
      (Finset.range h.cells.fresh).image (fun i ↦ .cell ⟨i⟩) := by
    intro x hx
    obtain ⟨hs, ⟨c, rfl⟩ | ⟨o, rfl⟩⟩ := hp.enterable x (List.mem_toFinset.1 hx)
    · obtain ⟨u, hu⟩ := hs
      exact Finset.mem_union_right _ (Finset.mem_image.2
        ⟨c.index, Finset.mem_range.2 (Store.lt_fresh_of_get? hu), rfl⟩)
    · obtain ⟨r, hr⟩ := hs
      exact Finset.mem_union_left _ (Finset.mem_image.2
        ⟨o.index, Finset.mem_range.2 (Store.lt_fresh_of_get? hr), rfl⟩)
  calc path.length = path.toFinset.card := (List.toFinset_card_of_nodup hp.nodup).symm
    _ ≤ _ := Finset.card_le_card hsub
    _ ≤ _ := Finset.card_union_le _ _
    _ ≤ (Finset.range h.objects.fresh).card + (Finset.range h.cells.fresh).card :=
      Nat.add_le_add Finset.card_image_le Finset.card_image_le
    _ = _ := by rw [Finset.card_range, Finset.card_range]

/-! ### The levels ahead -/

/-- A bound on the levels that are ahead of a walk inside of `path` that is at a value. -/
noncomputable def ahead (h : Heap) (path : List Handle) (v : Value) : Nat :=
  (h.objects.fresh + h.cells.fresh - path.length) * (h.tables.fresh + 1) + h.height v

/-- Less is ahead in an element than in its array. -/
theorem ahead_lt_of_mem_values (ha : h.Acyclic) (hv : h.Valid) (ht : h.Sound (.table t))
    (hm : v ∈ h.values t) (path : List Handle) : h.ahead path v < h.ahead path (.array t) :=
  Nat.add_lt_add_left (height_lt_of_mem_values ha hv ht hm) _

/-- Whatever a cell or an object leads to, entering it uses up one of the things to enter. -/
theorem ahead_lt_of_enter (hp : h.Trail (x :: path)) (u v : Value) :
    h.ahead (x :: path) u < h.ahead path v := by
  have hlen := hp.length_le
  rw [List.length_cons] at hlen
  obtain ⟨n, hn⟩ := Nat.exists_eq_add_of_lt hlen
  have hout : h.objects.fresh + h.cells.fresh - path.length = n + 1 := by omega
  have hin : h.objects.fresh + h.cells.fresh - (x :: path).length = n := by
    rw [List.length_cons]
    omega
  have hu := h.height_le u
  rw [ahead, ahead, hin, hout, Nat.add_mul]
  omega

/-- A walk that starts outside all cells and objects stays above the level where it is cut, with a
level to spare. -/
theorem ahead_nil_lt_extent (h : Heap) (v : Value) : h.ahead [] v + 1 < h.extent := by
  have hle := h.height_le v
  have he : h.extent =
      (h.objects.fresh + h.cells.fresh) * (h.tables.fresh + 1) + h.tables.fresh + 2 := by
    rw [extent]
    ring
  rw [ahead, he, List.length_nil, Nat.sub_zero]
  omega

theorem extent_eq_add_one (h : Heap) : h.extent = h.extent - 1 + 1 :=
  (Nat.sub_add_cancel (Nat.one_le_of_lt (h.ahead_nil_lt_extent .null))).symm

/-- A cell that is not there reads as undefined. -/
theorem cell_of_not_sound {c : CellId} (hs : ¬ h.Sound (.cell c)) : h.cell c = .undefined := by
  rw [cell, Option.eq_none_iff_forall_ne_some.2 fun u hu ↦ hs ⟨u, hu⟩]
  rfl

end SharedValue.Heap
