import SharedValue.Proofs.Heap.Quiet

/-!
# What a release keeps

Releasing drops things and changes none: the heap afterwards is a *part* of the heap before. What
the roots mention is kept, and so is what the things that are kept mention (`released_release`).
So a release is seen by nobody: a handle that someone holds means the same thing before and after
(`Released.sound`, `Released.valid`).
-/

namespace SharedValue.Heap

variable {h h' h'' : Heap} {roots : List Handle}

/-- Whether two heaps have the same thing under the name that a handle mentions. -/
def Agree (h h' : Heap) : Handle → Prop
  | .table t => h'.tables.get? t.index = h.tables.get? t.index
  | .object o => h'.objects.get? o.index = h.objects.get? o.index
  | .cell c => h'.cells.get? c.index = h.cells.get? c.index
  | .resource r => h'.resources.get? r.index = h.resources.get? r.index
  | .text _ => True

/-- A heap in which some of the things of another are left as they were. -/
structure PartOf (h' h : Heap) : Prop where
  table : ∀ {i : Nat} {T : Table}, h'.tables.get? i = some T → h.tables.get? i = some T
  object : ∀ {i : Nat} {r : ObjectRecord}, h'.objects.get? i = some r → h.objects.get? i = some r
  cell : ∀ {i : Nat} {v : Value}, h'.cells.get? i = some v → h.cells.get? i = some v
  resource : ∀ {i : Nat} {r : ResourceRecord},
    h'.resources.get? i = some r → h.resources.get? i = some r
  fresh_objects : h'.objects.fresh = h.objects.fresh
  fresh_cells : h'.cells.fresh = h.cells.fresh
  fresh_resources : h'.resources.fresh = h.resources.fresh

/-- What a release with these roots leaves: a part of the heap in which whatever the roots or the
part itself mentions is as it was. -/
structure Released (roots : List Handle) (h h' : Heap) : Prop where
  part : h'.PartOf h
  agree : ∀ {x : Handle}, x ∈ roots ++ h'.handles → h.Agree h' x

theorem Agree.refl (h : Heap) (x : Handle) : h.Agree h x := by
  cases x <;> first | rfl | trivial

theorem Agree.trans {x : Handle} (ha : h.Agree h' x) (ha' : h'.Agree h'' x) : h.Agree h'' x := by
  cases x with
  | text s => trivial
  | _ => exact Eq.trans ha' ha

/-- A thing stays sound where the heaps agree on it. -/
theorem Agree.sound {x : Handle} (ha : h.Agree h' x) (hx : h.Sound x) : h'.Sound x := by
  cases x with
  | text s => trivial
  | _ =>
    obtain ⟨a, hx⟩ := hx
    refine ⟨a, ?_⟩
    rwa [show _ = _ from ha]

theorem Agree.get?_table {t : TableId} (ha : h.Agree h' (.table t)) :
    h'.tables.get? t.index = h.tables.get? t.index :=
  ha

/-- A table has the same entries where the heaps agree on it. -/
theorem Agree.table {t : TableId} (ha : h.Agree h' (.table t)) : h'.table t = h.table t := by
  rw [Heap.table, ha.get?_table, ← Heap.table]

/-- And it is still there. -/
theorem Agree.knows {t : TableId} (ha : h.Agree h' (.table t)) (ht : h.Knows t) : h'.Knows t := by
  obtain ⟨T, hT⟩ := ht
  exact ⟨T, ha.get?_table.trans hT⟩

namespace PartOf

theorem refl (h : Heap) : h.PartOf h := ⟨id, id, id, id, rfl, rfl, rfl⟩

theorem trans (hp : h''.PartOf h') (hp' : h'.PartOf h) : h''.PartOf h where
  table := fun hi ↦ hp'.table (hp.table hi)
  object := fun hi ↦ hp'.object (hp.object hi)
  cell := fun hi ↦ hp'.cell (hp.cell hi)
  resource := fun hi ↦ hp'.resource (hp.resource hi)
  fresh_objects := hp.fresh_objects.trans hp'.fresh_objects
  fresh_cells := hp.fresh_cells.trans hp'.fresh_cells
  fresh_resources := hp.fresh_resources.trans hp'.fresh_resources

/-- A part mentions nothing that the whole does not. -/
theorem mem_handles (hp : h'.PartOf h) {x : Handle} (hx : x ∈ h'.handles) : x ∈ h.handles := by
  rcases mem_handles_iff.1 hx with ⟨i, T, hi, hx⟩ | ⟨i, r, hi, hx⟩ | ⟨i, v, hi, hx⟩ | ⟨i, r, hi, hx⟩
  · exact mem_handles_iff.2 (.inl ⟨i, T, hp.table hi, hx⟩)
  · exact mem_handles_iff.2 (.inr (.inl ⟨i, r, hp.object hi, hx⟩))
  · exact mem_handles_iff.2 (.inr (.inr (.inl ⟨i, v, hp.cell hi, hx⟩)))
  · exact mem_handles_iff.2 (.inr (.inr (.inr ⟨i, r, hp.resource hi, hx⟩)))

end PartOf

/-- What is kept was there. -/
private theorem get?_of_keep {α : Type} {s : Store α} {p : Nat → Bool} {i : Nat} {a : α}
    (hi : (s.keep p).get? i = some a) : s.get? i = some a := by
  rw [Store.get?_keep] at hi
  split at hi
  · exact hi
  · cases hi

/-- Keeping what is mentioned leaves a part. -/
theorem partOf_keepMentioned (h : Heap) (mentions : List Handle) :
    (h.keepMentioned mentions).PartOf h :=
  ⟨get?_of_keep, get?_of_keep, get?_of_keep, get?_of_keep, Store.fresh_keep _ _,
    Store.fresh_keep _ _, Store.fresh_keep _ _⟩

/-- And nothing that is mentioned is lost. -/
theorem agree_keepMentioned {mentions : List Handle} {x : Handle} (hx : x ∈ mentions) :
    h.Agree (h.keepMentioned mentions) x := by
  cases x with
  | text s => trivial
  | _ =>
    dsimp only [Agree, keepMentioned]
    rw [Store.get?_keep, if_pos (List.contains_iff_mem.2 hx)]

theorem Released.refl (roots : List Handle) (h : Heap) : Released roots h h :=
  ⟨.refl h, fun _ ↦ .refl h _⟩

/-- Any number of rounds releases only what the roots do not lead to, by induction on their number.
-/
theorem released_releaseRounds (roots : List Handle) (h : Heap) (rounds : Nat) :
    Released roots h (releaseRounds roots h rounds) := by
  induction rounds generalizing h with
  | zero => exact .refl roots h
  | succ rounds ih =>
    rw [releaseRounds]
    split
    · exact .refl roots h
    · -- what is mentioned at the end was mentioned in this round too, so this round kept it
      have hpart := partOf_keepMentioned h (roots ++ h.handles)
      have hrest := ih (h.keepMentioned (roots ++ h.handles))
      refine ⟨hrest.part.trans hpart, fun {x} hx ↦ ?_⟩
      have hmem : x ∈ roots ++ h.handles := by
        rcases List.mem_append.1 hx with hx | hx
        · exact List.mem_append_left _ hx
        · exact List.mem_append_right _ (hpart.mem_handles (hrest.part.mem_handles hx))
      exact (agree_keepMentioned hmem).trans (hrest.agree hx)

/-- **A release drops only what nothing that is left mentions.** -/
theorem released_release (h : Heap) (roots : List Handle) : Released roots h (h.release roots) :=
  released_releaseRounds roots h h.population

/-- A release gives no name out anew. -/
theorem fresh_tables_release (h : Heap) (roots : List Handle) :
    (h.release roots).tables.fresh = h.tables.fresh := by
  rw [release]
  generalize h.population = rounds
  induction rounds generalizing h with
  | zero => rfl
  | succ rounds ih =>
    rw [releaseRounds]
    split
    · rfl
    · exact (ih _).trans (Store.fresh_keep _ _)

/-- What is left after a release is valid. -/
theorem Released.valid (hr : Released roots h h') (hv : h.Valid) : h'.Valid where
  wellFormed := fun hi ↦ hv.wellFormed (hr.part.table hi)
  sound := fun hx ↦
    (hr.agree (List.mem_append_right _ hx)).sound (hv.sound (hr.part.mem_handles hx))

/-- A root stays sound. -/
theorem Released.sound (hr : Released roots h h') {x : Handle} (hx : h.Sound x) (hm : x ∈ roots) :
    h'.Sound x :=
  (hr.agree (List.mem_append_left _ hm)).sound hx

end SharedValue.Heap
