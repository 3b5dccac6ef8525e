import SharedValue.Proofs.Forest.Represents

/-!
# Separation is not seen

A writer that has reached a place with an array finds in the forest the tree that the array shows
(`Reached.shows`). Separating the place gives the writer a table of its own and leaves the forest as
it is (`Arrives.follows_separate`); a new table put there is a tree put at the end of the path
(`Reached.follows_putAt`), and this is what clearing comes to.

`Grasps` is what the writer has then: an anchored table at a place that is still reached. The
changes that follow keep it. -/

namespace SharedValue

variable {F F' : Forest} {root : Root} {path path' : List Key} {k : Key} {S : Tree}

/-! ### Trees under a key -/

/-- The tree at a longer path is an element of the one before. -/
theorem Forest.peek_concat (F : Forest) (root : Root) (path : List Key) (k : Key) :
    F.peek root (path ++ [k]) = ((F.pairs root path).find? k).getD .undefined :=
  Tree.peek_append _ path [k]

/-- Putting a tree at a longer path puts it into the one before. -/
theorem Forest.put_concat (F : Forest) (root : Root) (path : List Key) (k : Key) (S : Tree) :
    F.put root (path ++ [k]) S = F.put root path (.array ((F.pairs root path).put k S)) :=
  congrArg (F.set root) (Tree.update_append _ S path [k])

namespace Workspace

variable {w w' w₀ : Workspace} {t n u x : TableId} {v : Value} {p : Place}
  {operands : List Value}

/-! ### Places with an array -/

/-- A place that is reached shows the tree on its path. -/
theorem Reached.shows (hreach : w.Reached root.place path p) (hr : w.Represents F) (hv : w.Valid)
    (hp : w.Present root) : w.heap.Shows (w.valueAt p) (F.peek root path) := by
  cases hreach with
  | root => exact hr.shows hp
  | @element path u hu k =>
    obtain ⟨-, hm⟩ := hr.exists_pairs hv hu
    rw [Forest.peek_concat, valueAt, Heap.read, Heap.slot?]
    cases hf : (w.heap.table u).find? k with
    | none =>
      rw [hm.find?_eq_none_iff.1 hf]
      exact Heap.shows_of_flat rfl
    | some s =>
      obtain ⟨S, hS, v, rfl, hshows⟩ := hm.exists_of_find? hf
      rw [hS]
      exact hshows

/-- Whether writing led to a place with an array. -/
structure Arrives (w : Workspace) (root : Root) (path : List Key) (p : Place) (t : TableId) :
    Prop where
  reached : w.Reached root.place path p
  present : w.Present root
  value : w.valueAt p = .array t

/-- Where writing arrives, the table is held. -/
theorem Arrives.holds (ha : w.Arrives root path p t) (hv : w.Valid) : w.Holds t p := by
  obtain ⟨hreach, hp, hval⟩ := ha
  cases hreach with
  | root => exact holds_root hp hval
  | @element path u hu k =>
    rw [valueAt, Heap.read, Heap.slot?] at hval
    show (w.heap.table u).find? k = _
    cases hf : (w.heap.table u).find? k with
    | none =>
      rw [hf] at hval
      cases hval
    | some s =>
      obtain ⟨v, rfl⟩ := hu.exists_value hv hf
      rw [hf] at hval
      rw [show v = _ from hval]

/-- It shows the tree on the path. -/
theorem Arrives.shows (ha : w.Arrives root path p t) (hr : w.Represents F) (hv : w.Valid) :
    w.heap.Shows (.array t) (F.peek root path) := by
  have hs := ha.reached.shows hr hv ha.present
  rwa [ha.value] at hs

/-- The array at a place, as a list of pairs. -/
theorem Arrives.exists_pairs (ha : w.Arrives root path p t) (hr : w.Represents F) (hv : w.Valid) :
    F.peek root path = .array (F.pairs root path) ∧
      (w.heap.table t).Matches w.heap.SlotShows (F.pairs root path) := by
  obtain ⟨ps, hps, hm⟩ := (ha.shows hr hv).exists_matches
  rw [Forest.pairs, hps]
  exact ⟨rfl, hm⟩

theorem Arrives.exists_register (ha : w.Arrives root path p t) {name : String}
    (he : root = .register name) : (w.registers.get? name).isSome = true := by
  subst he
  cases hg : w.registers.get? name with
  | some v => rfl
  | none =>
    have hnone : w.valueAt (.register name) = .undefined := by
      rw [valueAt, hg]
      rfl
    obtain ⟨hreach, -, hval⟩ := ha
    cases hreach with
    | root =>
      rw [show Root.place (.register name) = .register name from rfl, hnone] at hval
      cases hval
    | element hu k =>
      obtain ⟨y, hy⟩ := hu.exists_base
      rw [Registry.get?_eq_none_iff] at hg
      rw [Registry.has_iff_mem.2 (List.mem_map_of_mem hy)] at hg
      cases hg

/-- Putting back the tree that is there. -/
theorem Arrives.update_peek (ha : w.Arrives root path p t) (hr : w.Represents F) (hv : w.Valid) :
    (F.get root).update (F.peek root path) path = F.get root := by
  have hold := ha.holds hv
  obtain ⟨hreach, hp, hval⟩ := ha
  cases hreach with
  | root => rfl
  | @element path u hu k =>
    obtain ⟨hpeek, hm⟩ := hr.exists_pairs hv hu
    have hsame := (hu.shows_update hv (hr.shows hp)).2.1
    have hnd := (hv.heap.table_wellFormed u).keys_nodup
    rw [hm.keys_eq] at hnd
    obtain ⟨S, hS, -⟩ := hm.exists_of_find? hold
    have hget : F.peek root (path ++ [k]) = S := by
      rw [Forest.peek_concat, hS]
      rfl
    have hput : (F.get root).update S (path ++ [k]) =
        (F.get root).update (.array ((F.pairs root path).put k S)) path :=
      Tree.update_append _ S path [k]
    rw [hget, hput, Pairs.put_of_find? hnd hS, ← hpeek]
    exact hsame

/-! ### An array at a place -/

/-- A table that is put into a place that is reached is there and held. -/
theorem Reached.value_putAt (hreach : w.Reached root.place path p) (hv : w.Valid)
    (hp : w.Present root) (hold : w.Holds t p) (n : TableId) :
    (w.putAt p (.array n)).valueAt p = .array n ∧
      (w.putAt p (.array n)).Holds n p := by
  cases hreach with
  | root =>
    have hroot : root.Takes (.array n) := by
      cases root with
      | object o => exact ⟨n, rfl⟩
      | _ => trivial
    have hval := valueAt_putAt_root hp hroot
    exact ⟨hval, holds_root ((present_putAt_root hp).2 hp) hval⟩
  | @element path u hu k =>
    have hf : (w.heap.table u).find? k = some (.value (.array t)) := hold
    have hholds : (w.putAt (.element ⟨u, k⟩) (.array n)).Holds n (.element ⟨u, k⟩) := by
      rw [putAt_element hf, holds_setTable_element (hu.sound hv).knows, Table.find?_put, if_pos rfl,
        hf]
      rfl
    exact ⟨valueAt_element hholds, hholds⟩

/-- A new table leaves the array at a place. -/
theorem Arrives.newTable (ha : w.Arrives root path p t) (hv : w.Valid) (T : Table)
    (hreach : Reached { w with heap := (w.heap.newTable T).1 } root.place path p) :
    Arrives { w with heap := (w.heap.newTable T).1 } root path p t where
  reached := hreach
  present := by
    obtain ⟨-, hp, -⟩ := ha
    cases root <;> exact hp
  value := by
    have hold := ha.holds hv
    obtain ⟨hreach, hp, hval⟩ := ha
    cases hreach with
    | root => exact (valueAt_newTable_of_present hp T).trans hval
    | element hu k => exact valueAt_element (holds_newTable_iff.2 (.inl hold))

/-- **A table that nothing mentions, put at a place.** -/
theorem Reached.follows_putAt (hreach : w.Reached root.place path p) (hr : w.Represents F)
    (hv : w.Valid) (hp : w.Present root) (hold : w.Holds t p) (hn : ∀ q, ¬ w.Holds n q)
    (hS : w.heap.Shows (.array n) S) (hv' : (w.putAt p (.array n)).Valid) :
    Follows w (w.putAt p (.array n)) (F.put root path S) := by
  cases hreach with
  | root =>
    refine hr.follows_putAt hv hp ?_ hS hv'
    cases root with
    | object o => exact ⟨n, rfl⟩
    | _ => trivial
  | @element path u hu k =>
    obtain ⟨-, hm⟩ := hr.exists_pairs hv hu
    rw [putAt_element hold] at hv' ⊢
    rw [Forest.put_concat]
    refine hr.follows_setTable hv hu (hu.leadsAway.put (hu.not_within_of_not_holds hn) k) ?_
      (hm.put ⟨_, rfl, hS⟩ k) hv'
    rw [Table.storedKeys_put]
    exact (hv.heap.table_wellFormed u).keys_nodup

/-! ### What a writer has in hand -/

/-- Whether a place that was reached has an anchored table. -/
structure Grasps (w : Workspace) (root : Root) (path : List Key) (p : Place) (t : TableId) :
    Prop where
  arrives : w.Arrives root path p t
  anchored : w.Anchored root.place path t
  holds : w.Holds t p

/-- An anchored table at a place shows that the place is still reached. -/
theorem Anchored.grasps (ha : w.Anchored root.place path t) (hreach : w₀.Reached root.place path p)
    (hold : w.Holds t p) (hval : w.valueAt p = .array t) : w.Grasps root path p t := by
  refine ⟨⟨?_, ha.present, hval⟩, ha, hold⟩
  cases hreach with
  | root hb => exact .root hb
  | element hu k =>
    obtain ⟨path', he, hu'⟩ := ha.exists_parent hold
    obtain rfl := (List.append_inj' he rfl).1
    exact .element hu' k

/-- Separating a place leaves all trees as they are. -/
theorem Arrives.follows_separate (ha : w.Arrives root path p t) (hr : w.Represents F) (hv : w.Valid)
    (hops : ∀ v ∈ operands, w.heap.Admits v) :
    Follows w (w.separate p operands).1 F ∧
      (w.separate p operands).1.Grasps root path p (w.separate p operands).2 := by
  have hold := ha.holds hv
  have hanchored := ha.reached.anchored_separate hv ha.value hold hops
  have htable := tableAt_of_valueAt ha.value
  cases hs : w.isShared (w.tableAt p) operands with
  | false =>
    rw [separate_of_not_isShared hs] at hanchored ⊢
    rw [htable] at hanchored ⊢
    exact ⟨hr.follows hv, hanchored.grasps ha.reached hold ha.value⟩
  | true =>
    have hsound := hv.sound_of_isShared hops hs
    have hq := quietly_putAt_copyId hv hops hs
    rw [separate_of_isShared hs] at hanchored ⊢
    rw [htable] at hsound hanchored hq ⊢
    have hcopy : (w.heap.table t).detached w.heap.cell = w.heap.table t :=
      Table.detached_of_bindings_eq_zero _ hsound.bindings_eq_zero
    have hv₁ := (quietly_withCopy hv t).valid hv
    have hf₁ : Follows w (w.withCopy t) F := hr.follows_newTable hv hv₁
    have ha₁ : (w.withCopy t).Arrives root path p t :=
      ha.newTable hv _ (ha.reached.withCopy hold hsound)
    have hold₁ : (w.withCopy t).Holds t p := ha₁.holds hv₁
    have hvalue := ha₁.reached.value_putAt hv₁ ha₁.present hold₁ w.copyId
    refine ⟨?_, hanchored.grasps ha₁.reached hvalue.2 hvalue.1⟩
    -- the copy shows what the table shows
    have hS : (w.withCopy t).heap.Shows (.array w.copyId) (F.peek root path) := by
      obtain ⟨hpeek, hm⟩ := ha₁.exists_pairs hf₁.represents hv₁
      have hnew : (w.withCopy t).heap.table w.copyId = (w.withCopy t).heap.table t := by
        rw [show (w.withCopy t).heap.table t = w.heap.table t from
          Heap.table_newTable_of_knows hsound.knows _]
        show (w.heap.newTable _).1.table w.copyId = _
        rw [Heap.table_newTable, hcopy]
        exact if_pos rfl
      rw [hpeek]
      refine Heap.shows_of_matches ?_
      rwa [hnew]
    have hf₂ := ha₁.reached.follows_putAt hf₁.represents hv₁ ha₁.present hold₁
      (not_holds_newTable hv fun x hx ↦ hv.heap.sound_of_mem_detached hx) hS (hq.valid hv₁)
    rw [Forest.put, ha₁.update_peek hf₁.represents hv₁] at hf₂
    exact hf₁.trans (hf₂.of_set_get hf₁.represents.tallies ha₁.present fun _ ↦ ha₁.exists_register)

/-- Clearing a place. -/
theorem Arrives.follows_clear (ha : w.Arrives root path p t) (hr : w.Represents F) (hv : w.Valid) :
    Follows w (w.clear p) (F.put root path (.array [])) := by
  have hq : w.Quietly { w with heap := (w.heap.newTable Table.empty).1 } :=
    quietly_heap (Heap.quietly_newTable_empty w.heap)
  have hv₁ := hq.valid hv
  have hf₁ := hr.follows_newTable hv hv₁
  have ha₁ := ha.newTable hv Table.empty (ha.reached.newTable fun _ _ _ hf ↦ nomatch hf)
  refine hf₁.trans (ha₁.reached.follows_putAt hf₁.represents hv₁ ha₁.present (ha₁.holds hv₁)
    (not_holds_newTable hv fun _ hx ↦ nomatch hx) (Heap.shows_of_matches ?_)
    ((quietly_clear hv ha.value ha.reached.ne_symbols).valid hv))
  have hempty : (w.heap.newTable Table.empty).1.table w.copyId = Table.empty := by
    rw [Heap.table_newTable]
    exact if_pos rfl
  show ((w.heap.newTable Table.empty).1.table w.copyId).Matches _ _
  rw [hempty]
  exact Table.matches_empty

end Workspace

end SharedValue
