import SharedValue.Proofs.Forest.Separation
import SharedValue.Proofs.Workspace.Writing

/-!
# Writing to one array

Every change of an array, made by a writer that has reached it, is followed by the change of the
same name in the forest. What the writer stores is held, so it does not lead back to the array; what
it overwrites is not inside the array any more, so it goes on showing what it showed. -/

namespace SharedValue.Workspace

variable {w w' : Workspace} {F F' : Forest} {root : Root} {path : List Key} {p : Place}
  {t : TableId} {k : Key} {l : Label} {v u : Value} {S : Tree} {ps : Pairs Tree}
  {operands : List Value}

/-! ### Another content of the array -/

/-- A table is still grasped when its content is replaced. -/
theorem Grasps.setTable (hg : w.Grasps root path p t) (hv : w.Valid) {T : Table}
    (hT : w.heap.LeadsAway t T) : Grasps { w with heap := w.heap.setTable t T } root path p t := by
  have hreach := hg.arrives.reached
  have hne : ∀ j, p ≠ .element ⟨t, j⟩ := hreach.ne_element_of_below hg.holds .refl
  have hold : Holds { w with heap := w.heap.setTable t T } t p :=
    (holds_setTable_iff_of_ne hne).2 hg.holds
  refine (hg.anchored.setTable hv hT).grasps hreach hold ?_
  cases hreach with
  | root => exact (w.valueAt_setTable_of_isOutside root.isOutside_place t T).trans hg.arrives.value
  | element hu k => exact valueAt_element hold

/-- What the writer's array is replaced by. -/
theorem Grasps.follows_setTable (hg : w.Grasps root path p t) (hr : w.Represents F) (hv : w.Valid)
    {T : Table} (hT : w.heap.LeadsAway t T) (hnd : T.storedKeys.Nodup)
    (hm : T.Matches w.heap.SlotShows ps) (hv' : Valid { w with heap := w.heap.setTable t T }) :
    Follows w { w with heap := w.heap.setTable t T } (F.put root path (.array ps)) ∧
      Grasps { w with heap := w.heap.setTable t T } root path p t :=
  ⟨hr.follows_setTable hv hg.anchored hT hnd hm hv', hg.setTable hv hT⟩

/-- A new key. -/
theorem Grasps.follows_insertNew (hg : w.Grasps root path p t) (hr : w.Represents F) (hv : w.Valid)
    (hf : (w.heap.table t).find? l.key = none) (hl : l.key.IsNormal)
    (hw : ¬ w.heap.Within t v) (ha : w.heap.Admits v) (hS : w.heap.Shows v S) :
    Follows w { w with heap := w.heap.setTable t ((w.heap.table t).insertNew l (.value v)) }
        (F.put root path (.array ((F.pairs root path).add l.key S))) ∧
      Grasps { w with heap := w.heap.setTable t ((w.heap.table t).insertNew l (.value v)) }
        root path p t := by
  have hknows := (hg.anchored.sound hv).knows
  have hv' := (quietly_heap (Heap.quietly_insertNew hknows.writable hf hl ha)).valid hv
  obtain ⟨-, hm⟩ := hg.arrives.exists_pairs hr hv
  refine hg.follows_setTable hr hv (hg.anchored.leadsAway.insertNew hf hw) ?_
    (hm.insertNew ⟨v, rfl, hS⟩ l) hv'
  have hwf := hv'.heap.table_wellFormed t
  rw [hg.anchored.table_setTable hv] at hwf
  exact hwf.keys_nodup

/-- Another value under a key that is there. -/
theorem Grasps.follows_put (hg : w.Grasps root path p t) (hr : w.Represents F) (hv : w.Valid)
    (hf : (w.heap.table t).find? k = some (.value u)) (hw : ¬ w.heap.Within t v)
    (ha : w.heap.Admits v) (hS : w.heap.Shows v S) :
    Follows w { w with heap := w.heap.setTable t ((w.heap.table t).put k (.value v)) }
        (F.put root path (.array ((F.pairs root path).put k S))) ∧
      Grasps { w with heap := w.heap.setTable t ((w.heap.table t).put k (.value v)) }
        root path p t := by
  obtain ⟨-, hm⟩ := hg.arrives.exists_pairs hr hv
  refine hg.follows_setTable hr hv (hg.anchored.leadsAway.put hw k) ?_ (hm.put ⟨v, rfl, hS⟩ k)
    ((quietly_heap (.of_quiet (.put hf ha))).valid hv)
  rw [Table.storedKeys_put]
  exact (hv.heap.table_wellFormed t).keys_nodup

/-- Making a key ready for writing. -/
theorem Grasps.follows_materialize (hg : w.Grasps root path p t) (hr : w.Represents F)
    (hv : w.Valid) (hl : l.key.IsNormal) :
    Follows w { w with heap := w.heap.materialize t l } (F.ready root path l.key) ∧
      Grasps { w with heap := w.heap.materialize t l } root path p t := by
  have hnull : ¬ w.heap.Within t .null := Heap.not_within_of_ne_array fun _ he ↦ nomatch he
  have hshows : w.heap.Shows .null .null := Heap.shows_of_flat rfl
  have hsound := hg.anchored.sound hv
  obtain ⟨-, hm⟩ := hg.arrives.exists_pairs hr hv
  rw [hv.heap.materialize_eq hsound, Table.ready]
  rcases Heap.find?_cases hm l.key with ⟨hf, hps⟩ | ⟨u, S, hf, hps, hS⟩
  · rw [hf, Forest.ready, hps]
    exact hg.follows_insertNew hr hv hf hl hnull Heap.admits_null hshows
  · by_cases hu : u = .undefined
    · rw [hu] at hf
      rw [hS.undefined_iff.1 hu] at hps
      rw [hf, Forest.ready, hps]
      exact hg.follows_put hr hv hf hnull Heap.admits_null hshows
    · rw [Forest.ready_of_ne_undefined hps fun he ↦ hu (hS.undefined_iff.2 he), hf]
      split
      next he => cases he
      next he => exact absurd (Slot.value.inj (Option.some.inj he)) hu
      · rw [Heap.setTable_self hsound.knows]
        exact ⟨hr.follows hv, hg⟩

/-! ### Assigning -/

/-- What is not blocked does not refer to the root. -/
theorem Grasps.ne_cell_of_blocks {c : CellId} (hb : F.blocks root path k = false)
    (hps : (F.pairs root path).find? k = some (.reference c)) : root ≠ .cell c := by
  rw [Forest.blocks, hps] at hb
  exact of_decide_eq_false hb

/-- And when a cell is written to that is not the root. -/
theorem Grasps.setCell (hg : w.Grasps root path p t) {c : CellId} (hc : root ≠ .cell c)
    (hsound : w.heap.Sound (.cell c)) (hw : ¬ w.heap.Within t v) :
    Grasps { w with heap := w.heap.setCell c v } root path p t := by
  have hreach := hg.arrives.reached
  have hold : Holds { w with heap := w.heap.setCell c v } t p := by
    have hholds := hg.holds
    have hp := hreach.ne_content (Root.place_ne_content hc)
    cases p with
    | content d =>
      have hindex : d.index ≠ c.index := fun he ↦ hp (by cases c; cases d; simp_all)
      exact (Store.get?_set_ne _ hindex v).trans hholds
    | _ => exact hholds
  refine (hg.anchored.setCell (Root.place_ne_content hc) hsound hw).grasps hreach hold ?_
  have hval := hg.arrives.value
  cases hreach with
  | root =>
    cases root with
    | cell d => exact (Heap.cell_setCell_ne _ (fun he ↦ hc (congrArg _ he)) v).trans hval
    | _ => exact hval
  | element hu k => exact valueAt_element hold

/-- **Assigning to a key**, or to a cell that it refers to. -/
theorem Grasps.follows_assigned (hg : w.Grasps root path p t) (hr : w.Represents F) (hv : w.Valid)
    (hl : l.key.IsNormal) (ho : w.Offers v S) (hb : F.blocks root path l.key = false) :
    Follows w { w with heap := w.heap.assigned t l v } (F.assign root path l.key S) ∧
      Grasps { w with heap := w.heap.assigned t l v } root path p t := by
  obtain ⟨hmem, hS⟩ := ho
  have ha := hv.admits_held hmem
  have hw := hg.anchored.not_within_of_mem_held hmem
  obtain ⟨-, hm⟩ := hg.arrives.exists_pairs hr hv
  rcases Heap.find?_cases hm l.key with ⟨hf, hps⟩ | ⟨u, S₀, hf, hps, hS₀⟩
  · rw [Heap.assigned_of_ne_reference (by simp [hf]), Forest.assign_of_ne_reference (by simp [hps]),
      Table.assign, Pairs.assign, hf, hps]
    exact hg.follows_insertNew hr hv hf hl hw ha hS
  · by_cases hc : ∃ c, u = .reference c
    · obtain ⟨c, rfl⟩ := hc
      have hsound := Heap.admits_reference_iff.1 (hv.heap.admits_value hf)
      rw [hS₀.reference_iff.1 rfl] at hps
      rw [Heap.assigned_of_reference hf, Forest.assign, hps]
      have hp : w.Present (.cell c) := hsound
      exact ⟨hr.follows_putAt hv hp trivial hS
        ((quietly_heap (.of_quiet (.setCell hsound ha))).valid hv),
        hg.setCell (ne_cell_of_blocks hb hps) hsound hw⟩
    · have hne := not_exists.1 hc
      rw [Heap.assigned_of_ne_reference (by simpa [hf] using hne), Forest.assign_of_ne_reference,
        Table.assign, Pairs.assign, hf, hps]
      · exact hg.follows_put hr hv hf hw ha hS
      · intro c he
        rw [hps] at he
        exact hne c (hS₀.reference_iff.2 (Option.some.inj he))

/-- What was under a key goes on showing what it showed when something is assigned. -/
theorem Anchored.shows_assigned (ha : w.Anchored root.place path t) (hv : w.Valid)
    (hf : (w.heap.table t).find? l.key = some (.value u)) (hs : w.heap.Shows u S) (v : Value) :
    (w.heap.assigned t l v).Shows u S := by
  by_cases hc : ∃ c, u = .reference c
  · obtain ⟨c, rfl⟩ := hc
    rw [Heap.assigned_of_reference hf]
    exact hs.congr hv.heap fun _ ↦ rfl
  · rw [Heap.assigned_of_ne_reference (by simpa [hf] using not_exists.1 hc)]
    refine hs.congr hv.heap fun {x} hx ↦ Heap.table_setTable_ne _ ?_ _
    rintro rfl
    exact ha.not_within_of_find? hf hx

/-- What an assignment replaces shows what it replaces in the forest. -/
theorem Grasps.shows_overwritten (hg : w.Grasps root path p t) (hr : w.Represents F) (hv : w.Valid)
    (l : Label) (v : Value) : Option.Rel (w.heap.assigned t l v).Shows
      (w.heap.overwritten? t l.key) (F.overwritten? root path l.key) := by
  obtain ⟨-, hm⟩ := hg.arrives.exists_pairs hr hv
  rcases Heap.find?_cases hm l.key with ⟨hf, hps⟩ | ⟨u, S, hf, hps, hS⟩
  · rw [Heap.overwritten?, Forest.overwritten?, hf, hps]
    exact .none
  · by_cases hc : ∃ c, u = .reference c
    · obtain ⟨c, rfl⟩ := hc
      have hsound := Heap.admits_reference_iff.1 (hv.heap.admits_value hf)
      rw [hS.reference_iff.1 rfl] at hps
      rw [Heap.overwritten?, Forest.overwritten?, hf, hps, Heap.assigned_of_reference hf]
      exact .some ((hr.shows_cell hsound).congr hv.heap fun _ ↦ rfl)
    · rw [Heap.overwritten?_of_ne_reference hf (not_exists.1 hc),
        Forest.overwritten?_of_ne_reference hps fun c he ↦ hc ⟨c, hS.reference_iff.2 he⟩]
      exact .some (hg.anchored.shows_assigned hv hf hS v).shown

/-- Assigning to a key of the array at a place. -/
theorem Arrives.follows_storeKey (ha : w.Arrives root path p t) (hr : w.Represents F) (hv : w.Valid)
    (hops : ∀ u ∈ operands, w.heap.Admits u) (ho : w.Offers v S)
    (hb : F.blocks root path l.normalize.key = false) :
    Follows w (w.storeKey p l v operands).1 (F.assign root path l.normalize.key S) ∧
      Option.Rel (w.storeKey p l v operands).1.heap.Shows (w.storeKey p l v operands).2
        (F.overwritten? root path l.normalize.key) ∧
      ∃ t', (w.storeKey p l v operands).1.Grasps root path p t' := by
  obtain ⟨hf, hg⟩ := ha.follows_separate hr hv hops
  rw [storeKey_eq, hf.valid.heap.store_eq (hg.anchored.sound hf.valid)]
  obtain ⟨hf', hg'⟩ := hg.follows_assigned hf.represents hf.valid l.normalize_isNormal
    (hf.offers ho) hb
  exact ⟨hf.trans hf', hg.shows_overwritten hf.represents hf.valid l.normalize v, _, hg'⟩

/-- Whether assigning to a key is blocked. -/
theorem Arrives.isBlocked_eq (ha : w.Arrives root path p t) (hr : w.Represents F) (hv : w.Valid)
    {borrowed : List CellId} (hb : ∀ c, c ∈ borrowed ↔ root = .cell c) (k : Key) :
    w.isBlocked ⟨t, k⟩ borrowed = F.blocks root path k := by
  obtain ⟨-, hm⟩ := ha.exists_pairs hr hv
  rcases Heap.find?_cases hm k with ⟨hf, hps⟩ | ⟨u, S, hf, hps, hS⟩
  · rw [isBlocked, Heap.read, Heap.slot?, hf, Forest.blocks, hps]
  · by_cases hc : ∃ c, u = .reference c
    · obtain ⟨c, rfl⟩ := hc
      rw [hS.reference_iff.1 rfl] at hps
      rw [isBlocked, Heap.read, Heap.binding?, Heap.slot?, hf, Forest.blocks, hps]
      simp [hb]
    · rw [Forest.blocks_of_ne_reference, isBlocked, Heap.read, Heap.slot?, hf]
      · split
        next c he => exact absurd ⟨c, he⟩ hc
        · rfl
      · intro c he
        rw [hps] at he
        exact hc ⟨c, hS.reference_iff.2 (Option.some.inj he)⟩

/-! ### Appending -/

/-- The next key of the array at a place. -/
theorem Arrives.storedKeys_eq (ha : w.Arrives root path p t) (hr : w.Represents F) (hv : w.Valid) :
    (w.heap.table t).storedKeys = (F.pairs root path).keys :=
  (ha.exists_pairs hr hv).2.keys_eq

/-- A new element under the next key. -/
theorem Grasps.follows_add (hg : w.Grasps root path p t) (hr : w.Represents F) (hv : w.Valid)
    {n : Int64} (hn : nextKey (F.pairs root path).keys = some n) (hw : ¬ w.heap.Within t v)
    (ha : w.heap.Admits v) (hS : w.heap.Shows v S) :
    Follows w { w with heap :=
          w.heap.setTable t ((w.heap.table t).insertNew (Label.int n) (.value v)) }
        (F.put root path (.array ((F.pairs root path).add (.int n) S))) ∧
      Grasps { w with heap :=
          w.heap.setTable t ((w.heap.table t).insertNew (Label.int n) (.value v)) }
        root path p t := by
  refine hg.follows_insertNew hr hv (l := Label.int n) ?_ trivial hw ha hS
  rw [Table.find?_eq_none_iff_notMem, hg.arrives.storedKeys_eq hr hv]
  exact notMem_of_nextKey hn

/-- Appending a value. -/
theorem Arrives.follows_push (ha : w.Arrives root path p t) (hr : w.Represents F) (hv : w.Valid)
    (ho : w.Offers v S) : ∃ w' F' r, w.push p v = (w', r) ∧
      F.push root path S = (F', r) ∧ Follows w w' F' ∧
        ∀ n, r = .ok n → ∃ t', w'.Grasps root path p t' := by
  have hkeys := ha.storedKeys_eq hr hv
  rw [Forest.push]
  cases hn : nextKey (F.pairs root path).keys with
  | none =>
    rw [push_eq_error hv ha.value (hkeys ▸ hn)]
    exact ⟨w, F, _, rfl, rfl, hr.follows hv, fun _ he ↦ nomatch he⟩
  | some n =>
    have hops := (hv.admits_held ho.held).of_mem_singleton
    obtain ⟨hf, hg⟩ := ha.follows_separate hr hv hops
    have htable := table_separate hv p hops
    rw [tableAt_of_valueAt ha.value] at htable
    obtain ⟨hmem, hS⟩ := hf.offers ho
    obtain ⟨hf', hg'⟩ := hg.follows_add hf.represents hf.valid hn
      (hg.anchored.not_within_of_mem_held hmem) (hf.valid.admits_held hmem) hS
    rw [push_eq_ok hv ha.value (hg.anchored.sound hf.valid).knows htable (hkeys ▸ hn), ← htable]
    exact ⟨_, _, _, rfl, rfl, hf.trans hf', fun _ _ ↦ ⟨_, hg'⟩⟩

/-! ### Open elements -/

/-- Whether an element of an anchored table is there to be written to. -/
structure Opened (w : Workspace) (root : Root) (path : List Key) (t : TableId) (k : Key) : Prop where
  anchored : w.Anchored root.place path t
  stored : ∃ u, (w.heap.table t).find? k = some (.value u)

/-- Appending null, for the new element to be written to. -/
theorem Arrives.follows_append (ha : w.Arrives root path p t) (hr : w.Represents F) (hv : w.Valid) :
    (w.append p [] = (w, .error .slotOccupied) ∧
        F.push root path .null = (F, .error .slotOccupied)) ∨
      ∃ w' F' t' n, w.append p [] = (w', .ok ⟨t', .int n⟩) ∧ F.push root path .null = (F', .ok n) ∧
        Follows w w' F' ∧ w'.Opened root path t' (.int n) := by
  have hkeys := ha.storedKeys_eq hr hv
  rw [Forest.push]
  cases hn : nextKey (F.pairs root path).keys with
  | none => exact .inl ⟨append_eq_error hv ha.value (hkeys ▸ hn) [], rfl⟩
  | some n =>
    obtain ⟨hf, hg⟩ := ha.follows_separate hr hv Heap.admits_of_mem_nil
    obtain ⟨hf', hg'⟩ := hg.follows_add (v := .null) hf.represents hf.valid hn
      (Heap.not_within_of_ne_array fun _ he ↦ nomatch he) Heap.admits_null (Heap.shows_of_flat rfl)
    refine .inr ⟨_, _, _, n, append_eq_ok hv ha.value (hkeys ▸ hn) [], rfl, hf.trans hf',
      hg'.anchored, .null, ?_⟩
    show ((w.separate p []).1.heap.setTable _ _ |>.table _).find? _ = _
    rw [hg.anchored.table_setTable hf.valid, Table.find?_insertNew]
    · exact if_pos rfl
    · rw [Table.find?_eq_none_iff_notMem, hg.arrives.storedKeys_eq hf.represents hf.valid]
      exact notMem_of_nextKey hn

/-- Opening the element under a key. -/
theorem Arrives.follows_openElement (ha : w.Arrives root path p t) (hr : w.Represents F)
    (hv : w.Valid) (l : Label) : ∃ w' t', w.openElement p l [] = (w', ⟨t', l.normalize.key⟩) ∧
      Follows w w' (F.ready root path l.normalize.key) ∧
        w'.Opened root path t' l.normalize.key := by
  obtain ⟨hf, hg⟩ := ha.follows_separate hr hv Heap.admits_of_mem_nil
  obtain ⟨hf', hg'⟩ := hg.follows_materialize hf.represents hf.valid l.normalize_isNormal
  refine ⟨_, _, openElement_eq w p l [], hf.trans hf', hg'.anchored, ?_⟩
  have hsound := hg.anchored.sound hf.valid
  show ∃ u, (((w.separate p []).1.heap.materialize _ _).table _).find? _ = _
  rw [hf.valid.heap.materialize_eq hsound, hg.anchored.table_setTable hf.valid, Table.find?_ready]
  cases hs : ((w.separate p []).1.heap.table (w.separate p []).2).find? l.normalize.key with
  | none => exact ⟨.null, rfl⟩
  | some s =>
    obtain ⟨u, rfl⟩ := hf.valid.heap.exists_value hsound hs
    by_cases hu : u = .undefined
    · rw [hu]
      exact ⟨.null, rfl⟩
    · refine ⟨u, ?_⟩
      cases u <;> first | rfl | exact absurd rfl hu

/-! ### Taking out and assigning in turn -/

/-- Taking a key out. -/
theorem Arrives.follows_unsetKey (ha : w.Arrives root path p t) (hr : w.Represents F) (hv : w.Valid)
    (k : Key) : ∃ w' F' b, w.unsetKey p k = (w', b) ∧ F.unset root path k.normalize = (F', b) ∧
      Follows w w' F' := by
  have heffect : w.Effect (fun _ _ ↦ True) (w.unsetKey p k).1 :=
    effect_unsetKey hv p k fun c ↦ find?_ne_binding hv (by
      rw [tableAt_of_valueAt ha.value]
      exact (hv.sound_of_holds (ha.holds hv) ha.reached.ne_symbols).bindings_eq_zero) _ c
  obtain ⟨hf, hg⟩ := ha.follows_separate hr hv Heap.admits_of_mem_nil
  obtain ⟨-, hm⟩ := ha.exists_pairs hr hv
  have hv' := heffect.valid hv
  rw [unsetKey, tableAt_of_valueAt ha.value] at hv' ⊢
  rw [Forest.unset]
  rcases Heap.find?_cases hm k.normalize with ⟨hn, hps⟩ | ⟨u, S, hn, hps, -⟩
  · rw [Table.find?_eq_none_iff] at hn
    rw [if_neg (by simp [hn]), hps]
    exact ⟨w, F, false, rfl, rfl, hr.follows hv⟩
  · have hstored : (w.heap.table t).stores k.normalize = true := by
      rw [← Bool.not_eq_false, ← Table.find?_eq_none_iff, hn]
      exact fun he ↦ by cases he
    rw [if_pos hstored] at hv' ⊢
    rw [hps]
    have hnd := (hf.valid.heap.table_wellFormed (w.separate p []).2).keys_nodup
    obtain ⟨-, hm'⟩ := hg.arrives.exists_pairs hf.represents hf.valid
    have hnd' := (hv'.heap.table_wellFormed (w.separate p []).2).keys_nodup
    rw [hg.anchored.table_setTable hf.valid] at hnd'
    obtain ⟨hf', -⟩ := hg.follows_setTable hf.represents hf.valid
      (hg.anchored.leadsAway.remove hnd k.normalize) hnd' (hm'.remove hnd k.normalize) hv'
    exact ⟨_, _, true, rfl, rfl, hf.trans hf'⟩

/-- Assigning to keys in turn. -/
theorem Arrives.follows_extend {pairs : List (Label × Value)} {qs : Pairs Tree}
    (ha : w.Arrives root path p t) (hr : w.Represents F) (hv : w.Valid) {borrowed : List CellId}
    (hb : ∀ c, c ∈ borrowed ↔ root = .cell c)
    (hpq : List.Forall₂ (fun a q ↦ a.1.normalize.key = q.1 ∧ w.Offers a.2 q.2) pairs qs) :
    w.blocksPairs p borrowed pairs = true ∧ F.extend root path qs = none ∨
      w.blocksPairs p borrowed pairs = false ∧
        ∃ F', F.extend root path qs = some F' ∧ Follows w (w.extend p pairs) F' := by
  induction pairs generalizing w F t qs with
  | nil =>
    cases hpq
    exact .inr ⟨rfl, F, rfl, hr.follows hv⟩
  | cons q rest ih =>
    obtain ⟨l, v⟩ := q
    cases hpq with
    | @cons _ q _ qs hq hrest =>
      obtain ⟨k, S⟩ := q
      obtain ⟨rfl, ho⟩ := hq
      rw [blocksPairs, tableAt_of_valueAt ha.value, ha.isBlocked_eq hr hv hb, Forest.extend]
      cases hblock : F.blocks root path l.normalize.key with
      | true => exact .inl ⟨rfl, rfl⟩
      | false =>
        have hops : ∀ u ∈ v :: rest.map (·.2), w.heap.Admits u := by
          have hheld : List.Forall₂ (fun a (_ : Key × Tree) ↦ a.2 ∈ w.held ∧ True) rest qs :=
            hrest.imp fun _ _ h ↦ ⟨h.2.held, trivial⟩
          rw [List.forall₂_and_left] at hheld
          intro u hu
          rcases List.mem_cons.1 hu with rfl | hu
          · exact hv.admits_held ho.held
          · obtain ⟨q, hq, rfl⟩ := List.mem_map.1 hu
            exact hv.admits_held (hheld.1 q hq)
        obtain ⟨hf, -, t', hg⟩ := ha.follows_storeKey hr hv hops ho hblock
        have hrest' : List.Forall₂ (fun a q ↦ a.1.normalize.key = q.1 ∧
            (w.storeKey p l v (v :: rest.map (·.2))).1.Offers a.2 q.2) rest qs :=
          hrest.imp fun _ _ h ↦ ⟨h.1, hf.offers h.2⟩
        rcases ih hg.arrives hf.represents hf.valid hrest' with ⟨hb₁, hn⟩ | ⟨hb₁, F', hF', hf'⟩
        · exact .inl ⟨hb₁, hn⟩
        · exact .inr ⟨hb₁, F', hF', hf.trans hf'⟩

end SharedValue.Workspace
