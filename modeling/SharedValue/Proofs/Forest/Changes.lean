import SharedValue.Proofs.Forest.Related
import SharedValue.Proofs.Forest.Writing

/-!
# Changes in step

A change of an array in a workspace and the same change in a forest go *in step* (`InStep`): both
have no result, or both have one, the forest follows, and the outcomes show the views. Deeds on an
open element go in step one after the other (`Opened.inStep_perform`), for each of them leaves the
element open; a change of a whole array is one of the operations on it (`Arrives.inStep_edit`). -/

namespace SharedValue

/-! ### What is replaced -/

namespace Heap

/-- What was there when a value is replaced: the content of the cell if it is a reference. -/
def behind (h : Heap) : Value → Value
  | .reference c => h.cell c
  | v => v

theorem behind_of_ne_reference {h : Heap} {u : Value} (hu : ∀ c, u ≠ .reference c) :
    h.behind u = u := by
  cases u with
  | reference c => exact absurd rfl (hu c)
  | _ => rfl

/-- What is behind a reference is there. -/
theorem Valid.admits_behind {h : Heap} {u : Value} (hv : h.Valid) (ha : h.Admits u) :
    h.Admits (h.behind u) := by
  cases u with
  | reference c => exact hv.admits_cell c
  | _ => exact ha

/-- Another content of a table makes no way to it. -/
theorem within_of_within_setTable {h : Heap} {t : TableId} {T : Table} {u : Value}
    (hw : (h.setTable t T).Within t u) : h.Within t u := by
  obtain ⟨x, rfl, hb⟩ := hw
  refine within_array_iff.2 ?_
  induction hb using Relation.ReflTransGen.head_induction_on with
  | refl => exact .refl
  | @head y z hc _ ih =>
    by_cases hy : y = t
    · rw [hy]
      exact .refl
    · obtain ⟨k, hk⟩ := hc
      rw [table_setTable_ne _ hy] at hk
      exact .head ⟨k, hk⟩ ih

/-- What an assignment leaves inside a value was there before. -/
theorem within_of_within_assigned {h : Heap} {t : TableId} {l : Label} {v u : Value}
    (hw : (h.assigned t l v).Within t u) : h.Within t u := by
  rw [assigned] at hw
  split at hw
  · exact hw
  · exact within_of_within_setTable hw

end Heap

theorem Value.expectArray_of_ne {v : Value} (hv : ¬ ∃ t, v = .array t) :
    v.expectArray = .error (.typeMismatch .array v.kind) := by
  cases v with
  | array t => exact absurd ⟨t, rfl⟩ hv
  | _ => rfl

theorem Tree.expectArray_of_ne {S : Tree} (hS : ¬ ∃ ps, S = .array ps) :
    S.expectArray = .error (.typeMismatch .array S.kind) := by
  cases S with
  | array ps => exact absurd ⟨ps, rfl⟩ hS
  | _ => rfl

namespace Workspace

variable {w w' w₁ : Workspace} {F F' F₁ : Forest} {root : Root} {path : List Key} {p : Place}
  {t : TableId} {k : Key} {l : Label} {v u : Value} {S : Tree} {borrowed : List CellId}

/-! ### Going in step -/

/-- Whether outcomes show views, all values among them being held. -/
def Answers (w : Workspace) (os : List Outcome) (views : List View) : Prop :=
  List.Forall₂ (Outcome.Gives w.Offers) os views

/-- Whether an operation on a workspace and one on a forest both have no result, or have results
that are alike and lead to a forest that follows. -/
inductive InStep {ε : Type} (w : Workspace) : Option (Workspace × Except ε (List Outcome)) →
    Option (Forest × Except ε (List View)) → Prop
  | none : InStep w none none
  | some {w' : Workspace} {F' : Forest} {r : Except ε (List Outcome)} {r' : Except ε (List View)}
      (hf : Follows w w' F') (ha : Alike w'.Answers r r') : InStep w (some (w', r)) (some (F', r'))

/-- What goes in step after a change goes in step with it. -/
theorem Follows.inStep {ε : Type} {x : Option (Workspace × Except ε (List Outcome))}
    {y : Option (Forest × Except ε (List View))} (h : Follows w w₁ F₁) (hs : InStep w₁ x y) :
    InStep w x y := by
  cases hs with
  | none => exact .none
  | some hf ha => exact .some (h.trans hf) ha

/-! ### Deeds on an open element -/

/-- An anchored table can be grasped at the place that alone holds it. -/
theorem Anchored.exists_grasps (ha : w.Anchored root.place path t) :
    ∃ p, w.Grasps root path p t := by
  have hp := ha.present
  cases ha with
  | root hb hval hs => exact ⟨_, ⟨.root hb, hp, hval⟩, .root hb hval hs, hs.holds⟩
  | child hu hs =>
    exact ⟨_, ⟨.element hu _, hp, valueAt_element hs.holds⟩, .child hu hs, hs.holds⟩

/-- An opened element is under a normal key. -/
theorem Opened.isNormal (ho : w.Opened root path t k) (hv : w.Valid) : k.IsNormal := by
  obtain ⟨u, hf⟩ := ho.stored
  refine (hv.heap.table_wellFormed t).keys_normal k ?_
  rw [← not_not (a := k ∈ _), ← Table.find?_eq_none_iff_notMem, hf]
  exact fun he ↦ nomatch he

/-- What an open element holds, and the tree that it shows. -/
theorem Opened.exists_shows (ho : w.Opened root path t k) (hr : w.Represents F) (hv : w.Valid) :
    ∃ u S, (w.heap.table t).find? k = some (.value u) ∧ (F.pairs root path).find? k = some S ∧
      F.peek root (path ++ [k]) = S ∧ w.heap.read ⟨t, k⟩ = u ∧ w.heap.Shows u S := by
  obtain ⟨u, hf⟩ := ho.stored
  obtain ⟨-, hm⟩ := hr.exists_pairs hv ho.anchored
  obtain ⟨S, hps, u', hu, hS⟩ := hm.exists_of_find? hf
  obtain rfl := Slot.value.inj hu
  refine ⟨u, S, hf, hps, ?_, ?_, hS⟩
  · rw [Forest.peek_concat, hps]
    rfl
  · rw [Heap.read, Heap.slot?, hf]

/-- Assigning to an element that is there. -/
theorem replace_eq_assigned (hf : (w.heap.table t).find? k = some (.value u)) (v : Value) :
    w.replace ⟨t, k⟩ v =
      ({ w with heap := w.heap.assigned t ⟨k, .interned⟩ v }, w.heap.behind u) := by
  rw [replace]
  by_cases hc : ∃ c, u = .reference c
  · obtain ⟨c, rfl⟩ := hc
    rw [Heap.replace_reference hf, Heap.assigned_of_reference (l := ⟨k, .interned⟩) hf]
    rfl
  · have hne := not_exists.1 hc
    have hassign : (w.heap.table t).assign ⟨k, .interned⟩ v = (w.heap.table t).put k (.value v) := by
      rw [Table.assign, hf]
    rw [Heap.replace_of_ne_reference hf hne, Heap.behind_of_ne_reference hne,
      Heap.assigned_of_ne_reference (by simpa [hf] using hne), hassign]

/-- An element that holds a value holds one after an assignment. -/
theorem stored_assigned (hv : w.Valid) (ha : w.Anchored root.place path t)
    (hf : (w.heap.table t).find? k = some (.value u)) (v : Value) :
    ∃ u', ((w.heap.assigned t ⟨k, .interned⟩ v).table t).find? k = some (.value u') := by
  by_cases hc : ∃ c, u = .reference c
  · obtain ⟨c, rfl⟩ := hc
    rw [Heap.assigned_of_reference (l := ⟨k, .interned⟩) hf]
    exact ⟨_, hf⟩
  · rw [Heap.assigned_of_ne_reference (by simpa [hf] using not_exists.1 hc), ha.table_setTable hv,
      Table.assign, hf]
    refine ⟨v, ?_⟩
    show ((w.heap.table t).put k (.value v)).find? k = _
    rw [Table.find?_put, if_pos rfl, hf]
    rfl

/-- Assigning to an open element. -/
theorem Opened.follows_assigned (ho : w.Opened root path t k) (hr : w.Represents F) (hv : w.Valid)
    (hS : w.Offers v S) (hb : F.blocks root path k = false) :
    Follows w { w with heap := w.heap.assigned t ⟨k, .interned⟩ v } (F.assign root path k S) ∧
      Opened { w with heap := w.heap.assigned t ⟨k, .interned⟩ v } root path t k := by
  obtain ⟨p, hg⟩ := ho.anchored.exists_grasps
  obtain ⟨u, hf⟩ := ho.stored
  obtain ⟨hf', hg'⟩ := hg.follows_assigned (l := ⟨k, .interned⟩) hr hv (ho.isNormal hv) hS hb
  exact ⟨hf', hg'.anchored, stored_assigned hv ho.anchored hf v⟩

/-- What is behind a reference shows what is behind it in the forest. -/
theorem Represents.shows_behind (hr : w.Represents F) (hS : w.heap.Shows u S)
    (ha : w.heap.Admits u) : w.heap.Shows (w.heap.behind u) (F.behind S) := by
  cases u with
  | reference c =>
    obtain rfl := hS.eq_of_flat rfl
    exact hr.shows_cell (Heap.admits_reference_iff.1 ha)
  | array t =>
    obtain ⟨ps, rfl, -⟩ := hS.exists_matches
    exact hS
  | _ =>
    obtain rfl := hS.eq_of_flat rfl
    exact hS

/-- Replacing what an open element holds. What was there goes on showing what it showed. -/
theorem Opened.shows_behind (ho : w.Opened root path t k) (hr : w.Represents F) (hv : w.Valid)
    (hf : (w.heap.table t).find? k = some (.value u)) (hS : w.heap.Shows u S) (v : Value) :
    (w.heap.assigned t ⟨k, .interned⟩ v).Shows (w.heap.behind u) (F.behind S) := by
  have hshows := hr.shows_behind hS (hv.heap.admits_value hf)
  by_cases hc : ∃ c, u = .reference c
  · obtain ⟨c, rfl⟩ := hc
    rw [Heap.assigned_of_reference (l := ⟨k, .interned⟩) hf]
    exact hshows.congr hv.heap fun _ ↦ rfl
  · rw [Heap.behind_of_ne_reference (not_exists.1 hc)] at hshows ⊢
    exact ho.anchored.shows_assigned (l := ⟨k, .interned⟩) hv hf hshows v

/-- What is behind an element of an anchored table does not lead back to the table. -/
theorem Anchored.not_within_behind (ha : w.Anchored root.place path t)
    (hf : (w.heap.table t).find? k = some (.value u))
    (hroot : ∀ c, u = .reference c → root ≠ .cell c) : ¬ w.heap.Within t (w.heap.behind u) := by
  by_cases hc : ∃ c, u = .reference c
  · obtain ⟨c, rfl⟩ := hc
    rintro ⟨x, hx, hb⟩
    exact ha.not_within_of_holds (Root.place_ne_content (hroot c rfl)).symm
      (Root.isOutside_place (.cell c)) (holds_content_iff.2 hx) (Heap.within_array_iff.2 hb)
  · rw [Heap.behind_of_ne_reference (not_exists.1 hc)]
    exact ha.not_within_of_find? hf

/-- An element is blocked exactly if it is in the forest. -/
theorem Opened.isBlocked_eq (ho : w.Opened root path t k) (hr : w.Represents F) (hv : w.Valid)
    (hb : ∀ c, c ∈ borrowed ↔ root = .cell c) :
    w.isBlocked ⟨t, k⟩ borrowed = F.blocks root path k := by
  obtain ⟨p, hg⟩ := ho.anchored.exists_grasps
  exact hg.arrives.isBlocked_eq hr hv hb k

/-- Holding a value that an anchored table does not lead back from. -/
theorem Opened.follows_hold (ho : w.Opened root path t k) (hr : w.Represents F) (hv : w.Valid)
    (hw : ¬ w.heap.Within t v) (ha : w.heap.Admits v) (hS : w.heap.Shows v S) :
    Follows w (w.hold [v]) F ∧ (w.hold [v]).Offers v S ∧ (w.hold [v]).Opened root path t k := by
  refine ⟨hr.follows_hold hv ha.of_mem_singleton, ⟨?_, hS.congr hv.heap fun _ ↦ rfl⟩, ?_, ho.stored⟩
  · exact List.mem_append_right _ List.mem_cons_self
  · refine ho.anchored.hold fun u hu ↦ ?_
    rwa [List.mem_singleton.1 hu]

/-- **A deed on an open element.** It is blocked in both or in neither, and leaves the element open
unless it fails. -/
theorem Opened.act_inStep (ho : w.Opened root path t k) (hr : w.Represents F) (hv : w.Valid)
    (hb : ∀ c, c ∈ borrowed ↔ root = .cell c) {d : Deed Value} {d' : Deed Tree}
    (hd : Deed.Rel w.Offers d d') :
    w.blocksAct ⟨t, k⟩ borrowed d.act = true ∧ F.act root path k d' = none ∨
      w.blocksAct ⟨t, k⟩ borrowed d.act = false ∧ ∃ w' F' r r',
        w.act ⟨t, k⟩ borrowed d.act = (w', r) ∧ F.act root path k d' = some (F', r') ∧
          Follows w w' F' ∧ Alike (Outcome.Gives w'.Offers) r r' ∧
            ∀ o, r = .ok o → w'.Opened root path t k := by
  obtain ⟨u, S₀, hf, hps, hpeek, hread, hS₀⟩ := ho.exists_shows hr hv
  have hw := ho.anchored.not_within_of_find? hf
  have ha := hv.heap.admits_value hf
  have hblocked := ho.isBlocked_eq hr hv hb
  cases hd with
  | read =>
    obtain ⟨hf', hoff, ho'⟩ := ho.follows_hold hr hv hw ha hS₀
    refine .inr ⟨rfl, w.hold [u], F, .ok (.value u), .ok (.tree S₀), ?_, ?_, hf', .ok (.value hoff),
      fun _ _ ↦ ho'⟩
    · rw [Deed.act, Workspace.act, hread]
    · rw [Forest.act, hpeek]
  | @assign v S hS =>
    rw [Deed.act, blocksAct, hblocked, Forest.act]
    cases hblock : F.blocks root path k with
    | true => exact .inl ⟨rfl, rfl⟩
    | false =>
      obtain ⟨hf', ho'⟩ := ho.follows_assigned hr hv hS hblock
      refine .inr ⟨rfl, _, _, .ok .done, .ok .done, ?_, rfl, hf', .ok .done, fun _ _ ↦ ho'⟩
      rw [Workspace.act, Workspace.assign, replace_eq_assigned hf]
  | @replace v S hS =>
    rw [Deed.act, blocksAct, hblocked, Forest.act]
    cases hblock : F.blocks root path k with
    | true => exact .inl ⟨rfl, rfl⟩
    | false =>
      obtain ⟨hf', ho'⟩ := ho.follows_assigned hr hv hS hblock
      have hroot : ∀ c, u = .reference c → root ≠ .cell c := by
        rintro c rfl
        exact Grasps.ne_cell_of_blocks hblock (hS₀.eq_of_flat rfl ▸ hps)
      have hw' : ¬ (w.heap.assigned t ⟨k, .interned⟩ v).Within t (w.heap.behind u) := fun hx ↦
        ho.anchored.not_within_behind hf hroot (Heap.within_of_within_assigned hx)
      have ha' : (w.heap.assigned t ⟨k, .interned⟩ v).Admits (w.heap.behind u) := by
        have hq := quietly_replace hv ⟨t, k⟩ (hv.admits_held hS.held)
        rw [replace_eq_assigned hf] at hq
        exact hq.admits (hv.heap.admits_behind ha)
      obtain ⟨hf'', hoff, ho''⟩ := ho'.follows_hold hf'.represents hf'.valid hw' ha'
        (ho.shows_behind hr hv hf hS₀ v)
      refine .inr ⟨rfl, _, _, .ok (.value (w.heap.behind u)), .ok (.tree (F.behind S₀)), ?_, ?_,
        hf'.trans hf'', .ok (.value hoff), fun _ _ ↦ ho''⟩
      · rw [Workspace.act, replace_eq_assigned hf]
      · rw [hpeek]
        rfl
  | @overwrite v S hS =>
    obtain ⟨p, hg⟩ := ho.anchored.exists_grasps
    obtain ⟨hf', hg'⟩ := hg.follows_put hr hv hf (ho.anchored.not_within_of_mem_held hS.held)
      (hv.admits_held hS.held) hS.shows
    refine .inr ⟨rfl, _, _, .ok .done, .ok .done, ?_, rfl, hf', .ok .done,
      fun _ _ ↦ ⟨hg'.anchored, v, ?_⟩⟩
    · rw [Deed.act, Workspace.act, overwrite, Heap.write, Heap.slot?, hf]
    · show ((w.heap.setTable t _).table t).find? k = _
      rw [ho.anchored.table_setTable hv, Table.find?_put, if_pos rfl, hf]
      rfl
  | @push v S hS =>
    refine .inr ⟨rfl, ?_⟩
    have hval : w.valueAt (.element ⟨t, k⟩) = u := hread
    rw [Deed.act, Workspace.act, expectArrayAt, hval, Forest.act, hpeek]
    by_cases hu : ∃ x, u = .array x
    · obtain ⟨x, rfl⟩ := hu
      have harrives : w.Arrives root (path ++ [k]) (.element ⟨t, k⟩) x :=
        ⟨.element ho.anchored k, ho.anchored.present, hval⟩
      obtain ⟨ps, rfl, -⟩ := hS₀.exists_matches
      obtain ⟨w', F', r, hpush, hpush', hf', hg⟩ := harrives.follows_push hr hv hS
      rw [Value.expectArray, Tree.expectArray]
      dsimp only
      rw [hpush, hpush']
      cases r with
      | error e =>
        exact ⟨w', F', .error e, .error e, rfl, rfl, hf', .error e, fun _ he ↦ by cases he⟩
      | ok n =>
        refine ⟨w', F', .ok (.index n), .ok (.index n), rfl, rfl, hf', .ok (.index n), fun _ _ ↦ ?_⟩
        obtain ⟨t', hg⟩ := hg n rfl
        obtain ⟨path', he, ha'⟩ := hg.anchored.exists_parent hg.holds
        obtain rfl := (List.append_inj' he rfl).1
        exact ⟨ha', _, hg.holds⟩
    · rw [Value.expectArray_of_ne hu, Tree.expectArray_of_ne fun hS₁ ↦ hu (hS₀.array_iff.2 hS₁),
        hS₀.kind_eq]
      exact ⟨w, F, _, _, rfl, rfl, hr.follows hv, .error _, fun _ he ↦ by cases he⟩

/-- One more outcome before the others. -/
theorem InStep.cons {x : Option (Workspace × Except ValueError (List Outcome))}
    {y : Option (Forest × Except ValueError (List View))} (h : InStep w x y) {o : Outcome}
    {view : View} (ho : o.Gives w.Offers view) :
    InStep w (x.map fun p ↦ (p.1, p.2.map (o :: ·))) (y.map fun p ↦ (p.1, p.2.map (view :: ·))) := by
  cases h with
  | none => exact .none
  | some hf ha =>
    cases ha with
    | ok ha => exact .some hf (.ok (.cons (ho.imp hf.offers) ha))
    | error e => exact .some hf (.error e)

/-- The first deed is done, and the others are if it has no failure. -/
theorem performDeeds_cons (w : Workspace) (e : Element) (borrowed : List CellId) (d : Deed Value)
    (rest : List (Deed Value)) : w.performDeeds e borrowed (d :: rest) =
      if w.blocksAct e borrowed d.act then none
      else match w.act e borrowed d.act with
        | (w₁, .error err) => some (w₁, .error err)
        | (w₁, .ok o) =>
          (w₁.performDeeds e borrowed rest).map fun p ↦ (p.1, p.2.map (o :: ·)) := by
  rw [performDeeds, List.map_cons, blocksActs, perform]
  cases hb : w.blocksAct e borrowed d.act with
  | true => rfl
  | false =>
    obtain ⟨w₁, r⟩ := w.act e borrowed d.act
    cases r with
    | error err => rfl
    | ok o =>
      show (if w₁.blocksActs e borrowed (rest.map Deed.act) then none else _) = _
      simp only [performDeeds, Bool.false_eq_true, if_false]
      cases w₁.blocksActs e borrowed (rest.map Deed.act) with
      | true => rfl
      | false =>
        obtain ⟨w₂, r'⟩ := w₁.perform e borrowed (rest.map Deed.act)
        cases r' <;> rfl

/-- **Deeds on an open element go in step.** -/
theorem Opened.inStep_perform {deeds : List (Deed Value)} {deeds' : List (Deed Tree)}
    (ho : w.Opened root path t k) (hr : w.Represents F) (hv : w.Valid)
    (hb : ∀ c, c ∈ borrowed ↔ root = .cell c) (hd : List.Forall₂ (Deed.Rel w.Offers) deeds deeds') :
    InStep w (w.performDeeds ⟨t, k⟩ borrowed deeds) (F.perform root path k deeds') := by
  induction deeds generalizing w F deeds' with
  | nil =>
    cases hd
    exact .some (hr.follows hv) (.ok .nil)
  | cons d rest ih =>
    cases hd with
    | @cons _ d' _ rest' hd hrest =>
      rw [performDeeds_cons, Forest.perform]
      rcases ho.act_inStep hr hv hb hd with ⟨hblock, hact⟩ |
        ⟨hblock, w', F', r, r', hact, hact', hf, ha, ho'⟩
      · rw [hblock, hact]
        exact .none
      · rw [hblock, hact, hact']
        cases ha with
        | error err => exact .some hf (.error err)
        | @ok o view hview =>
          have hrest' : List.Forall₂ (Deed.Rel w'.Offers) rest rest' :=
            hrest.imp fun _ _ h ↦ h.imp hf.offers
          exact hf.inStep ((ih (ho' o rfl) hf.represents hf.valid hrest').cons hview)

/-! ### Changes of a whole array -/

/-- **A change of an array goes in step.** -/
theorem Arrives.inStep_edit (ha : w.Arrives root path p t) (hr : w.Represents F) (hv : w.Valid)
    (hb : ∀ c, c ∈ borrowed ↔ root = .cell c) {e : Edit Label Value} {e' : Edit Key Tree}
    (he : Edit.Rel (fun l k ↦ l.normalize.key = k) w.Offers e e') :
    InStep w (w.edit p borrowed e) (F.edit root path e') := by
  cases he with
  | clear => exact .some (ha.follows_clear hr hv) (.ok (.cons .done .nil))
  | @insert l _ v S hk ho =>
    subst hk
    rw [Workspace.edit, tableAt_of_valueAt ha.value, ha.isBlocked_eq hr hv hb, Forest.edit]
    cases hblock : F.blocks root path l.normalize.key with
    | true => exact .none
    | false =>
      have hadmits := hv.admits_held ho.held
      obtain ⟨hf, hold, -⟩ := ha.follows_storeKey hr hv hadmits.of_mem_singleton ho hblock
      have hadm : ∀ old, (w.insertKey p l v).2 = some old →
          (w.insertKey p l v).1.heap.Admits old := fun old ↦ admits_insertKey hv hadmits
      rw [insertKey] at hadm ⊢
      dsimp only [Bool.false_eq_true, if_false]
      generalize w.storeKey p l v [v] = stored at *
      obtain ⟨w₁, old⟩ := stored
      have hold' : ∀ u ∈ old.toList, w₁.heap.Admits u := fun u hu ↦ hadm u (by simpa using hu)
      have hf' := hf.represents.follows_hold hf.valid hold'
      refine .some (hf.trans hf') (.ok ?_)
      cases hold' : F.overwritten? root path l.normalize.key with
      | none =>
        rw [hold'] at hold
        cases hold
        exact .nil
      | some S' =>
        rw [hold'] at hold
        cases hold with
        | @some u _ hu =>
          refine .cons (.value ⟨?_, hu.congr hf.valid.heap fun _ ↦ rfl⟩) .nil
          exact List.mem_append_right _ List.mem_cons_self
  | @push v S ho =>
    obtain ⟨w', F', r, hpush, hpush', hf, -⟩ := ha.follows_push hr hv ho
    rw [Workspace.edit, hpush, Forest.edit, hpush']
    cases r with
    | error err => exact .some hf (.error err)
    | ok n => exact .some hf (.ok (.cons (.index n) .nil))
  | @unset l _ hk =>
    obtain ⟨w', F', b, hunset, hunset', hf⟩ := ha.follows_unsetKey hr hv l.key
    rw [← Label.key_normalize, hk] at hunset'
    rw [Workspace.edit, hunset, Forest.edit, hunset']
    exact .some hf (.ok (.cons (.flag b) .nil))
  | @extend pairs qs hpq =>
    rw [Workspace.edit, Forest.edit]
    rcases ha.follows_extend hr hv hb hpq with ⟨hblock, hn⟩ | ⟨hblock, F', hF, hf⟩
    · rw [hblock, hn]
      exact .none
    · rw [hblock, hF]
      exact .some hf (.ok (.cons .done .nil))
  | @«open» l _ deeds deeds' hk hd =>
    subst hk
    obtain ⟨w', t', hopen, hf, ho⟩ := ha.follows_openElement hr hv l
    rw [Workspace.edit, hopen, Forest.edit]
    exact hf.inStep (ho.inStep_perform hf.represents hf.valid hb
      (hd.imp fun _ _ h ↦ h.imp hf.offers))
  | @append deeds deeds' hd =>
    rw [Workspace.edit, Forest.edit]
    rcases ha.follows_append hr hv with ⟨happend, hpush⟩ |
      ⟨w', F', t', n, happend, hpush, hf, ho⟩
    · rw [happend, hpush]
      exact .some (hr.follows hv) (.error _)
    · rw [happend, hpush]
      exact hf.inStep (ho.inStep_perform hf.represents hf.valid hb
        (hd.imp fun _ _ h ↦ h.imp hf.offers))

end Workspace

end SharedValue
