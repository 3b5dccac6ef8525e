import SharedValue.Proofs.Forest.Shows
import SharedValue.Proofs.Workspace.Target

/-!
# What a forest represents

A forest represents a workspace when the value at each root shows the tree there. The workspace may
hold one table for many trees; a change of an anchored table is a change of the one tree that its
path leads to (`Anchored.shows_update`), so the forest follows with `Forest.put` and goes on
representing the workspace (`Represents.setTable`). Separating a place changes no tree at all
(`Represents.separate`).

`Follows` is what an operation has to establish: the forest represents the workspace that the
operation leads to, and what was held goes on showing what it showed. -/

namespace SharedValue

/-- What can be put at a root: an object has an array of properties always. -/
def Root.Takes : Root → Value → Prop
  | .object _, v => ∃ t, v = .array t
  | _, _ => True

namespace Workspace

variable {w w' w'' : Workspace} {F F' F'' : Forest} {root root' : Root} {path path' : List Key}
  {t u x : TableId} {k : Key} {v : Value} {S S' : Tree} {ps : Pairs Tree} {p : Place}

/-! ### Roots -/

/-- Whether there is something at a root. -/
def Present (w : Workspace) : Root → Prop
  | .register _ => True
  | .cell c => w.heap.Sound (.cell c)
  | .object o => w.heap.Sound (.object o)

theorem holds_root (hp : w.Present root) (hval : w.valueAt root.place = .array t) :
    w.Holds t root.place := by
  cases root with
  | register name => exact mem_registers hval fun he ↦ nomatch he
  | cell c => exact holds_content_iff.2 hval
  | object o =>
    obtain ⟨r, hr⟩ := hp
    refine ⟨r, hr, ?_⟩
    have hval : Value.array (w.heap.properties o) = .array t := hval
    rw [← Value.array.inj hval, Heap.properties, hr]
    rfl

theorem present_of_holds (hh : w.Holds t root.place) : w.Present root := by
  cases root with
  | register name => trivial
  | cell c => exact ⟨_, hh⟩
  | object o => exact hh.imp fun _ hr ↦ hr.1

/-! ### Trees along a path -/

/-- Whether a table is not on a path from a root, nor beyond its end. -/
def OffPath (w : Workspace) (root : Root) (path : List Key) (x : TableId) : Prop :=
  ∀ path', path <+: path' → ¬ w.Anchored root.place path' x

/-- What leads to an anchored table is in the element that its path goes through. -/
theorem Anchored.key_eq_of_within (hu : w.Anchored root.place path u) {j : Key}
    (hf : (w.heap.table u).find? j = some (.value v)) (hw : w.heap.Within x v)
    (hx : w.Anchored root.place path' x) (hp : path ++ [k] <+: path') : j = k := by
  obtain ⟨y, rfl, hb⟩ := hw
  obtain ⟨path₁, hp₁, hy⟩ := hx.exists_of_below hb
  obtain ⟨path₂, rfl, hu'⟩ := hy.exists_parent (k := j) hf
  rw [hu'.path_eq hu] at hp₁
  -- both paths go on from the same table
  obtain ⟨rest, rfl⟩ := hp
  obtain ⟨rest', he⟩ := hp₁
  rw [List.append_assoc, List.append_assoc] at he
  have he := List.append_cancel_left he
  exact (List.cons.inj he).1

/-- **A path leads to the same place in the value at its root and in the tree.** Where the table at
its end shows another tree, and all tables off the path are as they were, the value shows the tree
with that one in place. -/
theorem Anchored.shows_update (ha : w.Anchored root.place path t) (hv : w.Valid) {R : Tree}
    (hR : w.heap.Shows (w.valueAt root.place) R) :
    w.heap.Shows (.array t) (R.peek path) ∧ R.update (R.peek path) path = R ∧
      ∀ {h' : Heap} {S'}, (∀ {x}, w.OffPath root path x → w.heap.Knows x →
        h'.table x = w.heap.table x) → h'.Shows (.array t) S' →
          h'.Shows (w.valueAt root.place) (R.update S' path) := by
  induction ha with
  | root _ hval hs =>
    rw [hval] at hR ⊢
    exact ⟨hR, rfl, fun _ hs' ↦ hs'⟩
  | @child path u k t hu hs ih =>
    obtain ⟨hshows, hsame, hupdate⟩ := ih
    obtain ⟨us, hus, hm⟩ := hshows.exists_matches
    have hf : (w.heap.table u).find? k = some (.value (.array t)) := hs.holds
    have hnd := (hv.heap.table_wellFormed u).keys_nodup
    obtain ⟨S, hfind, v, hslot, hS⟩ := hm.exists_of_find? hf
    obtain rfl := Slot.value.inj hslot
    have hpeek : R.peek (path ++ [k]) = S := by
      rw [Tree.peek_append, hus]
      show ((us.find? k).getD .undefined) = S
      rw [hfind]
      rfl
    have hput : ∀ S', R.update S' (path ++ [k]) = R.update (.array (us.put k S')) path := by
      intro S'
      rw [Tree.update_append, hus]
      rfl
    refine ⟨hpeek ▸ hS, ?_, fun {h' S'} hoff hS' ↦ ?_⟩
    · rw [hput, hpeek, Pairs.put_of_find? (hm.keys_eq ▸ hnd) hfind, ← hus, hsame]
    · rw [hput]
      refine hupdate (fun {x} hx hk ↦ hoff (fun path' hp ↦ hx path' ?_) hk) ?_
      · exact (List.prefix_append _ _).trans hp
      · -- the table before is as it was, and so is what is under its other keys
        have hu' : h'.table u = w.heap.table u := by
          refine hoff (fun path' hp hux ↦ ?_) (hu.sound hv).knows
          have hlen := hp.length_le
          rw [hux.path_eq hu, List.length_append] at hlen
          exact Nat.not_succ_le_self _ hlen
        refine Heap.shows_of_matches ?_
        rw [hu']
        refine hm.put_right (fun {e b} he hne ↦ ?_) fun {e} he hek ↦ ?_
        · rintro ⟨v, hv', hshow⟩
          have hfe := Table.find?_of_mem hnd he
          rw [hv'] at hfe
          refine ⟨v, hv', hshow.congr hv.heap fun {x} hx ↦ hoff (fun path' hp hax ↦ ?_) ?_⟩
          · exact hne (hu.key_eq_of_within hfe hx hax hp)
          · obtain ⟨y, rfl, hb⟩ := hx
            exact hv.knows_of_below (hv.knows_of_holds (p := .element ⟨u, e.key⟩) hfe) hb
        · have hfe := Table.find?_of_mem hnd he
          rw [hek, hf] at hfe
          exact ⟨_, (Option.some.inj hfe).symm, hS'⟩

/-! ### Representing a workspace -/

/-- Whether a forest has as many things as a workspace, under the same names. -/
structure Tallies (w : Workspace) (F : Forest) : Prop where
  registers : ∀ name, (F.registers.get? name).isSome = (w.registers.get? name).isSome
  cells : F.cells.length = w.heap.cells.fresh
  objects : F.objects.length = w.heap.objects.fresh
  resources : F.resources.length = w.heap.resources.fresh
  resource : ∀ {i r}, w.heap.resources.get? i = some r → F.resources[i]? = some r.handle

/-- Whether the value at each root shows the tree there. -/
structure Represents (w : Workspace) (F : Forest) : Prop where
  tallies : w.Tallies F
  shows : ∀ {root}, w.Present root → w.heap.Shows (w.valueAt root.place) (F.get root)

theorem Represents.shows_operand (hr : w.Represents F) (name : String) :
    w.heap.Shows (w.operand name) (F.operand name) := by
  have hp : w.Present (.register name) := trivial
  exact hr.shows hp

theorem Represents.shows_cell (hr : w.Represents F) {c : CellId} (hc : w.heap.Sound (.cell c)) :
    w.heap.Shows (w.heap.cell c) (F.get (.cell c)) := by
  have hp : w.Present (.cell c) := hc
  exact hr.shows hp

theorem Represents.shows_properties (hr : w.Represents F) {o : ObjectId}
    (ho : w.heap.Sound (.object o)) :
    w.heap.Shows (.array (w.heap.properties o)) (.array (F.pairs (.object o) [])) := by
  have hp : w.Present (.object o) := ho
  exact hr.shows hp

theorem Tallies.has (ht : w.Tallies F) (hp : w.Present root) : F.Has root := by
  cases root with
  | register name => trivial
  | cell c =>
    obtain ⟨v, hc⟩ := hp
    have hlt := Store.lt_fresh_of_get? hc
    rwa [← ht.cells] at hlt
  | object o =>
    obtain ⟨r, ho⟩ := hp
    have hlt := Store.lt_fresh_of_get? ho
    rwa [← ht.objects] at hlt

/-- A tree put at a root that is there. -/
theorem Tallies.set (ht : w.Tallies F)
    (hroot : ∀ name, root = .register name → (w.registers.get? name).isSome = true) (S : Tree) :
    w.Tallies (F.set root S) := by
  cases root with
  | register name =>
    refine { ht with registers := fun other ↦ ?_ }
    show ((F.registers.set name S).get? other).isSome = _
    rw [Registry.get?_set]
    split
    next he =>
      rw [he, hroot name rfl]
      rfl
    · exact ht.registers other
  | cell c => exact { ht with cells := List.length_set.trans ht.cells }
  | object o => exact { ht with objects := List.length_set.trans ht.objects }

theorem Tallies.put (ht : w.Tallies F) (ha : w.Anchored root.place path t) (S : Tree)
    (path' : List Key) :
    w.Tallies (F.put root path' S) := by
  refine ht.set (fun name he ↦ ?_) _
  obtain ⟨u, hu⟩ := ha.exists_base
  subst he
  have hmem : (name, Value.array u) ∈ w.registers := hu
  cases hg : w.registers.get? name with
  | none =>
    rw [Registry.get?_eq_none_iff] at hg
    rw [Registry.has_iff_mem.2 (List.mem_map_of_mem hmem)] at hg
    cases hg
  | some v => rfl

/-- Another workspace in which all roots but one are as they were. -/
theorem Represents.of_root (hr : w.Represents F) (hv : w.Valid) (ht : w'.Tallies F') (root : Root)
    (hroot : w'.Present root → w'.heap.Shows (w'.valueAt root.place) (F'.get root))
    (hother : ∀ {r}, r ≠ root → w'.Present r → w.Present r ∧
      w'.valueAt r.place = w.valueAt r.place ∧ F'.get r = F.get r ∧
        ∀ {x}, w.heap.Within x (w.valueAt r.place) → w'.heap.table x = w.heap.table x) :
    w'.Represents F' := by
  refine ⟨ht, fun {r} hp ↦ ?_⟩
  by_cases hne : r = root
  · rw [hne] at hp ⊢
    exact hroot hp
  · obtain ⟨hp', hval, hget, htab⟩ := hother hne hp
    rw [hval, hget]
    exact (hr.shows hp').congr hv.heap htab

/-- Another workspace in which all roots are as they were. -/
theorem Represents.congr (hr : w.Represents F) (hv : w.Valid) (ht : w'.Tallies F)
    (hsame : ∀ {r}, w'.Present r → w.Present r ∧ w'.valueAt r.place = w.valueAt r.place ∧
      ∀ {x}, w.heap.Within x (w.valueAt r.place) → w'.heap.table x = w.heap.table x) :
    w'.Represents F := by
  refine ⟨ht, fun {r} hp ↦ ?_⟩
  obtain ⟨hp', hval, htab⟩ := hsame hp
  rw [hval]
  exact (hr.shows hp').congr hv.heap htab

/-- Another forest with the same trees. -/
theorem Represents.of_get_eq (hr : w.Represents F) (ht : w.Tallies F')
    (hget : ∀ {r}, w.Present r → F'.get r = F.get r) : w.Represents F' :=
  ⟨ht, fun hp ↦ by
    rw [hget hp]
    exact hr.shows hp⟩

/-! ### Anchored tables -/

theorem Anchored.present (ha : w.Anchored root.place path t) : w.Present root := by
  obtain ⟨u, hu⟩ := ha.exists_base
  exact present_of_holds hu

/-- The array at the end of a path. -/
theorem Represents.exists_pairs (hr : w.Represents F) (hv : w.Valid)
    (ha : w.Anchored root.place path t) :
    F.peek root path = .array (F.pairs root path) ∧
      (w.heap.table t).Matches w.heap.SlotShows (F.pairs root path) := by
  have hshows := (ha.shows_update hv (hr.shows ha.present)).1
  obtain ⟨ps, hps, hm⟩ := hshows.exists_matches
  have hpeek : F.peek root path = .array ps := hps
  rw [Forest.pairs, hpeek]
  exact ⟨rfl, hm⟩

theorem Tallies.get_put (ht : w.Tallies F) (hp : w.Present root) (ps : Pairs Tree)
    (path : List Key) :
    (F.put root path (.array ps)).get root = (F.get root).update (.array ps) path := by
  refine Forest.get_set_self (ht.has hp) fun o _ ↦ ?_
  cases path <;> rfl

/-- **Another content of an anchored table.** -/
theorem Represents.setTable (hr : w.Represents F) (hv : w.Valid) (ha : w.Anchored root.place path t)
    {T : Table} (hT : w.heap.LeadsAway t T) (hnd : T.storedKeys.Nodup)
    (hm : T.Matches w.heap.SlotShows ps) :
    Represents { w with heap := w.heap.setTable t T } (F.put root path (.array ps)) := by
  have hsame : ∀ {x}, x ≠ t → (w.heap.setTable t T).table x = w.heap.table x :=
    fun hx ↦ Heap.table_setTable_ne _ hx T
  have hself : (w.heap.setTable t T).table t = T := ha.table_setTable hv T
  have htallies : Tallies { w with heap := w.heap.setTable t T } (F.put root path (.array ps)) :=
    { hr.tallies.put ha (.array ps) path with }
  refine hr.of_root hv htallies root (fun _ ↦ ?_) fun {r} hne hp ↦ ⟨?_, ?_, ?_, fun {x} hx ↦ ?_⟩
  · -- nothing in the table leads back to it, so the elements show what they showed
    rw [valueAt_setTable_of_isOutside _ root.isOutside_place, hr.tallies.get_put ha.present]
    refine (ha.shows_update hv (hr.shows ha.present)).2.2 (fun {x} hx _ ↦ hsame ?_) ?_
    · rintro rfl
      exact hx path List.prefix_rfl ha
    · refine Heap.shows_of_matches ?_
      rw [hself]
      refine hm.imp fun {e p} he _ ↦ ?_
      rintro ⟨v, hslot, hS⟩
      have hf := Table.find?_of_mem hnd he
      rw [hslot] at hf
      refine ⟨v, hslot, hS.congr hv.heap fun {x} hx ↦ hsame ?_⟩
      rintro rfl
      exact hT _ _ hf hx
  · cases r <;> exact hp
  · exact w.valueAt_setTable_of_isOutside r.isOutside_place t T
  · exact Forest.get_set_of_ne F hne _
  · refine hsame ?_
    rintro rfl
    have hp' : w.Present r := by cases r <;> exact hp
    obtain ⟨y, hy, hb⟩ := hx
    exact ha.not_within_of_holds (fun he ↦ hne (Root.place_inj _ he)) r.isOutside_place
      (holds_root hp' hy) (Heap.within_array_iff.2 hb)

/-! ### Following an operation -/

/-- Whether a forest represents the workspace that an operation led to, and what was held goes on
showing what it showed. -/
structure Follows (w w' : Workspace) (F' : Forest) : Prop where
  valid : w'.Valid
  represents : w'.Represents F'
  held : w.held ⊆ w'.held
  shows : ∀ {v S}, v ∈ w.held → w.heap.Shows v S → w'.heap.Shows v S

/-- Whether a value that is held shows a tree. -/
structure Offers (w : Workspace) (v : Value) (S : Tree) : Prop where
  held : v ∈ w.held
  shows : w.heap.Shows v S

theorem Follows.offers (h : Follows w w' F') (ho : w.Offers v S) : w'.Offers v S :=
  ⟨h.held ho.held, h.shows ho.held ho.shows⟩

theorem Represents.follows (hr : w.Represents F) (hv : w.Valid) : Follows w w F :=
  ⟨hv, hr, fun _ hmem ↦ hmem, fun _ hs ↦ hs⟩

theorem Follows.trans (h : Follows w w' F') (h' : Follows w' w'' F'') : Follows w w'' F'' where
  valid := h'.valid
  represents := h'.represents
  held := fun _ hmem ↦ h'.held (h.held hmem)
  shows := fun hmem hs ↦ h'.shows (h.held hmem) (h.shows hmem hs)

theorem Present.knows_of_within (hp : w.Present root) (hv : w.Valid)
    (hx : w.heap.Within x (w.valueAt root.place)) : w.heap.Knows x := by
  obtain ⟨y, hy, hb⟩ := hx
  exact hv.knows_of_below (hv.knows_of_holds (holds_root hp hy)) hb

theorem Valid.knows_of_within_held (hv : w.Valid) (hmem : v ∈ w.held)
    (hx : w.heap.Within x v) : w.heap.Knows x := by
  obtain ⟨y, rfl, hb⟩ := hx
  exact hv.knows_of_below (Heap.admits_array_iff.1 (hv.admits_held hmem)).knows hb

/-- A tree put where it is already. -/
theorem Follows.of_set_get (h : Follows w w' (F.set root (F.get root))) (ht : w.Tallies F)
    (hp : w.Present root)
    (hreg : ∀ name, root = .register name → (w.registers.get? name).isSome = true) :
    Follows w w' F := by
  refine { h with represents := h.represents.of_get_eq ?_ fun {r} _ ↦ ?_ }
  · have hset := h.represents.tallies
    cases root with
    | register name =>
      refine { hset with registers := fun other ↦ ?_ }
      rw [← hset.registers other]
      show _ = ((F.registers.set name _).get? other).isSome
      rw [Registry.get?_set]
      split
      next he => rw [he, ht.registers, hreg name rfl]; rfl
      · rfl
    | cell c => exact { hset with cells := List.length_set.symm.trans hset.cells }
    | object o => exact { hset with objects := List.length_set.symm.trans hset.objects }
  · by_cases hne : r = root
    · rw [hne, Forest.get_set_self (ht.has hp)]
      rintro o rfl
      rfl
    · exact (Forest.get_set_of_ne F hne _).symm

/-- Something new is there, or held. What is not new is as it was. -/
theorem Represents.follows_of_grows (hr : w.Represents F) (hv : w.Valid) (hv' : w'.Valid)
    (ht : w'.Tallies F') (hheld : w.held ⊆ w'.held)
    (hknows : ∀ {x}, w.heap.Knows x → w'.heap.table x = w.heap.table x)
    (hroots : ∀ {r}, w'.Present r →
      (w.Present r ∧ w'.valueAt r.place = w.valueAt r.place ∧ F'.get r = F.get r) ∨
        w'.heap.Shows (w'.valueAt r.place) (F'.get r)) :
    Follows w w' F' where
  valid := hv'
  represents := by
    refine ⟨ht, fun {r} hp ↦ ?_⟩
    rcases hroots hp with ⟨hp', hval, hget⟩ | hnew
    · rw [hval, hget]
      exact (hr.shows hp').congr hv.heap fun hx ↦ hknows (hp'.knows_of_within hv hx)
    · exact hnew
  held := hheld
  shows := fun hmem hs ↦ hs.congr hv.heap fun hx ↦ hknows (hv.knows_of_within_held hmem hx)

theorem Represents.follows_hold (hr : w.Represents F) (hv : w.Valid) {vs : List Value}
    (hvs : ∀ v ∈ vs, w.heap.Admits v) : Follows w (w.hold vs) F := by
  refine hr.follows_of_grows hv ((quietly_hold hvs).valid hv) { hr.tallies with }
    (List.subset_append_left _ _) (fun _ ↦ rfl) fun {r} hp ↦ .inl ?_
  cases r <;> exact ⟨hp, rfl, rfl⟩

theorem Represents.follows_withBuffers (hr : w.Represents F) (hv : w.Valid) (n : Nat) :
    Follows w (w.withBuffers n) F := by
  refine hr.follows_of_grows hv (valid_withBuffers_iff.2 hv) { hr.tallies with }
    (fun _ hmem ↦ hmem) (fun _ ↦ rfl) fun {r} hp ↦ .inl ?_
  cases r <;> exact ⟨hp, rfl, rfl⟩

theorem valueAt_newTable_of_present (hp : w.Present root) (T : Table) :
    valueAt { w with heap := (w.heap.newTable T).1 } root.place = w.valueAt root.place := by
  cases root with
  | object o =>
    obtain ⟨r, hr⟩ := hp
    show Value.array (Heap.properties _ o) = .array (w.heap.properties o)
    rw [Heap.properties, Heap.properties, Heap.newTable, hr]
    rfl
  | _ => rfl

/-- A new table. -/
theorem Represents.follows_newTable (hr : w.Represents F) (hv : w.Valid) {T : Table}
    (hv' : Valid { w with heap := (w.heap.newTable T).1 }) :
    Follows w { w with heap := (w.heap.newTable T).1 } F := by
  refine hr.follows_of_grows hv hv' { hr.tallies with } (fun _ hmem ↦ hmem)
    (fun hx ↦ Heap.table_newTable_of_knows hx T) fun {r} hp ↦ .inl ?_
  have hp' : w.Present r := by cases r <;> exact hp
  exact ⟨hp', valueAt_newTable_of_present hp' T, rfl⟩

/-! ### New things -/

/-- A new cell. -/
theorem Represents.follows_newCell (hr : w.Represents F) (hv : w.Valid) (hS : w.heap.Shows v S)
    (ha : w.heap.Admits v) : Follows w { w with heap := (w.heap.newCell v).1 }
      { F with cells := F.cells ++ [S] } := by
  refine hr.follows_of_grows hv ((quietly_heap (.of_quiet (.newCell ha))).valid hv)
    { hr.tallies with cells := ?_ } (fun _ hmem ↦ hmem) (fun _ ↦ rfl) fun {r} hp ↦ ?_
  · show (F.cells ++ [S]).length = (w.heap.cells.add v).fresh
    rw [List.length_append, hr.tallies.cells, Store.fresh_add]
    rfl
  · cases r with
    | cell c =>
      obtain ⟨u, hu⟩ := hp
      have hu : (w.heap.cells.add v).get? c.index = some u := hu
      rw [Store.get?_add] at hu
      have hcell : Heap.cell (w.heap.newCell v).1 c = if c.index = w.heap.cells.fresh then v
          else w.heap.cell c := by
        show ((w.heap.cells.add v).get? c.index).getD _ = _
        rw [Store.get?_add]
        split <;> rfl
      by_cases hc : c.index = w.heap.cells.fresh
      · rw [if_pos hc] at hcell
        refine .inr ?_
        have hget : ((F.cells ++ [S])[c.index]?).getD .undefined = S := by
          rw [hc, ← hr.tallies.cells, List.getElem?_concat_length]
          rfl
        show (w.heap.newCell v).1.Shows (Heap.cell (w.heap.newCell v).1 c)
          (((F.cells ++ [S])[c.index]?).getD .undefined)
        rw [hcell, hget]
        exact hS.congr hv.heap fun _ ↦ rfl
      · rw [if_neg hc] at hcell hu
        refine .inl ⟨⟨u, hu⟩, hcell, ?_⟩
        have hlt := Store.lt_fresh_of_get? hu
        rw [← hr.tallies.cells] at hlt
        show ((F.cells ++ [S])[c.index]?).getD _ = _
        rw [List.getElem?_append_left hlt]
        rfl
    | _ => exact .inl ⟨hp, rfl, rfl⟩

/-- A new object. -/
theorem Represents.follows_newObject (hr : w.Represents F) (hv : w.Valid)
    (hS : w.heap.Shows (.array t) (.array ps)) (ht : w.heap.Sound (.table t)) (s : Str) :
    Follows w { w with heap := (w.heap.newObject s t).1 }
      { F with objects := F.objects ++ [ps] } := by
  refine hr.follows_of_grows hv ((quietly_heap (.of_quiet (.newObject s ht))).valid hv)
    { hr.tallies with objects := ?_ } (fun _ hmem ↦ hmem) (fun _ ↦ rfl) fun {r} hp ↦ ?_
  · show (F.objects ++ [ps]).length = (w.heap.objects.add _).fresh
    rw [List.length_append, hr.tallies.objects, Store.fresh_add]
    rfl
  · cases r with
    | object o =>
      obtain ⟨u, hu⟩ := hp
      have hu : (w.heap.objects.add ⟨s, t⟩).get? o.index = some u := hu
      have hprop : Heap.properties (w.heap.newObject s t).1 o = u.properties := by
        show (((w.heap.objects.add ⟨s, t⟩).get? o.index).map (·.properties)).getD _ = _
        rw [hu]
        rfl
      rw [Store.get?_add] at hu
      by_cases ho : o.index = w.heap.objects.fresh
      · rw [if_pos ho] at hu
        have hget : ((F.objects ++ [ps])[o.index]?).getD [] = ps := by
          rw [ho, ← hr.tallies.objects, List.getElem?_concat_length]
          rfl
        refine .inr ?_
        show (w.heap.newObject s t).1.Shows (.array (Heap.properties (w.heap.newObject s t).1 o))
          (.array (((F.objects ++ [ps])[o.index]?).getD []))
        rw [hprop, hget, ← Option.some.inj hu]
        exact hS.congr hv.heap fun _ ↦ rfl
      · rw [if_neg ho] at hu
        have hlt := Store.lt_fresh_of_get? hu
        rw [← hr.tallies.objects] at hlt
        refine .inl ⟨⟨u, hu⟩, congrArg Value.array ?_, congrArg Tree.array ?_⟩
        · rw [hprop, Heap.properties, hu]
          rfl
        · show ((F.objects ++ [ps])[o.index]?).getD _ = _
          rw [List.getElem?_append_left hlt]
    | _ => exact .inl ⟨hp, rfl, rfl⟩

/-- A new resource. -/
theorem Represents.follows_newResource (hr : w.Represents F) (hv : w.Valid) (n : Int64) (s : Str) :
    Follows w { w with heap := (w.heap.newResource n s).1 }
      { F with resources := F.resources ++ [n] } := by
  refine hr.follows_of_grows hv ((quietly_heap (.of_quiet (.newResource n s))).valid hv)
    { hr.tallies with resources := ?_, resource := fun {i r} hi ↦ ?_ } (fun _ hmem ↦ hmem)
    (fun _ ↦ rfl) fun {r} hp ↦ .inl ?_
  · show (F.resources ++ [n]).length = (w.heap.resources.add _).fresh
    rw [List.length_append, hr.tallies.resources, Store.fresh_add]
    rfl
  · have hi : (w.heap.resources.add ⟨n, s⟩).get? i = some r := hi
    rw [Store.get?_add] at hi
    show (F.resources ++ [n])[i]? = _
    split at hi
    next he =>
      rw [he, ← hr.tallies.resources, List.getElem?_concat_length, ← Option.some.inj hi]
    · have hlt := Store.lt_fresh_of_get? hi
      rw [← hr.tallies.resources] at hlt
      rw [List.getElem?_append_left hlt, hr.tallies.resource hi]
  · cases r <;> exact ⟨hp, rfl, rfl⟩

/-- Another content of an anchored table. -/
theorem Represents.follows_setTable (hr : w.Represents F) (hv : w.Valid)
    (ha : w.Anchored root.place path t) {T : Table} (hT : w.heap.LeadsAway t T)
    (hnd : T.storedKeys.Nodup) (hm : T.Matches w.heap.SlotShows ps)
    (hv' : Valid { w with heap := w.heap.setTable t T }) :
    Follows w { w with heap := w.heap.setTable t T } (F.put root path (.array ps)) where
  valid := hv'
  represents := hr.setTable hv ha hT hnd hm
  held := fun _ hmem ↦ hmem
  shows := fun hmem hs ↦ hs.congr hv.heap fun {x} hx ↦ Heap.table_setTable_ne _ (by
    rintro rfl
    exact ha.not_within_of_mem_held hmem hx) T

/-! ### Another value at a root -/

theorem table_putAt_root (w : Workspace) (root : Root) (v : Value) (x : TableId) :
    (w.putAt root.place v).heap.table x = w.heap.table x := by
  cases root with
  | object o =>
    cases v with
    | array n => exact table_putAt_of_ne (p := .properties o) (fun _ he ↦ nomatch he) n
    | _ => rfl
  | _ => rfl

theorem held_putAt_root (w : Workspace) (root : Root) (v : Value) :
    (w.putAt root.place v).held = w.held := by
  cases root with
  | object o => cases v <;> rfl
  | _ => rfl

theorem Present.putAt_object {o : ObjectId} (hp : w.Present (.object o)) (n : TableId) :
    ∃ r, w.heap.objects.get? o.index = some r ∧ w.putAt (.properties o) (.array n) =
      { w with heap := { w.heap with
          objects := w.heap.objects.set o.index { r with properties := n } } } := by
  obtain ⟨r, hr⟩ := hp
  refine ⟨r, hr, ?_⟩
  show { w with heap := w.heap.setProperties o n } = _
  rw [Heap.setProperties, hr]

theorem present_putAt_root (hp : w.Present root) :
    (w.putAt root.place v).Present root' ↔ w.Present root' := by
  cases root with
  | register name => cases root' <;> exact Iff.rfl
  | cell c =>
    cases root' with
    | cell d =>
      obtain ⟨u, hu⟩ := hp
      show (∃ x, (w.heap.cells.set c.index v).get? d.index = some x) ↔ _
      rw [Store.get?_set_of_get? hu]
      split
      next he => exact iff_of_true ⟨v, rfl⟩ ⟨u, he ▸ hu⟩
      · exact Iff.rfl
    | _ => exact Iff.rfl
  | object o =>
    cases v with
    | array n =>
      obtain ⟨r, hr, hput⟩ := hp.putAt_object n
      rw [Root.place, hput]
      cases root' with
      | object o' =>
        show (∃ x, (w.heap.objects.set o.index _).get? o'.index = some x) ↔ _
        rw [Store.get?_set_of_get? hr]
        split
        next he => exact iff_of_true ⟨_, rfl⟩ ⟨r, he ▸ hr⟩
        · exact Iff.rfl
      | _ => exact Iff.rfl
    | _ => cases root' <;> exact Iff.rfl

theorem valueAt_putAt_root (hp : w.Present root) (hv : root.Takes v) :
    (w.putAt root.place v).valueAt root.place = v := by
  cases root with
  | register name =>
    show ((w.registers.set name v).get? name).getD _ = v
    rw [Registry.get?_set, if_pos rfl]
    rfl
  | cell c =>
    obtain ⟨u, hu⟩ := hp
    exact Heap.cell_setCell_self (Store.lt_fresh_of_get? hu) v
  | object o =>
    obtain ⟨n, rfl⟩ := hv
    obtain ⟨r, hr, hput⟩ := hp.putAt_object n
    rw [Root.place, hput]
    show Value.array (Heap.properties _ o) = _
    rw [Heap.properties, Store.get?_set_of_get? hr, if_pos rfl]
    rfl

theorem valueAt_putAt_root_of_ne (w : Workspace) (hne : root' ≠ root) (v : Value) :
    (w.putAt root.place v).valueAt root'.place = w.valueAt root'.place := by
  cases root with
  | register name =>
    cases root' with
    | register other =>
      show ((w.registers.set name v).get? other).getD _ = _
      rw [Registry.get?_set, if_neg fun he ↦ hne (congrArg _ he)]
      rfl
    | _ => rfl
  | cell c =>
    cases root' with
    | cell d => exact Heap.cell_setCell_ne _ (fun he ↦ hne (congrArg _ he)) v
    | _ => rfl
  | object o =>
    cases v with
    | array n =>
      cases root' with
      | object o' =>
        have hindex : o'.index ≠ o.index := fun he ↦ hne (by cases o; cases o'; simp_all)
        show Value.array ((w.heap.setProperties o n).properties o') = .array (w.heap.properties o')
        rw [Heap.setProperties]
        split
        · rfl
        · rw [Heap.properties, Store.get?_set_ne _ hindex]
          rfl
      | register name => rfl
      | cell c =>
        show (w.heap.setProperties o n).cell c = _
        rw [Heap.setProperties]
        split <;> rfl
    | _ => rfl

theorem tallies_putAt (ht : w.Tallies F) (root : Root) (v : Value) (S : Tree) :
    (w.putAt root.place v).Tallies (F.set root S) := by
  cases root with
  | register name =>
    refine { ht with registers := fun other ↦ ?_ }
    show ((F.registers.set name S).get? other).isSome = ((w.registers.set name v).get? other).isSome
    rw [Registry.get?_set, Registry.get?_set]
    split
    · rfl
    · exact ht.registers other
  | cell c =>
    exact { ht with
      cells := List.length_set.trans (ht.cells.trans (Store.fresh_set _ _ _).symm) }
  | object o =>
    have hset : w.Tallies (F.set (.object o) S) :=
      ht.set (fun _ he ↦ by cases he) S
    cases v with
    | array n =>
      show Tallies { w with heap := w.heap.setProperties o n } _
      rw [Heap.setProperties]
      split
      · exact hset
      · exact { hset with objects := hset.objects.trans (Store.fresh_set _ _ _).symm }
    | _ => exact hset

/-- **Another value at a root.** -/
theorem Represents.follows_putAt (hr : w.Represents F) (hv : w.Valid) (hp : w.Present root)
    (hroot : root.Takes v) (hS : w.heap.Shows v S) (hv' : (w.putAt root.place v).Valid) :
    Follows w (w.putAt root.place v) (F.set root S) where
  valid := hv'
  represents := by
    refine hr.of_root hv (tallies_putAt hr.tallies root v S) root (fun _ ↦ ?_)
      fun {r} hne hp' ↦ ⟨(present_putAt_root hp).1 hp', w.valueAt_putAt_root_of_ne hne v,
        Forest.get_set_of_ne F hne S, fun _ ↦ w.table_putAt_root root v _⟩
    have hget : (F.set root S).get root = S := by
      refine Forest.get_set_self (hr.tallies.has hp) fun o ho ↦ ?_
      subst ho
      obtain ⟨n, rfl⟩ := hroot
      obtain ⟨ps, rfl, -⟩ := hS.exists_matches
      rfl
    rw [valueAt_putAt_root hp hroot, hget]
    exact hS.congr hv.heap fun _ ↦ w.table_putAt_root root v _
  held := fun _ hmem ↦ by rwa [w.held_putAt_root]
  shows := fun _ hs ↦ hs.congr hv.heap fun _ ↦ w.table_putAt_root root v _

end Workspace

end SharedValue
