import SharedValue.Proofs.Assigning
import SharedValue.Proofs.Table.Latest

/-!
# Arrays built from pairs

An array is built by giving values under keys in turn. The first reference that is given under a key
stays there, and what is given under the key later goes through it to its cell; as long as there is
none the last value is there (`Pairs.heldUnder`, `Pairs.through`). So building changes cells that
were there before, and nothing else that was (`Heap.builtBy_newTable`).

Each key is coerced when its turn comes. Where one fails the array is given up, but **what went
through to cells before stays there**: building is not all or nothing
(`Workspace.Reachable.buildsInTurn`), as an insertion is.
-/

namespace SharedValue

/-- The cell that a value refers to. -/
def Value.cell? : Value → Option CellId
  | .reference c => some c
  | _ => none

/-! ### Values given in turn -/

namespace Pairs

variable {ps qs : Pairs Value} {k j : Key} {v : Value} {c : CellId}

/-- The cell that a value goes to that is given under a key: the one that the first reference under
the key is to. -/
def aliasOf (ps : Pairs Value) (k : Key) : Option CellId :=
  ps.findSome? fun p ↦ if p.1 = k then p.2.cell? else none

/-- What is under a key after values were given in turn: the first reference, and as long as there
is none, the last value. -/
def heldUnder (ps : Pairs Value) (k : Key) : Option Value :=
  match ps.aliasOf k with
  | some c => some (.reference c)
  | none => find? ps.reverse k

/-- The values that go through to a cell when pairs are given after others. -/
def through (c : CellId) : (before rest : Pairs Value) → List Value
  | _, [] => []
  | before, p :: rest =>
    if before.aliasOf p.1 = some c then p.2 :: through c (before ++ [p]) rest
    else through c (before ++ [p]) rest

theorem aliasOf_concat (ps : Pairs Value) (j : Key) (v : Value) (k : Key) :
    aliasOf (ps ++ [(j, v)]) k = (ps.aliasOf k).or (if j = k then v.cell? else none) := by
  rw [aliasOf, List.findSome?_append, List.findSome?_singleton]
  rfl

theorem heldUnder_concat_self (ps : Pairs Value) (k : Key) (v : Value) :
    heldUnder (ps ++ [(k, v)]) k =
      match ps.aliasOf k with
      | some c => some (.reference c)
      | none => some v := by
  rw [heldUnder, aliasOf_concat, if_pos rfl, List.reverse_append]
  cases ps.aliasOf k with
  | some c => rfl
  | none =>
    cases v with
    | reference c => rfl
    | _ => exact (find?_cons _ _ _).trans (if_pos rfl)

theorem heldUnder_concat_of_ne (hj : j ≠ k) (ps : Pairs Value) (v : Value) :
    heldUnder (ps ++ [(j, v)]) k = ps.heldUnder k := by
  rw [heldUnder, heldUnder, aliasOf_concat, if_neg hj, Option.or_none, List.reverse_append,
    List.reverse_singleton, List.singleton_append, find?_cons, if_neg hj]

theorem find?_reverse_eq_none_iff : find? ps.reverse k = none ↔ k ∉ ps.keys := by
  rw [find?_eq_none_iff, keys_reverse, List.mem_reverse]

theorem cell?_eq_none_of_aliasOf (hn : ps.aliasOf k = none) (hf : find? ps.reverse k = some v) :
    v.cell? = none := by
  obtain ⟨p, hp, rfl⟩ := Option.map_eq_some_iff.1 hf
  have hkey : p.1 = k := by simpa using List.find?_some hp
  have hmem := List.mem_reverse.1 (List.mem_of_find?_eq_some hp)
  simpa [hkey] using List.findSome?_eq_none_iff.1 hn p hmem

theorem mem_keys_of_aliasOf (hc : ps.aliasOf k = some c) : k ∈ ps.keys := by
  obtain ⟨p, hp, hpc⟩ := List.exists_of_findSome?_eq_some hc
  split at hpc
  next hk => exact hk ▸ List.mem_map_of_mem hp
  · cases hpc

theorem through_concat (c : CellId) (before rest : Pairs Value) (p : Key × Value) :
    through c before (rest ++ [p]) =
      through c before rest ++ if aliasOf (before ++ rest) p.1 = some c then [p.2] else [] := by
  induction rest generalizing before with
  | nil =>
    rw [List.append_nil, List.nil_append, through, through, through]
    split <;> rfl
  | cons q rest ih =>
    rw [List.cons_append, through, through, ih, List.append_assoc, List.singleton_append]
    split <;> rfl

/-- **Nothing goes through to a cell** if it is for no value that of its key. -/
theorem through_eq_nil {before rest : Pairs Value}
    (h : ∀ qs p rs, rest = qs ++ p :: rs → aliasOf (before ++ qs) p.1 ≠ some c) :
    through c before rest = [] := by
  induction rest generalizing before with
  | nil => rfl
  | cons p rest ih =>
    have hhead : before.aliasOf p.1 ≠ some c := by
      simpa using h [] p rest rfl
    rw [through, if_neg hhead]
    refine ih fun qs q rs he ↦ ?_
    rw [List.append_assoc]
    exact h (p :: qs) q rs (congrArg (p :: ·) he)

end Pairs

/-! ### Assigning to a new table in turn -/

namespace Heap

variable {h h' h'' : Heap} {t x : TableId} {ps : Pairs Value} {k : Key} {l : Label} {v : Value}
  {c : CellId} {ls : List (Label × Value)}

/-- Whether a table is what values leave in a new one that are given in turn. -/
structure BuiltFrom (h : Heap) (t : TableId) (ps : Pairs Value) : Prop where
  find?_eq : ∀ k, (h.table t).find? k = (ps.heldUnder k).map .value
  storedKeys_eq : (h.table t).storedKeys = ps.keys.eraseDups

/-- Whether everything but one table and the contents of the cells is as it was. -/
structure SameBeside (h : Heap) (t : TableId) (h' : Heap) : Prop where
  table_eq : ∀ {x}, x ≠ t → h'.table x = h.table x
  objects_eq : h'.objects = h.objects
  resources_eq : h'.resources = h.resources
  buffers_eq : h'.buffers = h.buffers

theorem SameBeside.refl (h : Heap) (t : TableId) : h.SameBeside t h := ⟨fun _ ↦ rfl, rfl, rfl, rfl⟩

theorem SameBeside.trans (hs : h.SameBeside t h') (hs' : h'.SameBeside t h'') :
    h.SameBeside t h'' where
  table_eq hx := (hs'.table_eq hx).trans (hs.table_eq hx)
  objects_eq := hs'.objects_eq.trans hs.objects_eq
  resources_eq := hs'.resources_eq.trans hs.resources_eq
  buffers_eq := hs'.buffers_eq.trans hs.buffers_eq

theorem sameBeside_deliver (h : Heap) (t : TableId) (l : Label) (v : Value) (d : Destination) :
    h.SameBeside t (h.deliver t l v d) := by
  cases d with
  | cell c => exact ⟨fun _ ↦ rfl, rfl, rfl, rfl⟩
  | _ => exact ⟨fun hx ↦ table_setTable_ne _ hx _, rfl, rfl, rfl⟩

theorem sameBeside_newTable (h : Heap) (T : Table) :
    h.SameBeside (h.newTable T).2 (h.newTable T).1 :=
  ⟨fun hx ↦ (table_newTable h T _).trans (if_neg hx), rfl, rfl, rfl⟩

theorem builtFrom_newTable (h : Heap) :
    (h.newTable Table.empty).1.BuiltFrom (h.newTable Table.empty).2 [] := by
  have hempty : (h.newTable Table.empty).1.table (h.newTable Table.empty).2 = Table.empty := by
    rw [table_newTable, if_pos rfl]
  exact ⟨fun k ↦ by rw [hempty]; rfl, by rw [hempty]; rfl⟩

namespace BuiltFrom

variable (hb : h.BuiltFrom t ps)

include hb in
/-- A value goes to the cell of its key, if it has one, and else into the table. -/
theorem destination_eq (k : Key) : h.destination ⟨t, k⟩ =
    match ps.aliasOf k with
    | some c => .cell c
    | none => if k ∈ ps.keys then .slot else .last := by
  have hslot : h.slot? ⟨t, k⟩ = (ps.heldUnder k).map .value := hb.find?_eq k
  rw [Pairs.heldUnder] at hslot
  cases hc : ps.aliasOf k with
  | some c =>
    rw [hc] at hslot
    exact destination_of_reference hslot
  | none =>
    rw [hc] at hslot
    cases hf : Pairs.find? ps.reverse k with
    | none =>
      rw [hf] at hslot
      rw [if_neg (Pairs.find?_reverse_eq_none_iff.1 hf)]
      exact destination_eq_last_iff.2 hslot
    | some u =>
      rw [hf] at hslot
      have hmem : k ∈ ps.keys := by
        by_contra hk
        rw [Pairs.find?_reverse_eq_none_iff.2 hk] at hf
        cases hf
      rw [if_pos hmem]
      refine destination_of_value hslot fun d hd ↦ ?_
      have hnone := Pairs.cell?_eq_none_of_aliasOf hc hf
      rw [hd] at hnone
      cases hnone

include hb in
theorem find?_eq_none_iff : (h.table t).find? k = none ↔ k ∉ ps.keys := by
  rw [Table.find?_eq_none_iff_notMem, hb.storedKeys_eq, List.mem_eraseDups]

include hb in
/-- **One more value is given.** -/
theorem store (hv : h.Valid) (ht : h.Knows t) (hl : l.key.IsNormal) (v : Value) :
    (h.store t l v).1.BuiltFrom t (ps ++ [(l.key, v)]) := by
  have hkeys : (Pairs.keys (ps ++ [(l.key, v)])).eraseDups =
      if l.key ∈ ps.keys then ps.keys.eraseDups else ps.keys.eraseDups ++ [l.key] :=
    (congrArg List.eraseDups List.map_append).trans (Pairs.eraseDups_concat _ _)
  have hself := Pairs.heldUnder_concat_self ps l.key v
  have hne : ∀ {k}, k ≠ l.key → Pairs.heldUnder (ps ++ [(l.key, v)]) k = ps.heldUnder k :=
    fun hk ↦ Pairs.heldUnder_concat_of_ne hk.symm ps v
  have hlt := Store.lt_fresh_of_get? ht.get?
  rw [store_eq_deliver hv hl, hb.destination_eq]
  -- the value goes to a cell, into the slot that there is, or into a new one
  cases hc : ps.aliasOf l.key with
  | some c =>
    rw [hc] at hself
    dsimp only
    refine ⟨fun k ↦ ?_, ?_⟩
    · rw [deliver, table_setCell, hb.find?_eq]
      by_cases hk : k = l.key
      · rw [hk, hself, Pairs.heldUnder, hc]
      · rw [hne hk]
    · rw [hkeys, if_pos (Pairs.mem_keys_of_aliasOf hc), ← hb.storedKeys_eq]
      rfl
  | none =>
    rw [hc] at hself
    dsimp only
    split
    next hmem =>
      obtain ⟨s, hs⟩ := Option.ne_none_iff_exists'.1 (mt hb.find?_eq_none_iff.1 (not_not.2 hmem))
      refine ⟨fun k ↦ ?_, ?_⟩
      · rw [deliver, table_setTable_self hlt, Table.find?_put]
        by_cases hk : k = l.key
        · rw [if_pos hk, hs, hk, hself]
          rfl
        · rw [if_neg hk, hne hk, hb.find?_eq]
      · rw [deliver, table_setTable_self hlt, Table.storedKeys_put, hkeys, if_pos hmem,
          hb.storedKeys_eq]
    next hmem =>
      refine ⟨fun k ↦ ?_, ?_⟩
      · rw [deliver, table_setTable_self hlt, Table.find?_insertNew (hb.find?_eq_none_iff.2 hmem)]
        by_cases hk : k = l.key
        · rw [if_pos hk, hk, hself]
          rfl
        · rw [if_neg hk, hne hk, hb.find?_eq]
      · rw [deliver, table_setTable_self hlt, Table.storedKeys_insertNew, hkeys, if_neg hmem,
          hb.storedKeys_eq]

include hb in
theorem cell_store (hv : h.Valid) (hl : l.key.IsNormal) (v : Value) (c : CellId) :
    (h.store t l v).1.cell c = if ps.aliasOf l.key = some c then v else h.cell c := by
  have hd := hb.destination_eq l.key
  rw [store_eq_deliver hv hl]
  cases hc : ps.aliasOf l.key with
  | some d =>
    rw [hc] at hd
    obtain ⟨u, hu⟩ := hv.sound_of_destination hd
    rw [hd, deliver]
    by_cases he : d = c
    · subst he
      rw [if_pos rfl, cell_setCell_self (Store.lt_fresh_of_get? hu)]
    · rw [if_neg fun h ↦ he (Option.some.inj h), cell_setCell_ne _ (Ne.symm he)]
  | none =>
    rw [hc] at hd
    rw [hd, if_neg (Option.some_ne_none c).symm]
    dsimp only
    split <;> rfl

end BuiltFrom

/-- The values that are given under keys, as they are stored. -/
def given (ls : List (Label × Value)) : Pairs Value := ls.map fun p ↦ (p.1.normalize.key, p.2)

theorem storeAll_concat (h : Heap) (t : TableId) (ls : List (Label × Value)) (p : Label × Value) :
    h.storeAll t (ls ++ [p]) = ((h.storeAll t ls).store t p.1.normalize p.2).1 :=
  List.foldl_concat ..

/-- What values do to a new table and to the cells that are given in turn: the table is built from
them, and a cell has the last value that went through to it. -/
structure BuiltBy (h : Heap) (t : TableId) (ls : List (Label × Value)) (h' : Heap) : Prop where
  builtFrom : h'.BuiltFrom t (given ls)
  cell_eq : ∀ c, h'.cell c = (Pairs.through c [] (given ls)).getLast?.getD (h.cell c)
  sameBeside : h.SameBeside t h'

/-- **Assigning in turn to a new table.** -/
theorem BuiltFrom.storeAll (hb : h.BuiltFrom t []) (hv : h.Valid) (ht : h.Knows t)
    (hls : ∀ p ∈ ls, h.Admits p.2) : h.BuiltBy t ls (h.storeAll t ls) := by
  induction ls using List.reverseRecOn with
  | nil => exact ⟨hb, fun c ↦ rfl, .refl h t⟩
  | append_singleton ls p ih =>
    have hbefore : ∀ q ∈ ls, h.Admits q.2 := fun q hq ↦ hls q (List.mem_append_left _ hq)
    obtain ⟨hbuilt, hcell, hsame⟩ := ih hbefore
    have hq := quietly_storeAll hv ht hbefore
    have hgiven : given (ls ++ [p]) = given ls ++ [(p.1.normalize.key, p.2)] := List.map_append
    rw [storeAll_concat]
    refine ⟨?_, fun c ↦ ?_, ?_⟩
    · rw [hgiven]
      exact hbuilt.store (hq.valid hv) (hq.knows ht) p.1.normalize_isNormal p.2
    · rw [hgiven, Pairs.through_concat, List.nil_append,
        hbuilt.cell_store (hq.valid hv) p.1.normalize_isNormal, hcell]
      split
      · rw [List.getLast?_concat]
        rfl
      · rw [List.append_nil]
    · refine hsame.trans ?_
      rw [store_eq_deliver (hq.valid hv) p.1.normalize_isNormal]
      exact sameBeside_deliver _ _ _ _ _

/-- Values that are given under keys are put into a new table. -/
theorem builtBy_newTable (hv : h.Valid) (hls : ∀ p ∈ ls, h.Admits p.2) :
    h.BuiltBy (h.newTable Table.empty).2 ls
      ((h.newTable Table.empty).1.storeAll (h.newTable Table.empty).2 ls) := by
  have hq := quietly_newTable_empty h
  obtain ⟨hbuilt, hcell, hsame⟩ := h.builtFrom_newTable.storeAll (hq.valid hv)
    (sound_newTable rfl).knows fun p hp ↦ hq.admits (hls p hp)
  exact ⟨hbuilt, hcell, (h.sameBeside_newTable Table.empty).trans hsame⟩

/-- Pairs with their keys as they come out in turn, up to the first that is none. -/
def comeOut (h : Heap) (t : TableId) : List (KeySource × Value) → List (Label × Value)
  | [] => []
  | (k, v) :: rest =>
    match k.label? h defaultReferenceDepth with
    | .error _ => []
    | .ok l => (l, v) :: (h.store t l.normalize v).1.comeOut t rest

theorem admits_of_mem_comeOut {h₀ : Heap} {pairs : List (KeySource × Value)}
    (hadm : ∀ q ∈ pairs, h₀.Admits q.2) {p : Label × Value} (hp : p ∈ h.comeOut t pairs) :
    h₀.Admits p.2 := by
  induction pairs generalizing h with
  | nil => cases hp
  | cons q rest ih =>
    obtain ⟨k, v⟩ := q
    rw [comeOut] at hp
    split at hp
    · cases hp
    · rcases List.mem_cons.1 hp with rfl | hp
      · exact hadm (k, v) List.mem_cons_self
      · exact ih (fun q hq ↦ hadm q (List.mem_cons_of_mem _ hq)) hp

/-- Where all keys of some pairs come out, those of the pairs after them come out of what assigning
these leaves. -/
theorem comeOut_append {before : List (KeySource × Value)}
    (hall : (h.comeOut t before).length = before.length) (rest : List (KeySource × Value)) :
    h.comeOut t (before ++ rest) =
      h.comeOut t before ++ (h.storeAll t (h.comeOut t before)).comeOut t rest := by
  induction before generalizing h with
  | nil => rfl
  | cons q before ih =>
    obtain ⟨k, v⟩ := q
    rw [List.cons_append, comeOut, comeOut]
    cases hk : k.label? h defaultReferenceDepth with
    | error err =>
      rw [comeOut, hk] at hall
      cases hall
    | ok l =>
      rw [comeOut, hk] at hall
      exact congrArg ((l, v) :: ·) (ih (Nat.succ.inj hall))

end Heap

namespace Workspace

variable {w : Workspace} {t : TableId} {name : String} {k : KeySource} {l : Label}
  {err : ValueError} {pairs : List (KeySource × Value)}

/-! ### Keys that fail on the way -/

theorem assignPairs_of_error (hk : k.label? w.heap defaultReferenceDepth = .error err) (v : Value)
    (rest : List (KeySource × Value)) : w.assignPairs t ((k, v) :: rest) = (w, .error err) := by
  rw [assignPairs, hk]

theorem assignPairs_of_ok (hk : k.label? w.heap defaultReferenceDepth = .ok l) (v : Value)
    (rest : List (KeySource × Value)) : w.assignPairs t ((k, v) :: rest) =
      { w with heap := (w.heap.store t l.normalize v).1 }.assignPairs t rest := by
  rw [assignPairs, hk]

/-- Assigning pairs is assigning those whose keys come out. -/
theorem assignPairs_fst (w : Workspace) (t : TableId) (pairs : List (KeySource × Value)) :
    (w.assignPairs t pairs).1 =
      { w with heap := w.heap.storeAll t (w.heap.comeOut t pairs) } := by
  induction pairs generalizing w with
  | nil => rfl
  | cons q rest ih =>
    obtain ⟨k, v⟩ := q
    cases hk : k.label? w.heap defaultReferenceDepth with
    | error err =>
      rw [assignPairs_of_error hk, Heap.comeOut, hk]
      rfl
    | ok l =>
      rw [assignPairs_of_ok hk, Heap.comeOut, hk]
      exact ih _

/-- Either all keys come out, or there is a first one that does not, and what was assigned before
is all that is assigned. -/
theorem assignPairs_cases (w : Workspace) (t : TableId) (pairs : List (KeySource × Value)) :
    ((w.assignPairs t pairs).2 = .ok () ∧ (w.heap.comeOut t pairs).length = pairs.length) ∨
      ∃ before k v rest err, pairs = before ++ (k, v) :: rest ∧
        w.assignPairs t before = ((w.assignPairs t pairs).1, .ok ()) ∧
        k.label? (w.assignPairs t pairs).1.heap defaultReferenceDepth = .error err ∧
        (w.assignPairs t pairs).2 = .error err := by
  induction pairs generalizing w with
  | nil => exact .inl ⟨rfl, rfl⟩
  | cons q rest ih =>
    obtain ⟨k, v⟩ := q
    cases hk : k.label? w.heap defaultReferenceDepth with
    | error err =>
      rw [assignPairs_of_error hk]
      exact .inr ⟨[], k, v, rest, err, rfl, rfl, hk, rfl⟩
    | ok l =>
      rw [assignPairs_of_ok hk, Heap.comeOut, hk]
      rcases ih { w with heap := (w.heap.store t l.normalize v).1 } with
        ⟨hok, hlength⟩ | ⟨before, k', v', rest', err, rfl, hbefore, hk', herr⟩
      · exact .inl ⟨hok, congrArg (· + 1) hlength⟩
      · refine .inr ⟨(k, v) :: before, k', v', rest', err, rfl, ?_, hk', herr⟩
        rw [assignPairs_of_ok hk]
        exact hbefore

theorem newFromPairs_eq (w : Workspace) (pairs : List (KeySource × Value)) :
    w.newFromPairs pairs =
      ((assignPairs { w with heap := (w.heap.newTable Table.empty).1 } w.copyId pairs).1,
        (assignPairs { w with heap := (w.heap.newTable Table.empty).1 } w.copyId pairs).2.map
          fun _ ↦ w.copyId) := by
  rw [newFromPairs]
  dsimp only
  split <;> next heq => rw [show assignPairs _ w.copyId pairs = _ from heq]; rfl

/-- A new array of pairs is one of those whose keys come out. -/
theorem newFromPairs_fst (w : Workspace) (pairs : List (KeySource × Value)) :
    (w.newFromPairs pairs).1 = { w with
      heap := (w.heap.newTable Table.empty).1.storeAll w.copyId
        ((w.heap.newTable Table.empty).1.comeOut w.copyId pairs) } := by
  rw [newFromPairs_eq, assignPairs_fst]

/-- Either all keys come out, or there is a first one that does not. -/
theorem newFromPairs_cases (w : Workspace) (pairs : List (KeySource × Value)) :
    ((w.newFromPairs pairs).2 = .ok w.copyId ∧
        ((w.heap.newTable Table.empty).1.comeOut w.copyId pairs).length = pairs.length) ∨
      ∃ before k v rest err, pairs = before ++ (k, v) :: rest ∧
        w.newFromPairs before = ((w.newFromPairs pairs).1, .ok w.copyId) ∧
        k.label? (w.newFromPairs pairs).1.heap defaultReferenceDepth = .error err ∧
        (w.newFromPairs pairs).2 = .error err := by
  rw [newFromPairs_eq w pairs]
  rcases assignPairs_cases { w with heap := (w.heap.newTable Table.empty).1 } w.copyId pairs with
    ⟨hok, hlength⟩ | ⟨before, k, v, rest, err, he, hbefore, hk, herr⟩
  · exact .inl ⟨by rw [hok]; rfl, hlength⟩
  · refine .inr ⟨before, k, v, rest, err, he, ?_, hk, by rw [herr]; rfl⟩
    rw [newFromPairs_eq, hbefore]
    rfl

/-! ### Inserting into an array -/

/-- Inserts pairs into the array at a place in turn. -/
def insertAll (w : Workspace) (p : Place) :
    List (KeySource × Value) → Workspace × Except ValueError Unit
  | [] => (w, .ok ())
  | (k, v) :: rest =>
    match w.insert p k v with
    | (w, .error e) => (w, .error e)
    | (w, .ok _) => w.insertAll p rest

/-- Registers have no part in assigning pairs. -/
theorem assignPairs_putAt_register (w : Workspace) (t : TableId) (name : String) (u : Value)
    (pairs : List (KeySource × Value)) : (w.putAt (.register name) u).assignPairs t pairs =
      ((w.assignPairs t pairs).1.putAt (.register name) u, (w.assignPairs t pairs).2) := by
  induction pairs generalizing w with
  | nil => rfl
  | cons q rest ih =>
    obtain ⟨k, v⟩ := q
    cases hk : k.label? w.heap defaultReferenceDepth with
    | error err =>
      rw [assignPairs_of_error hk]
      exact assignPairs_of_error (w := w.putAt (.register name) u) hk v rest
    | ok l =>
      rw [assignPairs_of_ok hk, ← ih]
      exact assignPairs_of_ok (w := w.putAt (.register name) u) hk v rest

/-- **Inserting into an array that a register alone holds** writes to its table. -/
theorem insertAll_eq_assignPairs (hv : w.Valid) (ha : w.heap.Acyclic)
    (hnd : (w.registers.map (·.1)).Nodup) (ht : w.heap.Knows t)
    (hval : w.valueAt (.register name) = .array t) (hs : w.Sole t (.register name))
    (hadm : ∀ q ∈ pairs, w.heap.Admits q.2) (hne : ∀ q ∈ pairs, q.2 ≠ .array t) :
    w.insertAll (.register name) pairs = w.assignPairs t pairs := by
  induction pairs generalizing w with
  | nil => rfl
  | cons q rest ih =>
    obtain ⟨k, v⟩ := q
    have hnew : v ≠ .array t := hne (k, v) List.mem_cons_self
    have hadmv : w.heap.Admits v := hadm (k, v) List.mem_cons_self
    have hshared : w.isShared (w.tableAt (.register name)) [v] = false := by
      have hnone : (handlesOf [v]).count (.table t) = 0 :=
        List.count_eq_zero.2 fun hmem ↦ hnew (List.mem_singleton.1 (mem_handlesOf_iff.1 hmem)).symm
      rw [tableAt_of_valueAt hval, isShared, hs.holders_eq_one hv hnd, hnone]
      rfl
    have hsep := separate_of_not_isShared hshared
    rw [tableAt_of_valueAt hval] at hsep
    rw [insertAll, assignPairs, Workspace.insert]
    cases hk : k.label? w.heap defaultReferenceDepth with
    | error err => rfl
    | ok l =>
      have hq : w.heap.Quietly (w.heap.store t l.normalize v).1 :=
        Heap.quietly_store hv.heap ht.writable l.normalize_isNormal hadmv
      have hg : w.heap.Gains t {u | u ≠ .array t} (w.heap.store t l.normalize v).1 :=
        Heap.gains_store t _ (fun he ↦ by cases he) hnew
      have htop : w.heap.Topmost t := by
        rintro y ⟨j, hy⟩
        have hplace : Place.element ⟨y, j⟩ = .register name := hs.eq_of_holds hy
        cases hplace
      dsimp only
      rw [insertKey, storeKey_eq, hsep]
      exact ih ((quietly_heap hq).valid hv) (ha.of_gains_topmost hg htop fun hm ↦ hm rfl) hnd
        (hq.knows ht) hval (hs.writesAt ha (Heap.writesAt_store _ _ v) hg (fun hm ↦ hm rfl)
          fun _ _ he ↦ by cases he)
        (fun q hmem ↦ hq.admits (hadm q (List.mem_cons_of_mem _ hmem)))
        fun q hmem ↦ hne q (List.mem_cons_of_mem _ hmem)

theorem get?_clear_register (w : Workspace) (name : String) :
    (w.clear (.register name)).registers.get? name = some (.array w.copyId) :=
  (w.registers.get?_set _ _ _).trans (if_pos rfl)

theorem valueAt_clear_register (w : Workspace) (name : String) :
    (w.clear (.register name)).valueAt (.register name) = .array w.copyId := by
  rw [valueAt, get?_clear_register]
  rfl

theorem sound_clear_register (w : Workspace) (name : String) :
    (w.clear (.register name)).heap.Sound (.table w.copyId) :=
  Heap.sound_newTable rfl

theorem quietly_clear_register (w : Workspace) (name : String) :
    w.Quietly (w.clear (.register name)) :=
  (quietly_heap (Heap.quietly_newTable_empty w.heap)).trans
    (quietly_setRegister name (Heap.admits_array_iff.2 (w.sound_clear_register name)))

/-- A register that is given a new array is its one holder. -/
theorem sole_clear_register (hv : w.Valid) (name : String) :
    (w.clear (.register name)).Sole w.copyId (.register name) := by
  have hout := not_holds_newTable hv (T := Table.empty) fun _ ↦ Heap.sound_of_mem_empty
  refine ⟨?_, fun {q} hq ↦ ?_, hv.notMem_held_copyId⟩
  · exact Registry.mem_of_get? (w.get?_clear_register name)
  · refine Decidable.byContradiction fun hne ↦ ?_
    exact hout q ((holds_putAt_iff hne).1 hq)

/-- **Inserting pairs into a new empty array** is building an array from them. -/
theorem insertAll_clear (hv : w.Valid) (ha : w.heap.Acyclic) (hnd : (w.registers.map (·.1)).Nodup)
    (hadm : ∀ q ∈ pairs, w.heap.Admits q.2) (name : String) :
    (w.clear (.register name)).insertAll (.register name) pairs =
      ((w.newFromPairs pairs).1.putAt (.register name) (.array w.copyId),
        (w.newFromPairs pairs).2.map fun _ ↦ ()) := by
  have hq := w.quietly_clear_register name
  rw [insertAll_eq_assignPairs (hq.valid hv) (acyclic_clear ha hv _) (hq.registers_nodup hnd)
    (w.sound_clear_register name).knows (w.valueAt_clear_register name)
    (sole_clear_register hv name) (fun q hm ↦ hq.admits (hadm q hm))
    fun q hm ↦ (hadm q hm).ne_fresh]
  refine (assignPairs_putAt_register { w with heap := (w.heap.newTable Table.empty).1 } w.copyId
    name (.array w.copyId) pairs).trans ?_
  rw [newFromPairs_eq]
  generalize assignPairs _ w.copyId pairs = r
  obtain ⟨w', x⟩ := r
  cases x <;> rfl

/-! ### Building in turn -/

/-- The pairs that are given to a new array, their keys as they come out. -/
def givenPairs (w : Workspace) (pairs : List (KeySource × Value)) : Pairs Value :=
  Heap.given ((w.heap.newTable Table.empty).1.comeOut w.copyId pairs)

/-- **Each key is coerced when its turn comes**, in the workspace that the pairs before it lead to.
-/
theorem exists_givenPairs_eq {before rest : List (KeySource × Value)} {v : Value}
    (hok : (w.newFromPairs before).2 = .ok w.copyId)
    (hk : k.label? (w.newFromPairs before).1.heap defaultReferenceDepth = .ok l) :
    ∃ later, w.givenPairs (before ++ (k, v) :: rest) =
      w.givenPairs before ++ (l.key, v) :: later := by
  have hall : ((w.heap.newTable Table.empty).1.comeOut w.copyId before).length = before.length := by
    rcases w.newFromPairs_cases before with ⟨-, hlength⟩ | ⟨_, _, _, _, err, -, -, -, herr⟩
    · exact hlength
    · cases hok.symm.trans herr
  rw [newFromPairs_fst] at hk
  rw [givenPairs, Heap.comeOut_append hall, Heap.comeOut, hk, Heap.given, List.map_append,
    List.map_cons, KeySource.normalize_of_label? hk]
  exact ⟨_, rfl⟩

theorem builtBy_newFromPairs (hv : w.Valid) (hadm : ∀ q ∈ pairs, w.heap.Admits q.2) :
    w.heap.BuiltBy w.copyId ((w.heap.newTable Table.empty).1.comeOut w.copyId pairs)
      (w.newFromPairs pairs).1.heap := by
  rw [newFromPairs_fst]
  exact Heap.builtBy_newTable hv.heap fun p hp ↦ Heap.admits_of_mem_comeOut hadm hp

/-- **No place has the new array**: it is its caller's, or nobody's where a key fails. -/
theorem not_holds_newFromPairs (hv : w.Valid) (hadm : ∀ q ∈ pairs, w.heap.Admits q.2) (p : Place) :
    ¬ (w.newFromPairs pairs).1.Holds w.copyId p := by
  have hg : (w.heap.newTable Table.empty).1.Gains w.copyId {u | u ≠ .array w.copyId}
      (w.newFromPairs pairs).1.heap := by
    rw [newFromPairs_fst]
    exact Heap.gains_storeAll _ (fun he ↦ by cases he) fun q hq ↦
      (Heap.admits_of_mem_comeOut hadm hq).ne_fresh
  have hobjects := (builtBy_newFromPairs hv hadm).sameBeside.objects_eq
  have hnone := hv.not_holds_copyId
  intro hp
  cases p with
  | register name =>
    rw [newFromPairs_fst] at hp
    exact hnone (.register name) hp
  | symbols name =>
    rw [newFromPairs_fst] at hp
    exact hnone (.symbols name) hp
  | element e =>
    exact hv.heap.topmost_newTable_empty.gains hg (fun hm ↦ hm rfl) e.table ⟨e.key, hp⟩
  | content c =>
    rw [holds_content_iff] at hp
    rcases hg.cell c with hsame | hne
    · exact hnone (.content c) (holds_content_iff.2 (hsame.symm.trans hp))
    · exact hne hp
  | properties o =>
    rw [Holds, hobjects] at hp
    exact hnone (.properties o) hp

/-- What building an array from pairs comes to. -/
structure BuildsInTurn (w : Workspace) (pairs : List (KeySource × Value)) : Prop where
  /-- Inserting the pairs into a new empty array gives the same array or the same failure, and
  leaves the same workspace besides. -/
  insertAll_eq : ∀ name, (w.clear (.register name)).insertAll (.register name) pairs =
    ((w.newFromPairs pairs).1.putAt (.register name) (.array w.copyId),
      (w.newFromPairs pairs).2.map fun _ ↦ ())
  /-- Either all keys come out, or the first that does not gives its failure, and what the pairs
  before it have done stays done. -/
  cases : ((w.newFromPairs pairs).2 = .ok w.copyId ∧
      (w.givenPairs pairs).length = pairs.length) ∨
    ∃ before k v rest err, pairs = before ++ (k, v) :: rest ∧
      w.newFromPairs before = ((w.newFromPairs pairs).1, .ok w.copyId) ∧
      k.label? (w.newFromPairs pairs).1.heap defaultReferenceDepth = .error err ∧
      (w.newFromPairs pairs).2 = .error err
  /-- A key is coerced in the workspace that the pairs before it lead to. -/
  givenPairs_eq : ∀ {before k v rest l}, pairs = before ++ (k, v) :: rest →
    (w.newFromPairs before).2 = .ok w.copyId →
    k.label? (w.newFromPairs before).1.heap defaultReferenceDepth = .ok l →
      ∃ later, w.givenPairs pairs = w.givenPairs before ++ (l.key, v) :: later
  /-- The array has under each key the first reference that was given there, or else the last
  value, and its keys are in the order in which they came first. -/
  builtFrom : (w.newFromPairs pairs).1.heap.BuiltFrom w.copyId (w.givenPairs pairs)
  /-- No place has the array, so that it is gone where a key fails. -/
  not_holds : ∀ p, ¬ (w.newFromPairs pairs).1.Holds w.copyId p
  /-- A cell has the last value that went through a reference to it. -/
  cell_eq : ∀ c, (w.newFromPairs pairs).1.heap.cell c =
    (Pairs.through c [] (w.givenPairs pairs)).getLast?.getD (w.heap.cell c)
  /-- So it is as it was unless a value is given under a key where a reference to it was given
  first. -/
  cell_eq_self : ∀ c, (∀ before p rest, w.givenPairs pairs = before ++ p :: rest →
    Pairs.aliasOf before p.1 ≠ some c) → (w.newFromPairs pairs).1.heap.cell c = w.heap.cell c
  /-- The other arrays, the objects and the resources are as they were. -/
  sameBeside : w.heap.SameBeside w.copyId (w.newFromPairs pairs).1.heap
  /-- So is all that is outside the heap. -/
  outside : (w.newFromPairs pairs).1 = { w with heap := (w.newFromPairs pairs).1.heap }

/-- **An array is built from pairs in turn.** It is the array that inserting the pairs gives. If a
key fails there is none, and no array, object or resource that was there has changed; but what the
pairs before have put into cells stays there, through references that were given under keys which
came again. -/
theorem Reachable.buildsInTurn (hw : w.Reachable) (hadm : ∀ q ∈ pairs, w.heap.Admits q.2) :
    w.BuildsInTurn pairs := by
  have hv := hw.valid
  have hbuilt := builtBy_newFromPairs hv hadm
  exact
    { insertAll_eq := insertAll_clear hv hw.acyclic hw.registers_nodup hadm
      cases := by
        rw [givenPairs, Heap.given, List.length_map]
        exact w.newFromPairs_cases pairs
      givenPairs_eq := fun he hok hk ↦ he ▸ exists_givenPairs_eq hok hk
      builtFrom := hbuilt.builtFrom
      not_holds := not_holds_newFromPairs hv hadm
      cell_eq := hbuilt.cell_eq
      cell_eq_self := fun c h ↦ by
        rw [hbuilt.cell_eq, Pairs.through_eq_nil h]
        rfl
      sameBeside := hbuilt.sameBeside
      outside := by rw [newFromPairs_fst] }

/-- A reference, a value under the same key, and a pair whose key is none. -/
def failingPairs : List (KeySource × Value) :=
  [(.label (Label.int 0), .reference ⟨0⟩), (.label (Label.int 0), .int 5),
    (.value (.array ⟨0⟩), .int 7)]

theorem admits_failingPairs {q : KeySource × Value} (hq : q ∈ failingPairs) :
    preparingEnd.heap.Admits q.2 := by
  simp only [failingPairs, List.mem_cons, List.not_mem_nil, or_false] at hq
  rcases hq with rfl | rfl | rfl
  · exact Heap.admits_reference_iff.2 ⟨.int 1, rfl⟩
  · exact Heap.admits_of_handle?_eq_none rfl
  · exact Heap.admits_of_handle?_eq_none rfl

/-- The second pair goes through the reference of the first, and the third fails. -/
theorem Reachable.buildsInTurn_preparingEnd :
    preparingEnd.Reachable ∧
      (preparingEnd.newFromPairs failingPairs).2 = .error (.illegalKey .array) ∧
      (preparingEnd.newFromPairs failingPairs).1.heap.cell ⟨0⟩ = .int 5 ∧
      (preparingEnd.newFromPairs failingPairs).1.heap.table ⟨0⟩ = preparingEnd.heap.table ⟨0⟩ := by
  have hbuilds := reachable_preparingEnd.buildsInTurn fun _ ↦ admits_failingPairs
  refine ⟨reachable_preparingEnd, rfl, ?_, hbuilds.sameBeside.table_eq (by decide)⟩
  exact hbuilds.cell_eq ⟨0⟩

/-- Building is not all or nothing: a cell can have changed although a key has failed. -/
theorem not_newFromPairs_all_or_nothing :
    ¬ ∀ (w : Workspace) (pairs : List (KeySource × Value)) (err : ValueError), w.Reachable →
      (∀ q ∈ pairs, w.heap.Admits q.2) → (w.newFromPairs pairs).2 = .error err →
        ∀ c, (w.newFromPairs pairs).1.heap.cell c = w.heap.cell c := by
  intro h
  have hcell := h preparingEnd failingPairs _ reachable_preparingEnd (fun _ ↦ admits_failingPairs)
    rfl ⟨0⟩
  have hcell : Value.int 5 = .int 1 := hcell
  cases hcell

end Workspace

end SharedValue
