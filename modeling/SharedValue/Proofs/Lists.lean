import SharedValue.Proofs.Appending
import SharedValue.Proofs.Building
import SharedValue.Proofs.Decoding
import SharedValue.Proofs.Readings

/-!
# Lists

An array is a list when it shows `0`, `1`, `2`, ... in this order, and there is one such row of keys
for each length (`isList_iff_eq_firstKeys`). An array can be built from values at once, or by
appending them to a new array one after the other; both give the values under the same keys
(`Heap.ListOf`). So an array is a list exactly if building it anew from the values that it shows
gives the keys that it shows (`Reachable.list_iff_rebuilt`), whatever entries it has that show
nothing.
-/

namespace SharedValue

variable {keys : List Key} {vs : List Value}

/-! ### The keys of lists -/

/-- The keys of a list with a given number of values. -/
def firstKeys (n : Nat) : List Key := (List.range n).map fun i ↦ .int (.ofNat i)

theorem length_firstKeys (n : Nat) : (firstKeys n).length = n := by
  rw [firstKeys, List.length_map, List.length_range]

/-- The keys of a list are numbered from zero. -/
theorem getElem_firstKeys {n i : Nat} (hi : i < (firstKeys n).length) :
    (firstKeys n)[i] = .int (.ofNat i) := by
  simp only [firstKeys, List.getElem_map, List.getElem_range]

theorem firstKeys_succ (n : Nat) : firstKeys (n + 1) = firstKeys n ++ [.int (.ofNat n)] := by
  rw [firstKeys, List.range_succ, List.map_append]
  rfl

/-- The key at any position of a list is the number of the position. -/
theorem IsList.exists_int (h : IsList keys) {i : Nat} {k : Key} (hk : keys[i]? = some k) :
    ∃ n : Int64, k = .int n ∧ n.toInt = i := by
  have hint := h i k hk
  cases k with
  | text b => cases hint
  | int n => exact ⟨n, rfl, Option.some.inj hint⟩

/-- There are no more keys in a list than integers that are not negative. -/
theorem IsList.length_le (h : IsList keys) : keys.length ≤ 2 ^ 63 := by
  refine Nat.le_of_not_lt fun hlt ↦ ?_
  obtain ⟨n, -, hn⟩ := h.exists_int (List.getElem?_eq_getElem hlt)
  have hbound := n.toInt_lt
  omega

/-- **The keys of a list are told by their number.** -/
theorem isList_iff_eq_firstKeys :
    IsList keys ↔ keys.length ≤ 2 ^ 63 ∧ keys = firstKeys keys.length := by
  constructor
  · refine fun h ↦ ⟨h.length_le, List.ext_getElem (length_firstKeys _).symm fun i hi hi' ↦ ?_⟩
    obtain ⟨n, hk, hn⟩ := h.exists_int (List.getElem?_eq_getElem hi)
    have hto : (Int64.ofNat i).toInt = i :=
      Int64.toInt_ofNat_of_lt (Nat.lt_of_lt_of_le hi h.length_le)
    rw [hk, getElem_firstKeys, Int64.toInt_inj.1 (hn.trans hto.symm)]
  · rintro ⟨hlen, heq⟩ i k hk
    obtain ⟨hi, rfl⟩ := List.getElem?_eq_some_iff.1 hk
    have hkey : keys[i] = .int (.ofNat i) :=
      (List.getElem_of_eq heq hi).trans (getElem_firstKeys _)
    rw [hkey, Key.int?, Option.map_some, Int64.toInt_ofNat_of_lt (Nat.lt_of_lt_of_le hi hlen)]

/-- The first integers are the keys of a list. -/
theorem isList_firstKeys {n : Nat} (hn : n ≤ 2 ^ 63) : IsList (firstKeys n) := by
  rw [isList_iff_eq_firstKeys, length_firstKeys]
  exact ⟨hn, rfl⟩

/-- The next key of a list is its length, as long as this is a key. -/
theorem IsList.nextKey_eq (h : IsList keys) :
    nextKey keys = if keys.length < 2 ^ 63 then some (.ofNat keys.length) else none := by
  obtain ⟨hlen, heq⟩ := isList_iff_eq_firstKeys.1 h
  split
  next hlt =>
    have hnext : IsList (keys ++ .int (.ofNat keys.length) :: []) := by
      rw [heq, length_firstKeys, ← firstKeys_succ]
      exact isList_firstKeys hlt
    obtain ⟨n, hn, hkey⟩ := nextKey_of_isList hnext
    rw [hkey, Key.int.inj hn]
  next hlt =>
    -- the largest integer is the last of the keys
    have hmax : Key.int Int64.maxValue ∈ keys := by
      rw [heq]
      refine List.mem_map.2 ⟨2 ^ 63 - 1, List.mem_range.2 (by omega), ?_⟩
      rfl
    exact (isNextFree_nextKey keys).unique hmax

/-! ### The entries of lists -/

/-- Values that are appended are numbered from the end on. -/
theorem numbered_eq_zipIdx {m : Nat} (hm : m + vs.length ≤ 2 ^ 63) : numbered m vs =
    (vs.zipIdx m).map fun p ↦ (.int (.ofNat p.2), .value p.1) := by
  induction vs generalizing m with
  | nil => rfl
  | cons v rest ih =>
    rw [List.length_cons] at hm
    have hle : (m : Int) ≤ Int64.maxValue.toInt := by
      rw [Int64.toInt_maxValue]
      omega
    have hrest := ih (m := m + 1) (by omega)
    rw [Int.natCast_add] at hrest
    rw [numbered, if_pos hle, List.zipIdx_cons, List.map_cons]
    exact congrArg _ hrest

/-- **Appending to nothing gives what building at once gives**, as long as there is room. -/
theorem numbered_zero (hlen : vs.length ≤ 2 ^ 63) : numbered 0 vs = (Table.ofList vs).slots := by
  have heq := numbered_eq_zipIdx (m := 0) (by rwa [Nat.zero_add])
  rw [Table.slots_ofList]
  exact heq

/-- There is room for as many values as there are integers that are not negative. -/
theorem numbered_take (vs : List Value) : numbered 0 (vs.take (2 ^ 63)) = numbered 0 vs := by
  have hsplit := numbered_append (m := 0) (by decide) (vs.take (2 ^ 63)) (vs.drop (2 ^ 63))
  rw [List.take_append_drop, List.length_take, Int64.toInt_maxValue] at hsplit
  rw [hsplit, List.self_eq_append_right]
  by_cases hlen : vs.length ≤ 2 ^ 63
  · rw [List.drop_eq_nil_of_le hlen, numbered]
  · refine numbered_of_lt ?_ _
    rw [Int64.toInt_maxValue]
    omega

/-- A list has as many keys as values, from zero on. -/
theorem keys_slots_ofList (vs : List Value) :
    (Table.ofList vs).slots.keys = firstKeys vs.length := by
  rw [Table.slots_ofList, Pairs.keys, List.map_map, firstKeys, List.range_eq_range',
    ← List.zipIdx_map_snd, List.map_map]
  rfl

namespace Heap

variable {h : Heap} {t : TableId}

/-! ### Arrays of values -/

/-- Whether an array is the list of given values. -/
structure ListOf (h : Heap) (t : TableId) (vs : List Value) : Prop where
  pairs_eq : h.pairs t = vs.zipIdx.map fun p ↦ (.int (.ofNat p.2), p.1.shown)
  isList_eq : h.isList t = true
  nextIndex_eq : h.nextIndex t = if vs.length < 2 ^ 63 then some (.ofNat vs.length) else none

/-- So has an array that was built as one. -/
theorem ListOf.keys_eq (hl : h.ListOf t vs) : (h.pairs t).map (·.1) = firstKeys vs.length := by
  rw [hl.pairs_eq, List.map_map, firstKeys, List.range_eq_range', ← List.zipIdx_map_snd,
    List.map_map]
  rfl

/-- What the slots of a list come to. -/
theorem Valid.listOf (hv : h.Valid) (hlen : vs.length ≤ 2 ^ 63)
    (hs : (h.table t).slots = (Table.ofList vs).slots) : h.ListOf t vs := by
  have hwf := hv.table_wellFormed t
  have hb : (h.table t).bindings = 0 :=
    (hwf.same_ofList hs).bindings_eq.trans (bindings_ofList vs)
  have hstored : (h.table t).storedKeys = firstKeys vs.length := by
    rw [(h.table t).matches_slots.keys_eq, hs, keys_slots_ofList]
  refine ⟨?_, ?_, ?_⟩
  · rw [pairs, Table.pairs_eq_slots, hs, Table.slots_ofList, List.filterMap_map,
      ← List.filterMap_eq_map]
    rfl
  · rw [isList_iff, keys_pairs, hwf.keys_eq hb, hstored]
    exact isList_firstKeys hlen
  · rw [nextIndex, hwf.nextFree_eq_nextKey, hstored, (isList_firstKeys hlen).nextKey_eq,
      length_firstKeys]

/-- Without bindings the next key of a list is its length, as long as this is a key. -/
theorem Valid.nextIndex_eq_len (hv : h.Valid) (hb : (h.table t).bindings = 0)
    (hl : h.isList t = true) :
    h.nextIndex t = if h.len t < 2 ^ 63 then some (.ofNat (h.len t)) else none := by
  have hwf := hv.table_wellFormed t
  have hkeys := isList_iff.1 hl
  have hlen : h.len t = ((h.pairs t).map (·.1)).length := by rw [hv.len_eq, List.length_map]
  rw [nextIndex, hwf.nextFree_eq_nextKey, ← hwf.keys_eq hb h.cell, ← keys_pairs, hkeys.nextKey_eq,
    hlen]

/-- **An array that is a list has the keys of the list of its values.** -/
theorem keys_eq_of_isList {h' : Heap} {t' : TableId} (hl : h.isList t = true)
    (hl' : h'.ListOf t' (h.values t)) : (h'.pairs t').map (·.1) = (h.pairs t).map (·.1) := by
  rw [hl'.keys_eq, length_values]
  exact (isList_iff_eq_firstKeys.1 (isList_iff.1 hl)).2.symm

end Heap

namespace Workspace

variable {w : Workspace} {t : TableId}

/-! ### Building lists -/

/-- Gives a register a new array that values are appended to in turn. -/
def listInTurn (w : Workspace) (name : String) (vs : List Value) : Workspace :=
  ((w.clear (.register name)).pushAll (.register name) [] vs).1

/-- The table of that array. -/
def listedTable (w : Workspace) (name : String) (vs : List Value) : TableId :=
  (w.listInTurn name vs).tableAt (.register name)

/-- An array that was cleared can be appended to. -/
theorem appendable_clear (hv : w.Valid) (name : String) :
    (w.clear (.register name)).Appendable (.register name) where
  valid := (w.quietly_clear_register name).valid hv
  valueAt_eq := by rw [tableAt_of_valueAt (w.valueAt_clear_register name), valueAt_clear_register]
  knows := by
    rw [tableAt_of_valueAt (w.valueAt_clear_register name)]
    exact (w.sound_clear_register name).knows
  apart := fun _ he ↦ nomatch he

/-- It has no entries. -/
theorem slotsAt_clear (w : Workspace) (name : String) :
    (w.clear (.register name)).slotsAt (.register name) = [] := by
  rw [slotsAt, tableAt_of_valueAt (w.valueAt_clear_register name)]
  exact congrArg Table.slots (w.heap.table_newTable _ _ |>.trans (if_pos rfl))

/-- **Appending values in turn to a new array** gives the list of those that find room. -/
theorem listOf_listInTurn (hv : w.Valid) (hvs : ∀ v ∈ vs, w.heap.Admits v) (name : String) :
    (w.listInTurn name vs).heap.ListOf (w.listedTable name vs) (vs.take (2 ^ 63)) := by
  have hq := w.quietly_clear_register name
  obtain ⟨hg, -⟩ := (appendable_clear hv name).pushAll Heap.admits_of_mem_nil
    fun v hm ↦ hq.admits (hvs v hm)
  have hslots := hg.slots_eq
  rw [slotsAt_clear, List.nil_append] at hslots
  have hlen : (vs.take (2 ^ 63)).length ≤ 2 ^ 63 := List.length_take_le _ _
  refine hg.appendable.valid.heap.listOf hlen (hslots.trans ?_)
  rw [← numbered_zero hlen, numbered_take]
  rfl

/-- **Building an array from values at once** gives the list of them. -/
theorem listOf_newList (hv : w.Valid) (hvs : ∀ v ∈ vs, w.heap.Admits v)
    (hlen : vs.length ≤ 2 ^ 63) : (w.heap.newList vs).1.ListOf (w.heap.newList vs).2 vs := by
  refine ((Heap.quietly_newList hlen hvs).valid hv.heap).listOf hlen ?_
  exact congrArg Table.slots ((w.heap.table_newTable _ _).trans (if_pos rfl))

/-- What makes an array a list, and what building lists comes to. -/
structure ListsRebuilt (w : Workspace) (t : TableId) (name : String) : Prop where
  /-- No host has room for more values than there are keys for. -/
  newList : w.heap.isList t = true ↔ (w.heap.values t).length ≤ 2 ^ 63 ∧
    ((w.heap.newList (w.heap.values t)).1.pairs (w.heap.newList (w.heap.values t)).2).map (·.1) =
      (w.heap.pairs t).map (·.1)
  listInTurn : w.heap.isList t = true ↔
    ((w.listInTurn name (w.heap.values t)).heap.pairs
      (w.listedTable name (w.heap.values t))).map (·.1) = (w.heap.pairs t).map (·.1)
  /-- Both ways to build a list give the same. -/
  agree : ∀ {vs}, (∀ v ∈ vs, w.heap.Admits v) → vs.length ≤ 2 ^ 63 →
    (w.heap.newList vs).1.ListOf (w.heap.newList vs).2 vs ∧
      (w.listInTurn name vs).heap.ListOf (w.listedTable name vs) vs
  /-- The next key of a list without bindings is its length. -/
  nextIndex_eq : (w.heap.table t).bindings = 0 → w.heap.isList t = true →
    w.heap.nextIndex t =
      if w.heap.len t < 2 ^ 63 then some (.ofNat (w.heap.len t)) else none

/-- **Lists are what building from values gives.** In every workspace that a program leads to, an
array is a list exactly if an array that is built from the values that it shows has the keys that it
shows, be it built at once or by appending one value after the other. Both give the same array for
the same values, and the next key of a list without bindings is its length. -/
theorem Reachable.lists_rebuilt (hw : w.Reachable) (t : TableId) (name : String) :
    w.ListsRebuilt t name := by
  have hv := hw.valid
  have hadm : ∀ v ∈ w.heap.values t, w.heap.Admits v := fun _ ↦ hv.heap.admits_of_mem_values
  have hroom : w.heap.isList t = true → (w.heap.values t).length ≤ 2 ^ 63 := fun hl ↦
    (Heap.length_values _ t).symm ▸ (Heap.isList_iff.1 hl).length_le
  have hturn : ∀ {vs}, (∀ v ∈ vs, w.heap.Admits v) → vs.length ≤ 2 ^ 63 →
      (w.listInTurn name vs).heap.ListOf (w.listedTable name vs) vs := fun hvs hlen ↦ by
    have hlist := listOf_listInTurn hv hvs name
    rwa [List.take_of_length_le hlen] at hlist
  refine ⟨⟨fun hl ↦ ⟨hroom hl, ?_⟩, ?_⟩, ⟨fun hl ↦ ?_, fun hkeys ↦ ?_⟩, fun hvs hlen ↦
    ⟨listOf_newList hv hvs hlen, hturn hvs hlen⟩, hv.heap.nextIndex_eq_len⟩
  · exact Heap.keys_eq_of_isList hl (listOf_newList hv hadm (hroom hl))
  · rintro ⟨hlen, hkeys⟩
    have hlist := Heap.isList_iff.1 (listOf_newList hv hadm hlen).isList_eq
    exact Heap.isList_iff.2 (hkeys ▸ hlist)
  · exact Heap.keys_eq_of_isList hl (hturn hadm (hroom hl))
  · have hlist := Heap.isList_iff.1 (listOf_listInTurn hv hadm name).isList_eq
    exact Heap.isList_iff.2 (hkeys ▸ hlist)

/-- A program that declares a name between two variables, one of them without a value. -/
def skippingProgram : List Statement :=
  [⟨.symbols "s" (.create {}), none⟩,
    ⟨.array (.constant (.int 7)), some "x"⟩,
    ⟨.symbols "s" (.set (.key (.int 0)) "x"), none⟩,
    ⟨.symbols "s" (.declare (.key (.int 5))), some "c"⟩,
    ⟨.symbols "s" (.set (.key (.int 1)) "u"), none⟩]

/-- Where that program ends. -/
def skippingEnd : Workspace := ((empty.run skippingProgram).map (·.1)).getD empty

theorem reachable_skippingEnd : skippingEnd.Reachable := ⟨skippingProgram, _, rfl⟩

/-- The entry between the two shows nothing, and the two are a list. -/
theorem Reachable.lists_rebuilt_skippingEnd :
    skippingEnd.Reachable ∧ (skippingEnd.heap.table ⟨0⟩).storedKeys = [.int 0, .int 5, .int 1] ∧
      skippingEnd.heap.isList ⟨0⟩ = true ∧
      (skippingEnd.listInTurn "a" [.int 7, .null]).heap.nextIndex
        (skippingEnd.listedTable "a" [.int 7, .null]) = some 2 := by
  have hrebuilt := reachable_skippingEnd.lists_rebuilt ⟨0⟩ "a"
  have hadm : ∀ v ∈ [Value.int 7, .null], skippingEnd.heap.Admits v := by
    intro v hv
    simp only [List.mem_cons, List.not_mem_nil, or_false] at hv
    rcases hv with rfl | rfl <;> exact Heap.admits_of_handle?_eq_none rfl
  refine ⟨reachable_skippingEnd, rfl, hrebuilt.newList.2 ⟨by decide, rfl⟩, ?_⟩
  exact (hrebuilt.agree hadm (by decide)).2.nextIndex_eq

end Workspace

end SharedValue
