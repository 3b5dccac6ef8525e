import SharedValue.Proofs.Assigning
import SharedValue.Proofs.Failures

/-!
# Appending in turn

Appending puts a value under the integer that comes after those that are stored, at the end, and it
puts it there as it is: the new slot holds null at that moment, so there is no reference that the
value would go through. One append (`Workspace.Appended`) moves the end by one, which leaves room
for the next until the integers are used up. From then on appending fails and does nothing.

`Workspace.pushAll` appends values in turn, and holds those that are still to come meanwhile, so an
array that is among them is copied before it is written to. What the run comes to is told by the end
of the array at its start alone (`Reachable.appended_in_turn`).
-/

namespace SharedValue

/-! ### The end of the keys -/

/-- No key is larger than the largest integer. -/
theorem largestKey_le (keys : List Key) : largestKey keys ≤ Int64.maxValue.toInt := by
  by_cases hne : largestKey keys = -1
  · rw [hne]
    decide
  · obtain ⟨n, -, he⟩ := exists_mem_of_largestKey_ne hne
    exact he ▸ le_maxValue n

/-- The integer after the largest one among keys, zero if there is none that is not negative. -/
def endOf (keys : List Key) : Int := largestKey keys + 1

theorem endOf_nonneg (keys : List Key) : 0 ≤ endOf keys := by
  have := neg_one_le_largestKey keys
  rw [endOf]
  omega

/-- As long as the end is an integer, it is the next key. -/
theorem nextKey_of_le {keys : List Key} (hle : endOf keys ≤ Int64.maxValue.toInt) :
    nextKey keys = some (.ofInt (endOf keys)) := by
  rw [endOf] at hle ⊢
  rw [nextKey, if_neg (by omega)]

/-- After that there is none. -/
theorem nextKey_of_lt {keys : List Key} (hlt : Int64.maxValue.toInt < endOf keys) :
    nextKey keys = none := by
  have := largestKey_le keys
  rw [endOf] at hlt
  rw [nextKey, if_pos (by omega)]

theorem toInt_ofInt_endOf {keys : List Key} (hle : endOf keys ≤ Int64.maxValue.toInt) :
    (Int64.ofInt (endOf keys)).toInt = endOf keys := by
  have hpos := endOf_nonneg keys
  rw [Int64.toInt_maxValue] at hle
  exact Int64.toInt_ofInt_of_le (by omega) (by omega)

/-- A key at the end moves the end by one. -/
theorem endOf_concat {keys : List Key} (hle : endOf keys ≤ Int64.maxValue.toInt) :
    endOf (keys ++ [.int (.ofInt (endOf keys))]) = endOf keys + 1 := by
  rw [endOf, largestKey_concat, toInt_ofInt_endOf hle]
  exact congrArg (· + 1) (Int.max_eq_right (by rw [endOf]; omega))

/-- The entries that values come to when they are appended to an array with a given end, as far as
there is room. -/
def numbered (m : Int) : List Value → Pairs Slot
  | [] => []
  | v :: rest =>
    if m ≤ Int64.maxValue.toInt then (.int (.ofInt m), .value v) :: numbered (m + 1) rest else []

/-- What appending values in turn gives, for an array with a given end. -/
def indices (m : Int) : List Value → List (Except ValueError Int64)
  | [] => []
  | _ :: rest =>
    (if m ≤ Int64.maxValue.toInt then .ok (.ofInt m) else .error .slotOccupied) ::
      indices (m + 1) rest

/-- From there on nothing is appended. -/
theorem numbered_of_lt {m : Int} (hlt : Int64.maxValue.toInt < m) (vs : List Value) :
    numbered m vs = [] := by
  cases vs with
  | nil => rfl
  | cons v rest => exact if_neg (Int.not_le.2 hlt)

/-- Values that are appended after others go on where these end. -/
theorem numbered_append {m : Int} (hm : m ≤ Int64.maxValue.toInt + 1) (vs vs' : List Value) :
    numbered m (vs ++ vs') =
      numbered m vs ++ numbered (min (m + vs.length) (Int64.maxValue.toInt + 1)) vs' := by
  induction vs generalizing m with
  | nil =>
    rw [List.length_nil, Int.natCast_zero, Int.add_zero, Int.min_eq_left hm]
    rfl
  | cons v rest ih =>
    rw [List.cons_append, numbered, numbered, List.length_cons]
    by_cases hle : m ≤ Int64.maxValue.toInt
    · rw [if_pos hle, if_pos hle, ih (by omega), List.cons_append]
      push_cast
      rw [Int.add_assoc, Int.add_comm 1]
    · rw [if_neg hle, if_neg hle, numbered_of_lt (by omega)]
      rfl

/-- Past the end of the integers the end makes no difference. -/
theorem indices_of_lt {m m' : Int} (hlt : Int64.maxValue.toInt < m)
    (hlt' : Int64.maxValue.toInt < m') (vs : List Value) : indices m vs = indices m' vs := by
  induction vs generalizing m m' with
  | nil => rfl
  | cons v rest ih =>
    rw [indices, indices, if_neg (Int.not_le.2 hlt), if_neg (Int.not_le.2 hlt')]
    exact congrArg _ (ih (by omega) (by omega))

namespace Workspace

variable {w w' : Workspace} {p : Place} {operands : List Value} {t x : TableId} {T : Table}
  {v : Value} {vs others : List Value} {n : Int64}

/-! ### Where values can be appended -/

/-- Whether a place has an array to append to: one that is there, and that is not the table that the
place itself is in. -/
structure Appendable (w : Workspace) (p : Place) : Prop where
  valid : w.Valid
  valueAt_eq : w.valueAt p = .array (w.tableAt p)
  knows : w.heap.Knows (w.tableAt p)
  apart : ∀ e, p = .element e → e.table ≠ w.tableAt p

/-- Every array that a program can write to can be appended to. -/
theorem Reachable.appendable (hw : w.Reachable) (hval : w.valueAt p = .array t)
    (ht : w.heap.Knows t) : w.Appendable p := by
  have htable := tableAt_of_valueAt hval
  refine ⟨hw.valid, hval.trans (congrArg _ htable.symm), htable ▸ ht, ?_⟩
  rintro e rfl
  rw [htable]
  exact table_ne_of_valueAt_element hw.valid hw.acyclic hval

theorem valueAt_withHeld (w : Workspace) (vs : List Value) (p : Place) :
    valueAt { w with held := vs } p = w.valueAt p := by
  cases p <;> rfl

/-- What is held makes no difference to the entries. -/
theorem slotsAt_withHeld (w : Workspace) (vs : List Value) (p : Place) :
    slotsAt { w with held := vs } p = w.slotsAt p := by
  cases p <;> rfl

/-- Values may be held meanwhile, and let go. -/
theorem Appendable.withHeld (ha : w.Appendable p) (hvs : ∀ v ∈ vs, w.heap.Admits v) :
    Appendable { w with held := vs } p := by
  have htable : tableAt { w with held := vs } p = w.tableAt p := by
    rw [tableAt, valueAt_withHeld, tableAt]
  exact
    { valid := { ha.valid with admits_held := fun hv ↦ hvs _ hv }
      valueAt_eq := by rw [valueAt_withHeld, htable, ha.valueAt_eq]
      knows := htable ▸ ha.knows
      apart := htable ▸ ha.apart }

/-- Another content of a table leaves an array in place that is not an element of it. -/
theorem valueAt_setTable (hp : ∀ e, p = .element e → e.table ≠ x) :
    valueAt { w with heap := w.heap.setTable x T } p = w.valueAt p := by
  cases p with
  | element e =>
    show (w.heap.setTable x T).read e = w.heap.read e
    rw [Heap.read, Heap.read, Heap.slot?, Heap.slot?, Heap.table_setTable_ne _ (hp e rfl)]
    rfl
  | properties o =>
    show Value.array ((w.heap.setTable x T).properties o) = .array (w.heap.properties o)
    rw [Heap.properties, Heap.properties, Heap.setTable, Store.fresh_set]
  | _ => rfl

/-- A separation gives the place a table that the place is not in either. -/
theorem Appendable.apart_separate (ha : w.Appendable p) (operands : List Value) :
    ∀ e, p = .element e → e.table ≠ (w.separate p operands).2 := by
  rintro e rfl
  cases hs : w.isShared (w.tableAt (.element e)) operands with
  | false =>
    rw [separate_of_not_isShared hs]
    exact ha.apart e rfl
  | true =>
    rw [separate_of_isShared hs]
    exact ne_copyId_of_knows (knows_of_valueAt_element ha.valueAt_eq)

/-- A separation makes no difference to what the slots of the array show. -/
theorem pairs_cell_separate (hv : w.Valid) (hops : ∀ v ∈ operands, w.heap.Admits v) :
    (w.heap.table (w.tableAt p)).pairs (w.separate p operands).1.heap.cell =
      w.heap.pairs (w.tableAt p) := by
  cases hs : w.isShared (w.tableAt p) operands with
  | false =>
    rw [separate_of_not_isShared hs]
    rfl
  | true =>
    have hb := (hv.sound_of_isShared hops hs).bindings_eq_zero
    exact (hv.heap.table_wellFormed _).pairs_congr hb _ _

/-! ### One append -/

/-- What appending a value to the array at a place comes to: one entry at the end, and nothing
else. -/
structure Appended (w : Workspace) (p : Place) (n : Int64) (v : Value) (w' : Workspace) : Prop where
  /-- The key was not stored. -/
  absent : w.slotAt p (.int n) = none
  /-- The array is where it was. -/
  valueAt_eq : w'.valueAt p = .array (w'.tableAt p)
  slots_eq : w'.slotsAt p = (w.slotsAt p).add (.int n) (.value v)
  pairs_eq : w'.heap.pairs (w'.tableAt p) = w.heap.pairs (w.tableAt p) ++ [(.int n, v.shown)]
  rest : w.ChangesOnly p (w'.tableAt p) ∅ w'

/-- **An append adds one entry under the next key**, and there can be another one. -/
theorem Appendable.push_of_nextKey (ha : w.Appendable p) (hadm : w.heap.Admits v)
    (hn : nextKey (w.slotsAt p).keys = some n) :
    (w.push p v).2 = .ok n ∧ w.Appended p n v (w.push p v).1 ∧ (w.push p v).1.Appendable p := by
  have hv := ha.valid
  have hops := hadm.of_mem_singleton
  have hapart := ha.apart_separate [v]
  have hq := quietly_push hv p hadm
  have hknows := knows_separate hv hops ha.knows
  rw [slotsAt_keys] at hn
  have hpush := push_eq_ok hv ha.valueAt_eq hknows (table_separate hv p hops) hn
  have hval : (w.push p v).1.valueAt p = .array (w.separate p [v]).2 := by
    rw [hpush, ← valueAt_separate hv hops ha.valueAt_eq]
    exact valueAt_setTable hapart
  have hplace := tableAt_of_valueAt hval
  have htable : (w.push p v).1.heap.table (w.separate p [v]).2 =
      (w.heap.table (w.tableAt p)).insertNew (Label.int n) (.value v) := by
    rw [hpush]
    exact Heap.table_setTable_self (Store.lt_fresh_of_get? hknows.get?) _
  have hcell : (w.push p v).1.heap.cell = (w.separate p [v]).1.heap.cell := by rw [hpush]; rfl
  refine ⟨by rw [hpush], ⟨?_, hplace.symm ▸ hval, ?_, ?_, ?_⟩, hq.valid hv, hplace.symm ▸ hval, ?_,
    hplace.symm ▸ hapart⟩
  · exact Table.find?_eq_none_iff_notMem.2 (notMem_of_nextKey hn)
  · rw [slotsAt, hplace, htable, Table.slots_insertNew, slotsAt]
    rfl
  · rw [Heap.pairs, hplace, htable, Table.pairs_insertNew, hcell, pairs_cell_separate hv hops]
    rfl
  · -- a new entry goes to no cell
    have hnone : {c | Destination.last = .cell c} = (∅ : Set CellId) :=
      Set.eq_empty_iff_forall_notMem.2 fun c hc ↦ by cases hc
    rw [hplace, hpush, ← hnone, ← table_separate hv p hops]
    exact (changesOnly_separate hv hops).deliver (Label.int n) v .last
  · rw [hplace, hpush]
    exact Heap.knows_setTable hknows hknows

/-- **Once there is no room, appending fails and does nothing.** -/
theorem Appendable.push_of_lt (ha : w.Appendable p)
    (hlt : Int64.maxValue.toInt < endOf (w.slotsAt p).keys) (v : Value) :
    w.push p v = (w, .error .slotOccupied) :=
  push_eq_error ha.valid ha.valueAt_eq (slotsAt_keys w p ▸ nextKey_of_lt hlt) v

/-- Appending without a next key fails and changes nothing. -/
theorem Appendable.append_of_lt (ha : w.Appendable p)
    (hlt : Int64.maxValue.toInt < endOf (w.slotsAt p).keys) (operands : List Value) :
    w.append p operands = (w, .error .slotOccupied) :=
  append_eq_error ha.valid ha.valueAt_eq (slotsAt_keys w p ▸ nextKey_of_lt hlt) operands

/-! ### Appending in turn -/

/-- Appends a value while others are held. -/
def pushHolding (w : Workspace) (p : Place) (vs : List Value) (v : Value) :
    Workspace × Except ValueError Int64 :=
  let (w', r) := (w.hold vs).push p v
  ({ w' with held := w.held }, r)

/-- Appends values in turn. Those that are still to come are held meanwhile, and others are held all
the time. -/
def pushAll (w : Workspace) (p : Place) (others : List Value) :
    List Value → Workspace × List (Except ValueError Int64)
  | [] => (w, [])
  | v :: rest =>
    let (w', r) := w.pushHolding p (rest ++ others) v
    let (w'', rs) := w'.pushAll p others rest
    (w'', r :: rs)

/-- The workspace in which the value with a given index has its turn. -/
def atTurn (w : Workspace) (p : Place) (others vs : List Value) (i : Nat) : Workspace :=
  (w.pushAll p (vs.drop i ++ others) (vs.take i)).1.hold (vs.drop (i + 1) ++ others)

/-- Appending values in two parts is appending them all, with those of the second part held during
the first. -/
theorem pushAll_append (w : Workspace) (p : Place) (others vs vs' : List Value) :
    w.pushAll p others (vs ++ vs') =
      (((w.pushAll p (vs' ++ others) vs).1.pushAll p others vs').1,
        (w.pushAll p (vs' ++ others) vs).2 ++
          ((w.pushAll p (vs' ++ others) vs).1.pushAll p others vs').2) := by
  induction vs generalizing w with
  | nil => rfl
  | cons v rest ih => simp only [List.cons_append, pushAll, ih, List.append_assoc]

/-- What values come to that were appended in turn. -/
structure Grown (w : Workspace) (p : Place) (vs : List Value) (w' : Workspace) : Prop where
  appendable : w'.Appendable p
  admits : ∀ {v}, w.heap.Admits v → w'.heap.Admits v
  held_eq : w'.held = w.held
  slots_eq : w'.slotsAt p = w.slotsAt p ++ numbered (endOf (w.slotsAt p).keys) vs
  endOf_eq : endOf (w'.slotsAt p).keys =
    min (endOf (w.slotsAt p).keys + vs.length) (Int64.maxValue.toInt + 1)

/-- The end is at most one past the largest integer. -/
theorem endOf_slotsAt_le (w : Workspace) (p : Place) :
    endOf (w.slotsAt p).keys ≤ Int64.maxValue.toInt + 1 :=
  Int.add_le_add_right (largestKey_le _) 1

/-- Nothing was appended. -/
theorem Grown.refl (ha : w.Appendable p) : w.Grown p [] w := by
  refine ⟨ha, id, rfl, (List.append_nil _).symm, ?_⟩
  rw [List.length_nil, Int.natCast_zero, Int.add_zero, Int.min_eq_left (w.endOf_slotsAt_le p)]

/-- Values were appended, and then others. -/
theorem Grown.trans (hg : w.Grown p vs w') {vs' : List Value} {w'' : Workspace}
    (hg' : w'.Grown p vs' w'') : w.Grown p (vs ++ vs') w'' := by
  refine ⟨hg'.appendable, fun hu ↦ hg'.admits (hg.admits hu), hg'.held_eq.trans hg.held_eq, ?_, ?_⟩
  · rw [hg'.slots_eq, hg.endOf_eq, hg.slots_eq, numbered_append (w.endOf_slotsAt_le p),
      List.append_assoc]
  · rw [hg'.endOf_eq, hg.endOf_eq, List.length_append]
    omega

/-- A value that finds no room changes nothing. -/
theorem Grown.single_of_lt (ha : w.Appendable p)
    (hlt : Int64.maxValue.toInt < endOf (w.slotsAt p).keys) (v : Value) : w.Grown p [v] w := by
  have hle := w.endOf_slotsAt_le p
  refine ⟨ha, id, rfl, ?_, ?_⟩
  · rw [numbered_of_lt hlt, List.append_nil]
  · rw [List.length_singleton]
    omega

/-- A value that finds room is last. -/
theorem Grown.single_of_le (hle : endOf (w.slotsAt p).keys ≤ Int64.maxValue.toInt)
    (ha : w'.Appendable p) (hadm : ∀ {u}, w.heap.Admits u → w'.heap.Admits u)
    (hheld : w'.held = w.held) (hslots : w'.slotsAt p =
      (w.slotsAt p).add (.int (.ofInt (endOf (w.slotsAt p).keys))) (.value v)) :
    w.Grown p [v] w' := by
  refine ⟨ha, hadm, hheld, ?_, ?_⟩
  · rw [hslots, numbered, if_pos hle]
    rfl
  · rw [hslots, Pairs.add, Pairs.keys, List.map_append, List.length_singleton]
    refine (endOf_concat hle).trans (Int.min_eq_left ?_).symm
    omega

section PushHolding

variable (ha : w.Appendable p) (hvs : ∀ u ∈ vs, w.heap.Admits u)

include ha hvs

theorem Appendable.hold : (w.hold vs).Appendable p :=
  ha.withHeld fun u hu ↦ (List.mem_append.1 hu).elim ha.valid.admits_held (hvs u)

/-- With a next key the value is appended there. -/
theorem Appendable.pushHolding_of_le (hadm : w.heap.Admits v)
    (hle : endOf (w.slotsAt p).keys ≤ Int64.maxValue.toInt) :
    (w.pushHolding p vs v).2 = .ok (.ofInt (endOf (w.slotsAt p).keys)) ∧
      w.Grown p [v] (w.pushHolding p vs v).1 := by
  have hs := ha.hold hvs
  have hslots : (w.hold vs).slotsAt p = w.slotsAt p := slotsAt_withHeld w _ p
  have hq := quietly_push hs.valid p (v := v) hadm
  have hheld : ∀ u ∈ w.held, w.heap.Admits u := fun u ↦ ha.valid.admits_held
  obtain ⟨hr, happ, hnext⟩ := hs.push_of_nextKey hadm (hslots ▸ nextKey_of_le hle)
  have hw : (w.pushHolding p vs v).1.Appendable p :=
    hnext.withHeld fun u hu ↦ hq.admits (hheld u hu)
  have hslots' : (w.pushHolding p vs v).1.slotsAt p =
      (w.slotsAt p).add (.int (.ofInt (endOf (w.slotsAt p).keys))) (.value v) :=
    (slotsAt_withHeld _ w.held p).trans (hslots ▸ happ.slots_eq)
  exact ⟨hr, .single_of_le hle hw hq.admits rfl hslots'⟩

/-- Without one the call fails and changes nothing. -/
theorem Appendable.pushHolding_of_lt (hlt : Int64.maxValue.toInt < endOf (w.slotsAt p).keys)
    (v : Value) : w.pushHolding p vs v = (w, .error .slotOccupied) := by
  have hslots : (w.hold vs).slotsAt p = w.slotsAt p := slotsAt_withHeld w _ p
  rw [pushHolding, (ha.hold hvs).push_of_lt (hslots.symm ▸ hlt)]
  rfl

end PushHolding

/-- **A run of appends is told by the end of the array.** -/
theorem Appendable.pushAll (ha : w.Appendable p) (hothers : ∀ v ∈ others, w.heap.Admits v)
    (hvs : ∀ v ∈ vs, w.heap.Admits v) :
    w.Grown p vs (w.pushAll p others vs).1 ∧
      (w.pushAll p others vs).2 = indices (endOf (w.slotsAt p).keys) vs := by
  induction vs generalizing w with
  | nil => exact ⟨.refl ha, rfl⟩
  | cons v rest ih =>
    have hadm := hvs v List.mem_cons_self
    have hrest : ∀ u ∈ rest, w.heap.Admits u := fun u hu ↦ hvs u (List.mem_cons_of_mem v hu)
    have hheld : ∀ u ∈ rest ++ others, w.heap.Admits u := fun u hu ↦
      (List.mem_append.1 hu).elim (hrest u) (hothers u)
    rw [Workspace.pushAll, indices]
    by_cases hle : endOf (w.slotsAt p).keys ≤ Int64.maxValue.toInt
    · obtain ⟨hr, hone⟩ := ha.pushHolding_of_le hheld hadm hle
      have hend : endOf ((w.pushHolding p (rest ++ others) v).1.slotsAt p).keys =
          endOf (w.slotsAt p).keys + 1 :=
        hone.endOf_eq.trans (Int.min_eq_left (Int.add_le_add_right hle 1))
      obtain ⟨hg, hi⟩ := ih hone.appendable (fun u hu ↦ hone.admits (hothers u hu)) fun u hu ↦
        hone.admits (hrest u hu)
      rw [if_pos hle, ← hend, ← hi, ← hr]
      exact ⟨hone.trans hg, rfl⟩
    · have hlt := Int.not_le.1 hle
      obtain ⟨hg, hi⟩ := ih ha hothers hrest
      rw [if_neg hle, indices_of_lt (by omega) hlt, ← hi,
        ha.pushHolding_of_lt hheld hlt]
      exact ⟨(Grown.single_of_lt ha hlt v).trans hg, rfl⟩

/-- A turn begins where the appends before it end. -/
theorem Appendable.atTurn (ha : w.Appendable p) (hothers : ∀ v ∈ others, w.heap.Admits v)
    (hvs : ∀ v ∈ vs, w.heap.Admits v) (i : Nat) (hi : i ≤ vs.length) :
    (w.atTurn p others vs i).Appendable p ∧
      (∀ {u}, w.heap.Admits u → (w.atTurn p others vs i).heap.Admits u) ∧
      endOf ((w.atTurn p others vs i).slotsAt p).keys =
        min (endOf (w.slotsAt p).keys + i) (Int64.maxValue.toInt + 1) := by
  have hdrop : ∀ n, ∀ u ∈ vs.drop n ++ others, w.heap.Admits u := fun n u hu ↦
    (List.mem_append.1 hu).elim (fun hu ↦ hvs u (List.mem_of_mem_drop hu)) (hothers u)
  have htake : ∀ u ∈ vs.take i, w.heap.Admits u := fun u hu ↦ hvs u (List.mem_of_mem_take hu)
  obtain ⟨hg, -⟩ := ha.pushAll (hdrop i) htake
  refine ⟨hg.appendable.hold fun u hu ↦ hg.admits (hdrop (i + 1) u hu), hg.admits, ?_⟩
  rw [Workspace.atTurn, Workspace.hold, slotsAt_withHeld, hg.endOf_eq, List.length_take,
    Nat.min_eq_left hi]

/-- What appending values in turn to the array at a place comes to. The end is that of the array
before the first turn. -/
structure AppendsInTurn (w : Workspace) (p : Place) (others vs : List Value) : Prop where
  /-- A turn that finds room adds one entry. -/
  push : ∀ {i : Nat} {v}, vs[i]? = some v → endOf (w.slotsAt p).keys + i ≤ Int64.maxValue.toInt →
    ((w.atTurn p others vs i).push p v).2 = .ok (.ofInt (endOf (w.slotsAt p).keys + i)) ∧
      (w.atTurn p others vs i).Appended p (.ofInt (endOf (w.slotsAt p).keys + i)) v
        ((w.atTurn p others vs i).push p v).1
  /-- From the first turn on that finds none, nothing can be appended. -/
  full : ∀ {i : Nat}, i ≤ vs.length → Int64.maxValue.toInt < endOf (w.slotsAt p).keys + i →
    ∀ v operands, (w.atTurn p others vs i).push p v =
        (w.atTurn p others vs i, .error .slotOccupied) ∧
      (w.atTurn p others vs i).append p operands =
        (w.atTurn p others vs i, .error .slotOccupied)
  /-- The next key is never taken, so an append does not fail for that. -/
  free : ∀ {i : Nat} {x n}, i ≤ vs.length → (w.atTurn p others vs i).heap.nextIndex x = some n →
    ((w.atTurn p others vs i).heap.table x).stores (.int n) = false
  slots_eq : (w.pushAll p others vs).1.slotsAt p =
    w.slotsAt p ++ numbered (endOf (w.slotsAt p).keys) vs
  results_eq : (w.pushAll p others vs).2 = indices (endOf (w.slotsAt p).keys) vs

/-- **Appending never overwrites, and stops cleanly at the end of the integers.** In every workspace
that a program leads to, appending values in turn to the array at a place puts each of them, as it
is, under the next integer from the end of the array on. Nothing is stored under that key before,
the entry is last, and everything else stays as it is. From the turn on for which there is no
integer left, appending fails and does nothing. -/
theorem Reachable.appended_in_turn (hw : w.Reachable) (hval : w.valueAt p = .array t)
    (ht : w.heap.Knows t) (hothers : ∀ v ∈ others, w.heap.Admits v)
    (hvs : ∀ v ∈ vs, w.heap.Admits v) : w.AppendsInTurn p others vs := by
  have ha := hw.appendable hval ht
  have hturn := ha.atTurn hothers hvs
  obtain ⟨hg, hi⟩ := ha.pushAll hothers hvs
  refine ⟨fun {i v} hv hle ↦ ?_, fun {i} hi hlt v operands ↦ ?_, fun {i x n} hi hn ↦ ?_,
    hg.slots_eq, hi⟩
  · obtain ⟨hlt, hget⟩ := List.getElem?_eq_some_iff.1 hv
    obtain ⟨hs, hadm, hend⟩ := hturn i (Nat.le_of_lt hlt)
    rw [Int.min_eq_left (by omega)] at hend
    obtain ⟨hr, happ, -⟩ := hs.push_of_nextKey (hadm (hvs v (List.mem_of_getElem? hv)))
      (nextKey_of_le (hend ▸ hle))
    exact hend ▸ ⟨hr, happ⟩
  · obtain ⟨hs, -, hend⟩ := hturn i hi
    have hlt : Int64.maxValue.toInt < endOf ((w.atTurn p others vs i).slotsAt p).keys := by omega
    exact ⟨hs.push_of_lt hlt v, hs.append_of_lt hlt operands⟩
  · obtain ⟨hs, -, -⟩ := hturn i hi
    rw [Heap.nextIndex, hs.valid.nextFree_eq] at hn
    rw [← Table.find?_eq_none_iff]
    exact Table.find?_eq_none_iff_notMem.2 (notMem_of_nextKey hn)

/-- A program that stores a key two before the last integer there is, stores that integer, and takes
it out again. -/
def exhaustingProgram : List Statement :=
  [⟨.array (.constant (.int 7)), some "x"⟩, ⟨.array (.cell "x"), some "c"⟩,
    ⟨.array (.list []), some "a"⟩,
    ⟨.array (.edit ⟨"a", []⟩ (.insert (.key (.int 9223372036854775805)) "x")), none⟩,
    ⟨.array (.edit ⟨"a", []⟩ (.insert (.key (.int 9223372036854775807)) "x")), none⟩,
    ⟨.array (.edit ⟨"a", []⟩ (.unset (.key (.int 9223372036854775807)))), none⟩]

/-- Where that program ends. -/
def exhaustingEnd : Workspace := ((empty.run exhaustingProgram).map (·.1)).getD empty

theorem reachable_exhaustingEnd : exhaustingEnd.Reachable := ⟨exhaustingProgram, _, rfl⟩

/-- Two of three values find room, a reference among them. -/
theorem Reachable.appended_in_turn_exhaustingEnd :
    exhaustingEnd.Reachable ∧
      (exhaustingEnd.pushAll (.register "a") [] [.undefined, .reference ⟨0⟩, .int 5]).2 =
        [.ok 9223372036854775806, .ok 9223372036854775807, .error .slotOccupied] ∧
      (exhaustingEnd.pushAll (.register "a") []
          [.undefined, .reference ⟨0⟩, .int 5]).1.slotsAt (.register "a") =
        [(.int 9223372036854775805, .value (.int 7)), (.int 9223372036854775806, .value .undefined),
          (.int 9223372036854775807, .value (.reference ⟨0⟩))] := by
  have hadm : ∀ v ∈ [Value.undefined, .reference ⟨0⟩, .int 5], exhaustingEnd.heap.Admits v := by
    intro v hv
    simp only [List.mem_cons, List.not_mem_nil, or_false] at hv
    rcases hv with rfl | rfl | rfl
    · exact Heap.admits_undefined
    · exact Heap.admits_reference_iff.2 ⟨_, rfl⟩
    · exact Heap.admits_of_handle?_eq_none rfl
  have happ := reachable_exhaustingEnd.appended_in_turn (p := .register "a") (t := ⟨0⟩) rfl ⟨_, rfl⟩
    Heap.admits_of_mem_nil hadm
  exact ⟨reachable_exhaustingEnd, happ.results_eq, happ.slots_eq⟩

end Workspace

end SharedValue
