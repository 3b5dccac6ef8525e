import SharedValue.Proofs.Copies
import SharedValue.Proofs.Reassigning

/-!
# Where an assignment goes

Assigning under a key looks one level into the slot: a new key gets an entry at the end, a slot that
holds a reference lets the value through to the cell, a bound slot gives it to its cell or to the
cell that this one refers to, and any other slot takes it itself. `Heap.destination` tells which,
and `Heap.store_eq_deliver` that an assignment is one write to that place, although a slot or cell
that holds nothing is given null on the way.
-/

namespace SharedValue

theorem Value.shown_of_ne {v : Value} (hv : v ≠ .undefined) : v.shown = v := by
  cases v with
  | undefined => exact absurd rfl hv
  | _ => rfl

/-- The place that a value goes to that is assigned under a key. -/
inductive Destination
  /-- A new entry at the end. -/
  | last
  /-- The slot under the key. -/
  | slot
  | cell (c : CellId)
  deriving DecidableEq

namespace Heap

variable {h : Heap} {e : Element} {t : TableId} {l : Label} {u v : Value} {c d : CellId}

/-- Where an assignment to an element goes. A cell that refers to itself is written to like one that
holds no reference. -/
def destination (h : Heap) (e : Element) : Destination :=
  match h.slot? e with
  | none => .last
  | some (.value (.reference c)) => .cell c
  | some (.value _) => .slot
  | some (.binding c) =>
    match h.cell c with
    | .reference d => .cell d
    | _ => .cell c

/-- A value put where it goes. -/
def deliver (h : Heap) (t : TableId) (l : Label) (v : Value) : Destination → Heap
  | .last => h.setTable t ((h.table t).insertNew l (.value v))
  | .slot => h.setTable t ((h.table t).put l.key (.value v))
  | .cell c => h.setCell c v

/-- What there is where an assignment goes. A slot that was never written counts as null. -/
def former (h : Heap) (e : Element) : Destination → Option Value
  | .last => none
  | .slot => some (h.read e).shown
  | .cell c => some (h.cell c)

/-! ### The destination of a slot -/

theorem destination_eq_last_iff : h.destination e = .last ↔ h.slot? e = none := by
  rw [destination]
  split
  next hs => simp [hs]
  next hs => simp [hs]
  next hs => simp [hs]
  next hs => split <;> simp [hs]

/-- A slot with a reference sends a value to the cell. -/
theorem destination_of_reference (hs : h.slot? e = some (.value (.reference c))) :
    h.destination e = .cell c := by
  rw [destination, hs]

/-- Any other plain slot takes it. -/
theorem destination_of_value (hs : h.slot? e = some (.value u)) (hu : ∀ c, u ≠ .reference c) :
    h.destination e = .slot := by
  rw [destination, hs]
  cases u with
  | reference c => exact absurd rfl (hu c)
  | _ => rfl

/-- A bound slot whose cell has a reference sends it one cell further. -/
theorem destination_of_binding_reference (hs : h.slot? e = some (.binding c))
    (hc : h.cell c = .reference d) : h.destination e = .cell d := by
  simp only [destination, hs, hc]

/-- Any other bound slot sends it to its cell. -/
theorem destination_of_binding (hs : h.slot? e = some (.binding c))
    (hc : ∀ d, h.cell c ≠ .reference d) : h.destination e = .cell c := by
  rw [destination, hs]
  dsimp only
  split
  next d hd => exact absurd hd (hc d)
  · rfl

/-- The destination depends on the slot, and for a bound slot on its cell. -/
theorem destination_congr {h' : Heap} {e' : Element} (hs : h'.slot? e' = h.slot? e)
    (hc : ∀ c, h.slot? e = some (.binding c) → h'.cell c = h.cell c) :
    h'.destination e' = h.destination e := by
  rw [destination, destination, hs]
  split
  · rfl
  · rfl
  · rfl
  next c hb => rw [hc c hb]

/-- An assignment goes to a cell that the slot refers to, that its cell refers to, or that it is
bound to. -/
theorem slot?_of_destination (hd : h.destination e = .cell c) :
    h.slot? e = some (.value (.reference c)) ∨
      (∃ b, h.slot? e = some (.binding b) ∧ h.cell b = .reference c) ∨
      h.slot? e = some (.binding c) := by
  rw [destination] at hd
  split at hd
  · cases hd
  next d hs =>
    obtain rfl := Destination.cell.inj hd
    exact .inl hs
  · cases hd
  next b hs =>
    split at hd
    next d hb =>
      obtain rfl := Destination.cell.inj hd
      exact .inr (.inl ⟨b, hs, hb⟩)
    next =>
      obtain rfl := Destination.cell.inj hd
      exact .inr (.inr hs)

/-- A destination that is a cell is one of those that the element stands for. -/
theorem mem_cellsAt_of_destination (hd : h.destination e = .cell c) : c ∈ h.cellsAt e := by
  rcases slot?_of_destination hd with hs | ⟨b, hs, hb⟩ | hs
  · exact .inr (by rw [read, hs])
  · exact .inr (by rw [read, hs]; exact hb)
  · exact .inl hs

/-- It is there. -/
theorem Valid.sound_of_destination (hv : h.Valid) (hd : h.destination e = .cell c) :
    h.Sound (.cell c) := by
  rcases mem_cellsAt_of_destination hd with hs | hr
  · exact hv.sound_binding hs
  · exact admits_reference_iff.1 (hr ▸ admits_read hv e)

/-- An assignment goes through a reference that the element holds. -/
theorem destination_of_read (hr : h.read e = .reference c) : h.destination e = .cell c := by
  rw [read] at hr
  split at hr
  next u hs => exact destination_of_reference (hr ▸ hs)
  next b hs => exact destination_of_binding_reference hs hr
  · cases hr

/-- What becomes of the table that is assigned to. -/
theorem slots_deliver (ht : h.Knows t) (l : Label) (v : Value) :
    ((h.deliver t l v .last).table t).slots = (h.table t).slots.add l.key (.value v) ∧
      ((h.deliver t l v .slot).table t).slots = (h.table t).slots.put l.key (.value v) ∧
      ∀ c, (h.deliver t l v (.cell c)).table t = h.table t := by
  have hlt := Store.lt_fresh_of_get? ht.get?
  refine ⟨?_, ?_, fun c ↦ rfl⟩
  · rw [deliver, table_setTable_self hlt]
    exact ((h.table t).matches_slots.insertNew rfl l).slots_eq
  · rw [deliver, table_setTable_self hlt]
    exact ((h.table t).matches_slots.put rfl l.key).slots_eq

/-- A key that is stored keeps the order of the keys, and the next key. -/
theorem storedKeys_deliver (ht : h.Knows t) {d : Destination} (hd : d ≠ .last) (l : Label)
    (v : Value) : ((h.deliver t l v d).table t).storedKeys = (h.table t).storedKeys ∧
      (h.deliver t l v d).nextIndex t = h.nextIndex t := by
  cases d with
  | last => exact absurd rfl hd
  | slot =>
    rw [nextIndex, deliver, table_setTable_self (Store.lt_fresh_of_get? ht.get?)]
    exact ⟨Table.storedKeys_put _ _ _, rfl⟩
  | cell c => exact ⟨rfl, rfl⟩

/-! ### One write -/

/-- An element with a value in it is ready already. -/
theorem materialize_of_read_ne (hs : h.slot? ⟨t, l.key⟩ ≠ none)
    (hr : h.read ⟨t, l.key⟩ ≠ .undefined) : h.materialize t l = h := by
  rw [materialize]
  split
  next hf => exact absurd hf hs
  · exact if_neg hr

/-- An element that holds nothing is written to once, although it is null in between. -/
theorem replace_materialize_of_undefined {s : Slot} (hv : h.Valid)
    (hs : h.slot? ⟨t, l.key⟩ = some s) (hr : h.read ⟨t, l.key⟩ = .undefined) (v : Value) :
    (h.materialize t l).replace ⟨t, l.key⟩ v = (h.write ⟨t, l.key⟩ v, .null) := by
  have hf : (h.table t).find? l.key = some s := hs
  rw [materialize, hf]
  dsimp only
  rw [if_pos hr, replace, read_write hv hs, write_write hs]

/-- Assigning to an element that holds no reference, or is bound to a cell that refers to itself,
replaces what it holds. -/
theorem replace_of_not_through
    (hr : ∀ c, h.read e = .reference c → h.binding? e = some c) (v : Value) :
    h.replace e v = (h.write e v, h.read e) := by
  rw [replace]
  split
  next c hc => rw [if_pos (hr c hc), hc]
  · rfl

/-- Assigning through a reference writes to its cell. -/
theorem replace_of_through (hr : h.read e = .reference c) (hb : h.binding? e ≠ some c) (v : Value) :
    h.replace e v = (h.setCell c v, h.cell c) := by
  rw [replace, hr]
  exact if_neg hb

/-- Assigning under a key whose slot is not bound. -/
private theorem store_eq_of_value (hv : h.Valid) (hs : h.slot? ⟨t, l.key⟩ = some (.value u))
    (v : Value) : h.store t l v = (h.deliver t l v (h.destination ⟨t, l.key⟩),
      h.former ⟨t, l.key⟩ (h.destination ⟨t, l.key⟩)) := by
  have hf : (h.table t).find? l.key = some (.value u) := hs
  have hread : h.read ⟨t, l.key⟩ = u := by rw [read, hs]
  have hbinding : h.binding? ⟨t, l.key⟩ = none := by rw [binding?, hs]
  have hwrite : h.write ⟨t, l.key⟩ v = h.deliver t l v .slot := by rw [write, hs, deliver]
  rw [store, hf]
  dsimp only
  by_cases hu : u = .undefined
  · rw [replace_materialize_of_undefined hv hs (hread.trans hu), hwrite,
      destination_of_value hs (fun c he ↦ by cases hu.symm.trans he), former, hread, hu]
    rfl
  rw [materialize_of_read_ne (by rw [hs]; exact Option.some_ne_none _) (by rwa [hread])]
  by_cases hc : ∃ c, u = .reference c
  · obtain ⟨c, rfl⟩ := hc
    rw [replace_of_through hread (by rw [hbinding]; exact (Option.some_ne_none _).symm),
      destination_of_reference hs]
    rfl
  · rw [replace_of_not_through fun c he ↦ absurd ⟨c, hread.symm.trans he⟩ hc, hwrite,
      destination_of_value hs fun c he ↦ hc ⟨c, he⟩, former, hread, Value.shown_of_ne hu]
    rfl

/-- Assigning under a key that is bound to a cell. -/
private theorem store_eq_of_binding (hv : h.Valid) (hs : h.slot? ⟨t, l.key⟩ = some (.binding c))
    (v : Value) : h.store t l v = (h.deliver t l v (h.destination ⟨t, l.key⟩),
      if h.cell c = .undefined then none
      else h.former ⟨t, l.key⟩ (h.destination ⟨t, l.key⟩)) := by
  have hf : (h.table t).find? l.key = some (.binding c) := hs
  have hread : h.read ⟨t, l.key⟩ = h.cell c := by rw [read, hs]
  have hbinding : h.binding? ⟨t, l.key⟩ = some c := by rw [binding?, hs]
  have hwrite : h.write ⟨t, l.key⟩ v = h.deliver t l v (.cell c) := by rw [write, hs, deliver]
  rw [store, hf]
  dsimp only
  by_cases hu : h.cell c = .undefined
  · rw [replace_materialize_of_undefined hv hs (hread.trans hu), hwrite,
      destination_of_binding hs (fun d he ↦ by cases hu.symm.trans he), if_pos hu]
    simp [Slot.isVacant, hu]
  have hvacant : (Slot.binding c).isVacant h.cell = false := by simp [Slot.isVacant, hu]
  rw [materialize_of_read_ne (by rw [hs]; exact Option.some_ne_none _) (by rwa [hread]), if_neg hu,
    hvacant]
  by_cases hd : ∃ d, h.cell c = .reference d
  · obtain ⟨d, hd⟩ := hd
    rw [destination_of_binding_reference hs hd]
    by_cases he : c = d
    · subst he
      rw [replace_of_not_through fun b hb ↦ by
        rw [hbinding, Value.reference.inj (hd.symm.trans (hread.symm.trans hb))], hwrite, hread]
      rfl
    · rw [replace_of_through (hread.trans hd) fun hb ↦ he (Option.some.inj (hbinding.symm.trans hb))]
      rfl
  · rw [replace_of_not_through fun b hb ↦ absurd ⟨b, hread.symm.trans hb⟩ hd, hwrite, hread,
      destination_of_binding hs fun d he ↦ hd ⟨d, he⟩]
    rfl

/-- **An assignment is one write to the place where it goes**, and gives what was there if the key
was shown. -/
theorem store_eq_deliver (hv : h.Valid) (hl : l.key.IsNormal) (v : Value) :
    h.store t l v = (h.deliver t l v (h.destination ⟨t, l.key⟩),
      if h.contains t l.key then h.former ⟨t, l.key⟩ (h.destination ⟨t, l.key⟩) else none) := by
  have hcontains : h.contains t l.key =
      (((h.table t).find? l.key).bind (·.load h.cell)).isSome := by
    rw [contains, Table.contains_eq_isSome, Table.get?_eq_bind, Key.normalize_of_isNormal hl]
  cases hs : h.slot? ⟨t, l.key⟩ with
  | none =>
    have hf : (h.table t).find? l.key = none := hs
    rw [store_of_find?_eq_none hf, destination_eq_last_iff.2 hs, former, ite_self, deliver]
  | some s =>
    have hf : (h.table t).find? l.key = some s := hs
    rw [hf, Option.bind_some] at hcontains
    cases s with
    | value u => rw [store_eq_of_value hv hs, hcontains, Slot.load, Option.isSome_some, if_pos rfl]
    | binding c =>
      rw [store_eq_of_binding hv hs]
      rw [Slot.load_binding] at hcontains
      by_cases hu : h.cell c = .undefined <;> simp [hcontains, hu]

/-- A key that is shown is stored. -/
theorem destination_ne_last (hc : h.contains t l.key = true) (hl : l.key.IsNormal) :
    h.destination ⟨t, l.key⟩ ≠ .last := by
  intro hd
  have hf : (h.table t).find? l.key = none := destination_eq_last_iff.1 hd
  rw [contains, Table.contains_eq_isSome, Table.get?_eq_bind, Key.normalize_of_isNormal hl, hf] at hc
  cases hc

end Heap

end SharedValue
