import SharedValue.Proofs.Acyclic.Writing
import SharedValue.Proofs.Heap.Chain
import SharedValue.Proofs.Workspace.Commands

/-!
# Cells that are lent

While the content of a cell is being changed in place, the cell is lent to whoever changes it, and
it cannot be read or written by anybody else: an operation that comes to a lent cell is stopped, it
does not even fail. An array in a cell is changed while its cell is lent, so a key or an element
that leads back to this cell stops the operation.

The operations are written here once more, with the cells that they come to. Reading a cell and
writing to it are the only steps that may be stopped (`Heap.cell?`, `Heap.setCell?`); `none` is an
operation that was. An equation for each operation says that it comes to what it comes to with
nothing lent, unless one of certain cells is lent (`unlessLent`): those of the chain that a key
leads through, as far as it is followed (`Heap.inspected`), the one that an element is bound to, and
the one that an assignment goes through (`Heap.through`).
-/

namespace SharedValue

/-! ### Computations that may be stopped -/

section UnlessLent

variable {α β : Type} {lent cells cells' : List CellId} {a : α} {b : β}

/-- A result, unless one of the cells on the way to it is lent. -/
def unlessLent (lent cells : List CellId) (a : α) : Option α :=
  if ∃ c ∈ cells, c ∈ lent then none else some a

theorem unlessLent_eq_none_iff : unlessLent lent cells a = none ↔ ∃ c ∈ cells, c ∈ lent := by
  rw [unlessLent]
  split
  next h => exact iff_of_true rfl h
  next h => exact iff_of_false (fun he ↦ by cases he) h

theorem eq_of_unlessLent {a' : α} (h : unlessLent lent cells a = some a') : a = a' := by
  rw [unlessLent] at h
  split at h
  · cases h
  · exact Option.some.inj h

@[simp]
theorem unlessLent_nil (lent : List CellId) (a : α) : unlessLent lent [] a = some a :=
  if_neg fun ⟨_, hc, _⟩ ↦ by cases hc

/-- Only which cells there are matters. -/
theorem unlessLent_congr (h : ∀ c, c ∈ cells ↔ c ∈ cells') :
    unlessLent lent cells a = unlessLent lent cells' a := by
  simp only [unlessLent, h]

/-- A step with another one after it comes to the cells of both. -/
theorem bind_unlessLent {x : Option α} {f : α → Option β} (hx : x = unlessLent lent cells a)
    (hf : f a = unlessLent lent cells' b) : (x >>= f) = unlessLent lent (cells ++ cells') b := by
  have hor : (∃ c ∈ cells ++ cells', c ∈ lent) ↔
      (∃ c ∈ cells, c ∈ lent) ∨ ∃ c ∈ cells', c ∈ lent := by
    simp only [List.mem_append, or_and_right, exists_or]
  rw [hx]
  by_cases hfirst : ∃ c ∈ cells, c ∈ lent
  · rw [unlessLent, if_pos hfirst, unlessLent, if_pos (hor.2 (.inl hfirst))]
    rfl
  · rw [unlessLent, if_neg hfirst]
    refine hf.trans ?_
    simp only [unlessLent, hor, or_iff_right hfirst]

/-- A step with one after it that comes to no cell. -/
theorem bind_unlessLent_some {x : Option α} {f : α → Option β} (hx : x = unlessLent lent cells a)
    (hf : f a = some b) : (x >>= f) = unlessLent lent cells b := by
  rw [bind_unlessLent hx (hf.trans (unlessLent_nil lent b).symm), List.append_nil]

/-- A step with another one after it that comes to the same cells. -/
theorem bind_unlessLent_self {x : Option α} {f : α → Option β} (hx : x = unlessLent lent cells a)
    (hf : f a = unlessLent lent cells b) : (x >>= f) = unlessLent lent cells b := by
  rw [bind_unlessLent hx hf]
  exact unlessLent_congr fun c ↦ List.mem_append.trans or_self_iff

end UnlessLent

namespace Heap

variable {h : Heap} {lent : List CellId} {c : CellId} {v : Value} {t : TableId} {l : Label}
  {e : Element} {s : Slot}

/-! ### Cells -/

/-- The content of a cell, unless the cell is lent. -/
def cell? (h : Heap) (lent : List CellId) (c : CellId) : Option Value :=
  if c ∈ lent then none else some (h.cell c)

/-- Replaces the content of a cell, unless the cell is lent. -/
def setCell? (h : Heap) (lent : List CellId) (c : CellId) (v : Value) : Option Heap :=
  if c ∈ lent then none else some (h.setCell c v)

theorem cell?_eq (h : Heap) (lent : List CellId) (c : CellId) :
    h.cell? lent c = unlessLent lent [c] (h.cell c) := by
  simp only [cell?, unlessLent, List.mem_singleton, exists_eq_left]

theorem setCell?_eq (h : Heap) (lent : List CellId) (c : CellId) (v : Value) :
    h.setCell? lent c v = unlessLent lent [c] (h.setCell c v) := by
  simp only [setCell?, unlessLent, List.mem_singleton, exists_eq_left]

/-! ### Following references -/

/-- The cells whose contents following a value to a limit looks at, in their order. -/
def inspected (h : Heap) : (limit : Nat) → Value → List CellId
  | limit + 1, .reference c => c :: h.inspected limit (h.cell c)
  | _, _ => []

/-- Follows a value to the end of its chain, unless it comes to a lent cell. -/
def chase? (h : Heap) (lent : List CellId) : (limit : Nat) → Value → Option (Option Value)
  | 0, .reference _ => some none
  | limit + 1, .reference c => do h.chase? lent limit (← h.cell? lent c)
  | _, v => some (some v)

/-- What following a value gives, unless its chain comes to a lent cell. -/
def dereference? (h : Heap) (lent : List CellId) (limit : Nat) (v : Value) :
    Option (Except ValueError Value) := do
  match ← h.chase? lent limit v with
  | some u => return .ok u
  | none => return .error (.referenceDepth limit)

/-- What coercing a key gives, unless its chain comes to a lent cell. -/
def coerceKey? (h : Heap) (lent : List CellId) (limit : Nat) (v : Value) :
    Option (Except ValueError Label) := do
  return (← h.dereference? lent limit v) >>= h.keyOfValue

theorem chase?_eq (h : Heap) (lent : List CellId) (limit : Nat) (v : Value) :
    h.chase? lent limit v = unlessLent lent (h.inspected limit v) (h.chase limit v) := by
  induction limit generalizing v with
  | zero => cases v <;> exact (unlessLent_nil lent _).symm
  | succ limit ih =>
    cases v with
    | reference c =>
      exact bind_unlessLent (h.cell?_eq lent c) (ih (h.cell c))
    | _ => exact (unlessLent_nil lent _).symm

theorem dereference?_eq (h : Heap) (lent : List CellId) (limit : Nat) (v : Value) :
    h.dereference? lent limit v =
      unlessLent lent (h.inspected limit v) (h.dereference limit v) := by
  rw [dereference?, dereference]
  refine bind_unlessLent_some (h.chase?_eq lent limit v) ?_
  cases h.chase limit v <;> rfl

theorem coerceKey?_eq (h : Heap) (lent : List CellId) (limit : Nat) (v : Value) :
    h.coerceKey? lent limit v = unlessLent lent (h.inspected limit v) (h.coerceKey limit v) :=
  bind_unlessLent_some (h.dereference?_eq lent limit v) rfl

/-! ### Slots -/

/-- The value that a slot shows, unless its cell is lent. -/
def load? (h : Heap) (lent : List CellId) : Slot → Option (Option Value)
  | .value v => some (some v.shown)
  | .binding c => do
    match ← h.cell? lent c with
    | .undefined => return none
    | v => return some v

/-- The value under a key, unless the cell of its slot is lent. -/
def lookUp? (h : Heap) (lent : List CellId) (t : TableId) (k : Key) : Option (Option Value) :=
  match (h.table t).find? k.normalize with
  | none => some none
  | some s => h.load? lent s

/-- Makes sure that a key is stored and holds something, unless the cell of its slot is lent. -/
def materialize? (h : Heap) (lent : List CellId) (t : TableId) (l : Label) : Option Heap :=
  match (h.table t).find? l.key with
  | some (.binding c) => do
    let u ← h.cell? lent c
    return if u = .undefined then h.setCell c .null else h
  | _ => some (h.materialize t l)

/-- Assigns to an element, whose own cell is lent to the element itself, unless it refers to another
cell that is lent. -/
def replace? (h : Heap) (lent : List CellId) (e : Element) (v : Value) : Option (Heap × Value) :=
  match h.read e with
  | .reference c =>
    if h.binding? e = some c then some (h.write e v, .reference c)
    else do return (← h.setCell? lent c v, h.cell c)
  | old => some (h.write e v, old)

/-- Assigns to a key, unless it comes to a lent cell. -/
def store? (h : Heap) (lent : List CellId) (t : TableId) (l : Label) (v : Value) :
    Option (Heap × Option Value) :=
  match (h.table t).find? l.key with
  | none => some (h.setTable t ((h.table t).insertNew l (.value v)), none)
  | some s => do
    let shown ← h.load? lent s
    let ready ← h.materialize? lent t l
    let (after, old) ← ready.replace? lent ⟨t, l.key⟩ v
    return (after, shown.map fun _ ↦ old)

/-- The cell that an assignment to an element goes through: the one that the element refers to,
unless the element is bound to it. -/
def through (h : Heap) (e : Element) : List CellId :=
  match h.read e with
  | .reference c => if h.binding? e = some c then [] else [c]
  | _ => []

theorem load?_eq (h : Heap) (lent : List CellId) (hs : h.slot? e = some s) :
    h.load? lent s = unlessLent lent (h.binding? e).toList (s.load h.cell) := by
  rw [binding?, hs]
  cases s with
  | value u => exact (unlessLent_nil lent _).symm
  | binding c =>
    rw [load?, Slot.load]
    refine bind_unlessLent_some (h.cell?_eq lent c) ?_
    cases h.cell c <;> rfl

theorem lookUp?_eq (h : Heap) (lent : List CellId) (t : TableId) (k : Key) :
    h.lookUp? lent t k =
      unlessLent lent (h.binding? ⟨t, k.normalize⟩).toList (h.get? t k) := by
  rw [lookUp?, get?, Table.get?_eq_bind]
  cases hf : (h.table t).find? k.normalize with
  | none =>
    have hb : h.binding? ⟨t, k.normalize⟩ = none := by rw [binding?, slot?, hf]
    rw [hb]
    exact (unlessLent_nil lent _).symm
  | some s =>
    have hs : h.slot? ⟨t, k.normalize⟩ = some s := hf
    exact load?_eq h lent hs

theorem materialize?_eq (h : Heap) (lent : List CellId) (t : TableId) (l : Label) :
    h.materialize? lent t l =
      unlessLent lent (h.binding? ⟨t, l.key⟩).toList (h.materialize t l) := by
  rw [materialize?, binding?, slot?]
  cases hf : (h.table t).find? l.key with
  | none => exact (unlessLent_nil lent _).symm
  | some s =>
    cases s with
    | value v => exact (unlessLent_nil lent _).symm
    | binding c =>
      have hs : h.slot? ⟨t, l.key⟩ = some (.binding c) := hf
      rw [materialize, hf, read, write, hs]
      exact bind_unlessLent_some (h.cell?_eq lent c) rfl

theorem replace?_eq (h : Heap) (lent : List CellId) (e : Element) (v : Value) :
    h.replace? lent e v = unlessLent lent (h.through e) (h.replace e v) := by
  rw [replace?, through, replace]
  cases h.read e with
  | reference c =>
    dsimp only
    split
    · exact (unlessLent_nil lent _).symm
    · exact bind_unlessLent_some (h.setCell?_eq lent c v) rfl
  | _ => exact (unlessLent_nil lent _).symm

theorem through_of_ne (hr : ∀ c, h.read e ≠ .reference c) : h.through e = [] := by
  rw [through]
  split
  next c hc => exact absurd hc (hr c)
  · rfl

/-- Null under a new key refers to no cell, and neither does a key in a table that is not there. -/
theorem through_insertNew_null (hf : (h.table t).find? l.key = none) :
    (h.setTable t ((h.table t).insertNew l (.value .null))).through ⟨t, l.key⟩ = [] := by
  refine through_of_ne fun c hr ↦ ?_
  by_cases hlt : t.index < h.tables.fresh
  · rw [read, slot?, table_setTable_self hlt, Table.find?_insertNew hf, if_pos rfl] at hr
    cases hr
  · have hle := Nat.le_of_not_lt hlt
    have hset : (h.setTable t ((h.table t).insertNew l (.value .null))).table t = h.table t := by
      rw [Heap.table, Heap.table, setTable, Store.get?_of_fresh_le hle,
        Store.get?_of_fresh_le (by rwa [Store.fresh_set])]
    rw [read, slot?, hset, hf] at hr
    cases hr

/-- Null refers to no cell, and neither does what a cell holds that is not there. -/
private theorem through_write_null (hs : h.slot? e = some s) :
    (h.write e .null).through e = [] := by
  refine through_of_ne fun c hr ↦ ?_
  have hf : (h.table e.table).find? e.key = some s := hs
  rw [write, hs] at hr
  cases s with
  | value u =>
    have hlt := Store.lt_fresh_of_get? (get?_of_find? hf)
    dsimp only at hr
    rw [read, slot?, table_setTable_self hlt, Table.find?_put, if_pos rfl, hf] at hr
    cases hr
  | binding d =>
    have hslot : (h.setCell d .null).slot? e = some (.binding d) := hs
    rw [read, hslot] at hr
    dsimp only at hr
    by_cases hlt : d.index < h.cells.fresh
    · rw [cell_setCell_self hlt] at hr
      cases hr
    · have hle : (h.cells.set d.index .null).fresh ≤ d.index := by
        rw [Store.fresh_set]
        exact Nat.le_of_not_lt hlt
      rw [cell, setCell, Store.get?_of_fresh_le hle] at hr
      cases hr

/-- **A key that is made ready refers to the cell that it referred to.** -/
theorem through_materialize (h : Heap) (t : TableId) (l : Label) :
    (h.materialize t l).through ⟨t, l.key⟩ = h.through ⟨t, l.key⟩ := by
  rw [materialize]
  cases hf : (h.table t).find? l.key with
  | none =>
    refine (through_insertNew_null hf).trans (through_of_ne fun c hr ↦ ?_).symm
    rw [read, slot?, hf] at hr
    cases hr
  | some s =>
    have hs : h.slot? ⟨t, l.key⟩ = some s := hf
    dsimp only
    split
    next hu =>
      refine (through_write_null hs).trans (through_of_ne fun c hr ↦ ?_).symm
      rw [hu] at hr
      cases hr
    · rfl

theorem store?_eq (h : Heap) (lent : List CellId) (t : TableId) (l : Label) (v : Value) :
    h.store? lent t l v = unlessLent lent
      ((h.binding? ⟨t, l.key⟩).toList ++ h.through ⟨t, l.key⟩) (h.store t l v) := by
  rw [store?, store]
  cases hf : (h.table t).find? l.key with
  | none =>
    have hs : h.slot? ⟨t, l.key⟩ = none := hf
    rw [binding?, through, read, hs]
    exact (unlessLent_nil lent _).symm
  | some s =>
    have hs : h.slot? ⟨t, l.key⟩ = some s := hf
    have hload := load?_eq h lent hs
    have hready := materialize?_eq h lent t l
    have hassign := replace?_eq (h.materialize t l) lent ⟨t, l.key⟩ v
    rw [through_materialize] at hassign
    dsimp only
    rw [Slot.isVacant_eq]
    have hlast : ((h.materialize t l).replace? lent ⟨t, l.key⟩ v >>= fun r ↦
        pure (r.1, (s.load h.cell).map fun _ ↦ r.2)) = unlessLent lent (h.through ⟨t, l.key⟩)
          (((h.materialize t l).replace ⟨t, l.key⟩ v).1,
            if (s.load h.cell).isNone = true then none
            else some ((h.materialize t l).replace ⟨t, l.key⟩ v).2) := by
      refine bind_unlessLent_some hassign ?_
      cases s.load h.cell <;> rfl
    refine (bind_unlessLent hload (bind_unlessLent hready hlast)).trans
      (unlessLent_congr fun c ↦ ?_)
    simp only [List.mem_append, or_self_left]

end Heap

namespace Workspace

variable {w : Workspace} {lent : List CellId} {p : Place} {operands : List Value} {l : Label}
  {s : String} {v : Value}

/-! ### Arrays -/

/-- The cells that are read to copy a table: those of its bindings, of which a copy has none. -/
def copiedCells (t : Table) : List CellId :=
  if t.bindings = 0 then []
  else t.entries.filterMap fun e ↦
    match e.slot with
    | .value _ => none
    | .binding c => some c

/-- Makes the place the only holder of its table, unless the table is copied and a cell of it is
lent. -/
def separate? (w : Workspace) (lent : List CellId) (p : Place) (operands : List Value) :
    Option (Workspace × TableId) :=
  if w.isShared (w.tableAt p) operands then
    unlessLent lent (copiedCells (w.heap.table (w.tableAt p))) (w.separate p operands)
  else some (w, w.tableAt p)

/-- Makes the element under a key ready for writing, unless it comes to a lent cell. -/
def openElement? (w : Workspace) (lent : List CellId) (p : Place) (l : Label)
    (operands : List Value) : Option (Workspace × Element) := do
  let (w, t) ← w.separate? lent p operands
  return ({ w with heap := ← w.heap.materialize? lent t l.normalize }, ⟨t, l.normalize.key⟩)

/-- Assigns to a key, unless it comes to a lent cell. -/
def storeKey? (w : Workspace) (lent : List CellId) (p : Place) (l : Label) (v : Value)
    (operands : List Value) : Option (Workspace × Option Value) := do
  let (w, t) ← w.separate? lent p operands
  let (heap, old) ← w.heap.store? lent t l.normalize v
  return ({ w with heap }, old)

/-- Takes a key out, unless it comes to a lent cell. -/
def unsetKey? (w : Workspace) (lent : List CellId) (p : Place) (k : Key) :
    Option (Workspace × Bool) :=
  if (w.heap.table (w.tableAt p)).stores k.normalize then do
    let (w, t) ← w.separate? lent p []
    return ({ w with heap := w.heap.setTable t ((w.heap.table t).remove k.normalize) }, true)
  else some (w, false)

/-- Assigns to an element, unless it comes to a lent cell. -/
def assign? (w : Workspace) (lent : List CellId) (e : Element) (v : Value) : Option Workspace := do
  return { w with heap := (← w.heap.replace? lent e v).1 }

/-- Adds null under the next free key, unless it comes to a lent cell. -/
def append? (w : Workspace) (lent : List CellId) (p : Place) (operands : List Value) :
    Option (Workspace × Except ValueError Element) :=
  let table := w.heap.table (w.tableAt p)
  match table.nextFree with
  | none => some (w, .error .slotOccupied)
  | some n =>
    if table.stores (.int n) then some (w, .error .slotOccupied)
    else do
      let (w, t) ← w.separate? lent p operands
      let added := (w.heap.table t).insertNew (Label.int n) (.value .null)
      return ({ w with heap := w.heap.setTable t added }, .ok ⟨t, .int n⟩)

/-- Appends a value, unless it comes to a lent cell. -/
def push? (w : Workspace) (lent : List CellId) (p : Place) (v : Value) :
    Option (Workspace × Except ValueError Int64) := do
  let next := (w.heap.table (w.tableAt p)).nextFree
  match ← w.append? lent p [v] with
  | (w, .error e) => return (w, .error e)
  | (w, .ok e) => return (← w.assign? lent e v, .ok (next.getD 0))

/-! ### Tables of variables -/

/-- Binds a name to a cell, unless it comes to a lent cell. The cell that is bound is not looked at.
-/
def bindKey? (w : Workspace) (lent : List CellId) (s : String) (l : Label) (c : CellId) :
    Option Workspace := do
  let (w, t) ← w.separate? lent (.symbols s) []
  return { w with heap := w.heap.bind t l.normalize c }

/-- Binds a name to the cell that it is declared with, unless it comes to a lent cell. -/
def declare? (w : Workspace) (lent : List CellId) (s : String) (l : Label) : Option Workspace :=
  match (w.heap.table (w.tableAt (.symbols s))).find? l.key with
  | some (.binding _) => some w
  | some (.value v) =>
    bindKey? { w with heap := (w.heap.newCell v).1 } lent s l (w.heap.newCell v).2
  | none =>
    bindKey? { w with heap := (w.heap.newCell .undefined).1 } lent s l (w.heap.newCell .undefined).2

/-- Deletes a variable, unless it comes to a lent cell. -/
def unsetSymbolKey? (w : Workspace) (lent : List CellId) (s : String) (k : Key) :
    Option Workspace :=
  match (w.heap.table (w.tableAt (.symbols s))).find? k.normalize with
  | none => some w
  | some (.value _) => do return (← w.unsetKey? lent (.symbols s) k).1
  | some (.binding c) => do
    if (← w.heap.cell? lent c) = .undefined then return w
    else return { w with heap := ← w.heap.setCell? lent c .undefined }

/-! ### The cells that an operation comes to -/

theorem assign?_eq (w : Workspace) (lent : List CellId) (e : Element) (v : Value) :
    w.assign? lent e v = unlessLent lent (w.heap.through e) (w.assign e v) :=
  bind_unlessLent_some (w.heap.replace?_eq lent e v) rfl

section Valid

variable (hv : w.Valid) (hops : ∀ v ∈ operands, w.heap.Admits v)

include hv hops in
/-- **A separation comes to no cell**: a table that is copied has no bindings. -/
theorem separate?_eq (lent : List CellId) (p : Place) :
    w.separate? lent p operands = some (w.separate p operands) := by
  rw [separate?]
  cases hs : w.isShared (w.tableAt p) operands with
  | false =>
    rw [separate_of_not_isShared hs]
    rfl
  | true =>
    have hb := (hv.sound_of_isShared hops hs).bindings_eq_zero
    rw [if_pos rfl, copiedCells, if_pos hb, unlessLent_nil]

include hv hops in
theorem binding?_separate (p : Place) (k : Key) :
    (w.separate p operands).1.heap.binding? ⟨(w.separate p operands).2, k⟩ =
      w.heap.binding? ⟨w.tableAt p, k⟩ := by
  rw [Heap.binding?, Heap.slot?, table_separate hv p hops]
  rfl

include hv hops in
/-- A bound element is in a table that is not copied. -/
theorem through_separate (p : Place) (k : Key) :
    (w.separate p operands).1.heap.through ⟨(w.separate p operands).2, k⟩ =
      w.heap.through ⟨w.tableAt p, k⟩ := by
  have hread : (w.separate p operands).1.heap.read ⟨(w.separate p operands).2, k⟩ =
      w.heap.read ⟨w.tableAt p, k⟩ := by
    rw [Heap.read, Heap.read, Heap.slot?, Heap.slot?, table_separate hv p hops]
    cases hf : (w.heap.table (w.tableAt p)).find? k with
    | none => rfl
    | some s =>
      cases s with
      | value u => rfl
      | binding c =>
        have hs := hv.isShared_eq_false hops (hv.bindings_ne_zero (e := ⟨w.tableAt p, k⟩) hf)
        rw [separate_of_not_isShared hs]
  rw [Heap.through, Heap.through, hread, binding?_separate hv hops]

include hv hops in
theorem openElement?_eq (lent : List CellId) (p : Place) (l : Label) :
    w.openElement? lent p l operands =
      unlessLent lent (w.heap.binding? ⟨w.tableAt p, l.normalize.key⟩).toList
        (w.openElement p l operands) := by
  rw [openElement?, separate?_eq hv hops, ← binding?_separate hv hops, Option.bind_eq_bind,
    Option.bind_some]
  exact bind_unlessLent_some (Heap.materialize?_eq _ lent _ _) rfl

include hv hops in
theorem storeKey?_eq (lent : List CellId) (p : Place) (l : Label) (v : Value) :
    w.storeKey? lent p l v operands =
      unlessLent lent ((w.heap.binding? ⟨w.tableAt p, l.normalize.key⟩).toList ++
        w.heap.through ⟨w.tableAt p, l.normalize.key⟩) (w.storeKey p l v operands) := by
  rw [storeKey?, separate?_eq hv hops, ← binding?_separate hv hops, ← through_separate hv hops,
    Option.bind_eq_bind, Option.bind_some]
  exact bind_unlessLent_some (Heap.store?_eq _ lent _ _ v) rfl

include hv in
theorem unsetKey?_eq (lent : List CellId) (p : Place) (k : Key) :
    w.unsetKey? lent p k = some (w.unsetKey p k) := by
  rw [unsetKey?, unsetKey, separate?_eq hv Heap.admits_of_mem_nil]
  split <;> rfl

include hv hops in
theorem append?_eq (lent : List CellId) (p : Place) :
    w.append? lent p operands = some (w.append p operands) := by
  rw [append?, append, separate?_eq hv hops]
  cases (w.heap.table (w.tableAt p)).nextFree with
  | none => rfl
  | some n =>
    dsimp only
    split <;> rfl

include hv in
theorem push?_eq (lent : List CellId) (p : Place) (hadm : w.heap.Admits v) :
    w.push? lent p v = some (w.push p v) := by
  have hops := hadm.of_mem_singleton
  rw [push?, push, append?_eq hv hops, Option.bind_eq_bind, Option.bind_some]
  rcases w.append_cases p [v] with he | ⟨n, hf, he⟩
  · rw [he]
    rfl
  · rw [← table_separate hv p hops] at hf
    rw [he, ← unlessLent_nil lent]
    refine bind_unlessLent_some ?_ rfl
    rw [assign?_eq]
    exact congrArg (unlessLent lent · _) (Heap.through_insertNew_null (l := Label.int n) hf)

include hv in
theorem bindKey?_eq (lent : List CellId) (l : Label) (c : CellId) :
    w.bindKey? lent s l c = some (w.bindKey s l c) := by
  rw [bindKey?, bindKey, separate?_eq hv Heap.admits_of_mem_nil]
  rfl

include hv in
theorem declare?_eq (lent : List CellId) {k : KeySource} (hl : w.symbolLabel s k = .ok l) :
    w.declare? lent s l = some (w.declareSymbol s k).1 := by
  have hnew : ∀ v, w.heap.Admits v → w.Quietly { w with heap := (w.heap.newCell v).1 } :=
    fun _ hadm ↦ quietly_heap (.of_quiet (.newCell hadm))
  rw [declare?, declareSymbol, hl]
  dsimp only
  cases hf : (w.heap.table (w.tableAt (.symbols s))).find? l.key with
  | none => exact bindKey?_eq ((hnew _ Heap.admits_undefined).valid hv) lent l _
  | some slot =>
    cases slot with
    | value u => exact bindKey?_eq ((hnew u (hv.heap.admits_value hf)).valid hv) lent l _
    | binding c => rfl

include hv in
theorem unsetSymbolKey?_eq (lent : List CellId) (k : Key) : w.unsetSymbolKey? lent s k =
    unlessLent lent (w.heap.binding? ⟨w.tableAt (.symbols s), k.normalize⟩).toList
      (w.unsetSymbolKey s k) := by
  rw [unsetSymbolKey?, unsetSymbolKey, Heap.binding?, Heap.slot?]
  cases hf : (w.heap.table (w.tableAt (.symbols s))).find? k.normalize with
  | none => exact (unlessLent_nil lent _).symm
  | some slot =>
    cases slot with
    | value u =>
      dsimp only
      rw [unsetKey?_eq hv]
      exact (unlessLent_nil lent _).symm
    | binding c =>
      by_cases hu : w.heap.cell c = .undefined
      · refine bind_unlessLent_some (w.heap.cell?_eq lent c) ?_
        dsimp only
        rw [if_pos hu, if_pos hu]
        rfl
      · refine bind_unlessLent_self (w.heap.cell?_eq lent c) ?_
        dsimp only
        rw [if_neg hu, if_neg hu]
        exact bind_unlessLent_some (w.heap.setCell?_eq lent c .undefined) rfl

end Valid

end Workspace

end SharedValue
