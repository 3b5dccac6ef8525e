import SharedValue.Heap

/-!
# Elements of a table

An `Element` names one slot: a table and the key stored in it. Reading and writing an element
goes through the slot's binding if it has one, so a bound element *is* the content of its cell.

Three ways of writing are told apart. `Heap.write` replaces what the element holds.
`Heap.replace`, which is what assignment means, first looks at what is there: an element that
holds a reference lets the write through to the referenced cell, unless it is bound to that very
cell, in which case the content is overwritten and the circle is broken. `Heap.store` assigns to
a key whether it is stored or not, and adds an entry at the end if it is not.

Nothing here asks who else holds the table. Callers make sure that they are the only holder, or
have just made the table themselves.
-/

namespace SharedValue

/-- A slot, named by its table and the key under which it is stored. -/
structure Element where
  table : TableId
  key : Key
  deriving DecidableEq

namespace Heap

/-- The slot of an element. -/
def slot? (h : Heap) (e : Element) : Option Slot := (h.table e.table).find? e.key

/-- The cell that an element is bound to. -/
def binding? (h : Heap) (e : Element) : Option CellId :=
  match h.slot? e with
  | some (.binding c) => some c
  | _ => none

theorem binding?_eq_some_iff {h : Heap} {e : Element} {c : CellId} :
    h.binding? e = some c ↔ h.slot? e = some (.binding c) := by
  rw [binding?]
  cases h.slot? e with
  | none => simp
  | some s => cases s <;> simp

/-- What an element holds. -/
def read (h : Heap) (e : Element) : Value :=
  match h.slot? e with
  | some (.value v) => v
  | some (.binding c) => h.cell c
  | none => .undefined

/-- Replaces what an element holds, a reference included. -/
def write (h : Heap) (e : Element) (v : Value) : Heap :=
  match h.slot? e with
  | some (.value _) => h.setTable e.table ((h.table e.table).put e.key (.value v))
  | some (.binding c) => h.setCell c v
  | none => h

/-- Assigns to an element and gives what was overwritten: the content of the cell that the
element refers to, or what the element itself held. -/
def replace (h : Heap) (e : Element) (v : Value) : Heap × Value :=
  match h.read e with
  | .reference c =>
    if h.binding? e = some c then (h.write e v, .reference c) else (h.setCell c v, h.cell c)
  | old => (h.write e v, old)

/-- Makes sure that a key is stored and holds something: an absent one is added with null, and
an element that was never written, or whose binding was emptied, becomes null. -/
def materialize (h : Heap) (t : TableId) (l : Label) : Heap :=
  match (h.table t).find? l.key with
  | none => h.setTable t ((h.table t).insertNew l (.value .null))
  | some _ => if h.read ⟨t, l.key⟩ = .undefined then h.write ⟨t, l.key⟩ .null else h

/-- Assigns to a key. A key that is not stored is added at the end with the value as it is. For
a key that readers saw, gives what was overwritten. -/
def store (h : Heap) (t : TableId) (l : Label) (v : Value) : Heap × Option Value :=
  match (h.table t).find? l.key with
  | none => (h.setTable t ((h.table t).insertNew l (.value v)), none)
  | some s =>
    let (after, old) := (h.materialize t l).replace ⟨t, l.key⟩ v
    (after, if s.isVacant h.cell then none else some old)

/-- Assigns a list of values to keys in turn. -/
def storeAll (h : Heap) (t : TableId) (pairs : List (Label × Value)) : Heap :=
  pairs.foldl (fun h p ↦ (h.store t p.1.normalize p.2).1) h

/-- Binds a key to a cell. A key that is stored keeps its place. -/
def bind (h : Heap) (t : TableId) (l : Label) (c : CellId) : Heap :=
  let table := h.table t
  match table.find? l.key with
  | none => h.setTable t (table.insertNew l (.binding c))
  | some s =>
    let bindings := if s.isBinding then table.bindings else table.bindings + 1
    h.setTable t { table.put l.key (.binding c) with bindings }

/-- A new array with the elements that another one shows. -/
def snapshot (h : Heap) (t : TableId) : Heap × TableId :=
  let shown := (h.table t).labelled h.cell
  let (h, new) := h.newTable Table.empty
  (h.storeAll new shown, new)

end Heap

end SharedValue
