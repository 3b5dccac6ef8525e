import SharedValue.Heap.Store
import SharedValue.Table

/-!
# The heap

The heap holds everything that values share: tables, objects, reference cells and resources,
each under its name, and the number of string buffers made so far. It says what each shared
thing contains; who holds it is a matter of the values around (`SharedValue.Workspace`).

A name that the heap does not know reads as an empty table or an undefined cell, so that reading
is total. Values that are in use never mention such a name.
-/

namespace SharedValue

/-- What an object consists of. Its properties are an array. -/
structure ObjectRecord where
  className : Str
  properties : TableId
  deriving DecidableEq

/-- What a resource consists of: a number given by its owner and the kind of thing it is. -/
structure ResourceRecord where
  handle : Int64
  kind : Str
  deriving DecidableEq

/-- The shared things. -/
structure Heap where
  tables : Store Table
  objects : Store ObjectRecord
  cells : Store Value
  resources : Store ResourceRecord
  /-- How many string buffers were made. -/
  buffers : Nat

namespace Heap

/-- The heap without things. -/
def empty : Heap := ⟨.empty, .empty, .empty, .empty, 0⟩

/-! ### Contents -/

/-- The table under a name. -/
def table (h : Heap) (t : TableId) : Table := (h.tables.get? t.index).getD Table.empty

/-- The content of a cell. -/
def cell (h : Heap) (c : CellId) : Value := (h.cells.get? c.index).getD .undefined

/-- The class name of an object. -/
def className (h : Heap) (o : ObjectId) : Str :=
  ((h.objects.get? o.index).map (·.className)).getD Str.empty

/-- The property table of an object. -/
def properties (h : Heap) (o : ObjectId) : TableId :=
  ((h.objects.get? o.index).map (·.properties)).getD ⟨h.tables.fresh⟩

/-- The number of a resource. -/
def resourceHandle (h : Heap) (r : ResourceId) : Int64 :=
  ((h.resources.get? r.index).map (·.handle)).getD 0

/-- The kind of a resource. -/
def resourceKind (h : Heap) (r : ResourceId) : Str :=
  ((h.resources.get? r.index).map (·.kind)).getD Str.empty

/-! ### New things -/

/-- Adds a table. -/
def newTable (h : Heap) (t : Table) : Heap × TableId :=
  ({ h with tables := h.tables.add t }, ⟨h.tables.fresh⟩)

/-- Adds a cell. -/
def newCell (h : Heap) (v : Value) : Heap × CellId :=
  ({ h with cells := h.cells.add v }, ⟨h.cells.fresh⟩)

/-- Adds an object. -/
def newObject (h : Heap) (className : Str) (properties : TableId) : Heap × ObjectId :=
  ({ h with objects := h.objects.add ⟨className, properties⟩ }, ⟨h.objects.fresh⟩)

/-- Adds a resource. -/
def newResource (h : Heap) (handle : Int64) (kind : Str) : Heap × ResourceId :=
  ({ h with resources := h.resources.add ⟨handle, kind⟩ }, ⟨h.resources.fresh⟩)

/-- Makes a string: in the interned buffer of its content if it is short enough, and otherwise
in a new one. -/
def newStr (h : Heap) (b : Bytes) : Heap × Str :=
  if Str.isInternable b then (h, ⟨b, .interned⟩)
  else ({ h with buffers := h.buffers + 1 }, ⟨b, .own h.buffers⟩)

/-- Adds the table of a list of values. -/
def newList (h : Heap) (vs : List Value) : Heap × TableId := h.newTable (Table.ofList vs)

/-! ### Changes -/

/-- Replaces a table. -/
def setTable (h : Heap) (t : TableId) (table : Table) : Heap :=
  { h with tables := h.tables.set t.index table }

/-- Replaces the content of a cell. -/
def setCell (h : Heap) (c : CellId) (v : Value) : Heap :=
  { h with cells := h.cells.set c.index v }

/-- Gives an object another property table. -/
def setProperties (h : Heap) (o : ObjectId) (t : TableId) : Heap :=
  match h.objects.get? o.index with
  | none => h
  | some record =>
    { h with objects := h.objects.set o.index { record with properties := t } }

/-! ### What a change leaves alone -/

@[simp]
theorem cell_setTable (h : Heap) (t : TableId) (table : Table) (c : CellId) :
    (h.setTable t table).cell c = h.cell c := rfl

@[simp]
theorem table_setCell (h : Heap) (c : CellId) (v : Value) (t : TableId) :
    (h.setCell c v).table t = h.table t := rfl

theorem table_setTable_self {h : Heap} {t : TableId} (ht : t.index < h.tables.fresh)
    (table : Table) : (h.setTable t table).table t = table := by
  simp [Heap.table, setTable, Store.get?_set_self ht]

theorem table_setTable_ne (h : Heap) {t t' : TableId} (ht : t' ≠ t) (table : Table) :
    (h.setTable t table).table t' = h.table t' := by
  have ht : t'.index ≠ t.index := fun e ↦ ht (by cases t; cases t'; simp_all)
  simp [Heap.table, setTable, Store.get?_set_ne _ ht]

theorem cell_setCell_self {h : Heap} {c : CellId} (hc : c.index < h.cells.fresh) (v : Value) :
    (h.setCell c v).cell c = v := by
  simp [cell, setCell, Store.get?_set_self hc]

theorem cell_setCell_ne (h : Heap) {c c' : CellId} (hc : c' ≠ c) (v : Value) :
    (h.setCell c v).cell c' = h.cell c' := by
  have hc : c'.index ≠ c.index := fun e ↦ hc (by cases c; cases c'; simp_all)
  simp [cell, setCell, Store.get?_set_ne _ hc]

/-- A new table is found under its name, and every other table as before. -/
theorem table_newTable (h : Heap) (table : Table) (t : TableId) :
    (h.newTable table).1.table t = if t = (h.newTable table).2 then table else h.table t := by
  obtain ⟨i⟩ := t
  by_cases hi : i = h.tables.fresh <;> simp [hi, Heap.table, newTable, Store.get?_add]

/-! ### Reading arrays -/

/-- The number of elements of an array. -/
def len (h : Heap) (t : TableId) : Nat := (h.table t).len h.cell

/-- Whether an array shows no element. -/
def isEmpty (h : Heap) (t : TableId) : Bool := (h.table t).isEmpty h.cell

/-- The value under a key of an array, which may be spelled in any way. -/
def get? (h : Heap) (t : TableId) (k : Key) : Option Value := (h.table t).get? h.cell k

/-- Whether an array shows a key, which may be spelled in any way. -/
def contains (h : Heap) (t : TableId) (k : Key) : Bool := (h.table t).contains h.cell k

/-- The elements of an array, in order. -/
def pairs (h : Heap) (t : TableId) : List (Key × Value) := (h.table t).pairs h.cell

/-- The values of an array, in order. -/
def values (h : Heap) (t : TableId) : List Value := (h.table t).values h.cell

/-- Whether the keys of an array are `0`, `1`, `2`, ... in order. -/
def isList (h : Heap) (t : TableId) : Bool := (h.table t).isList h.cell

/-- The key that the next appended element gets. -/
def nextIndex (h : Heap) (t : TableId) : Option Int64 := (h.table t).nextFree

/-- Another handle to an array. Without bindings it is the same table; a table with bindings is
copied at once, so that its bindings stay with their owner. -/
def copyArray (h : Heap) (t : TableId) : Heap × TableId :=
  if (h.table t).bindings = 0 then (h, t) else h.newTable ((h.table t).detached h.cell)

/-- A bound on how deep a walk through the heap gets that enters no cell and no object twice.
Between two of them it can only descend from table to table, and no table is below itself. -/
def extent (h : Heap) : Nat :=
  (h.tables.fresh + 1) * (h.objects.fresh + h.cells.fresh + 1) + 1

end Heap

end SharedValue
