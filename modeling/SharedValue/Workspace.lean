import SharedValue.Config
import SharedValue.Heap.Dereference
import SharedValue.Heap.Element
import SharedValue.Heap.Handle
import SharedValue.Registry

/-!
# Workspaces

A workspace is a heap together with everything that keeps things in it alive: named registers,
named tables of variables, and the values that a running command holds without having put them
anywhere.

A `Place` is somewhere a value can be: a register, the array behind a table of variables, an
element of a table, the content of a cell, or the property array of an object. Writing to the
array at a place goes through `Workspace.separate`, which is where arrays are copied: if the
table has a holder besides the place, the place gets a copy of its own first. The values that an
operation is about to store are holders too, though nothing in the workspace mentions them yet,
so they are given to `separate` as operands.
-/

namespace SharedValue

/-- A table of variables: an array whose entries may be bound to cells, and its settings. -/
structure SymbolTable where
  table : TableId
  config : Config
  deriving DecidableEq

/-- A heap and what keeps things in it alive. -/
structure Workspace where
  heap : Heap
  registers : Registry Value
  symbolTables : Registry SymbolTable
  /-- Values that a running command holds outside any place. -/
  held : List Value

/-- Somewhere a value can be. -/
inductive Place
  | register (name : String)
  /-- The array behind a table of variables. -/
  | symbols (name : String)
  | element (e : Element)
  /-- The content of a cell. -/
  | content (c : CellId)
  /-- The property array of an object. -/
  | properties (o : ObjectId)
  deriving DecidableEq

namespace Workspace

/-- The workspace without anything. -/
def empty : Workspace := ⟨.empty, [], [], []⟩

/-! ### Holders -/

/-- Every mention outside the heap. -/
def roots (w : Workspace) : List Handle :=
  handlesOf (w.registers.map (·.2)) ++ w.symbolTables.map (fun s ↦ .table s.2.table) ++
    handlesOf w.held

/-- How often a thing is mentioned. -/
def holders (w : Workspace) (x : Handle) : Nat := (w.roots ++ w.heap.handles).count x

/-- The number of holders of what a value mentions; `none` for scalars. The table of interned
strings is one more holder of each of them. -/
def refCount? (w : Workspace) (v : Value) : Option Nat :=
  v.handle?.map fun x ↦
    match x with
    | .text s => w.holders x + (if s.isInterned then 1 else 0)
    | _ => w.holders x

/-- Holds values until the running command ends. -/
def hold (w : Workspace) (vs : List Value) : Workspace := { w with held := w.held ++ vs }

/-- Ends a command: what it held is let go, and what nothing mentions any more is released. -/
def settle (w : Workspace) : Workspace :=
  let w := { w with held := [] }
  { w with heap := w.heap.release w.roots }

/-! ### Places -/

/-- The value at a place. -/
def valueAt (w : Workspace) : Place → Value
  | .register name => (w.registers.get? name).getD .undefined
  | .symbols name =>
    match w.symbolTables.get? name with
    | some s => .array s.table
    | none => .undefined
  | .element e => w.heap.read e
  | .content c => w.heap.cell c
  | .properties o => .array (w.heap.properties o)

/-- Puts a value into a place. Arrays behind tables of variables and properties are arrays
always, so any other value leaves them alone. -/
def putAt (w : Workspace) (p : Place) (v : Value) : Workspace :=
  match p, v with
  | .register name, v => { w with registers := w.registers.set name v }
  | .symbols name, .array t =>
    match w.symbolTables.get? name with
    | some s => { w with symbolTables := w.symbolTables.set name { s with table := t } }
    | none => w
  | .element e, v => { w with heap := w.heap.write e v }
  | .content c, v => { w with heap := w.heap.setCell c v }
  | .properties o, .array t => { w with heap := w.heap.setProperties o t }
  | .symbols _, _ | .properties _, _ => w

/-- The table of the array at a place; a place without an array reads as an empty one. -/
def tableAt (w : Workspace) (p : Place) : TableId :=
  match w.valueAt p with
  | .array t => t
  | _ => ⟨w.heap.tables.fresh⟩

/-- The table of the array at a place, or the failure of a place without an array. -/
def expectArrayAt (w : Workspace) (p : Place) : Except ValueError TableId :=
  (w.valueAt p).expectArray

/-! ### Separation -/

/-- Whether the table of the array at a place has another holder, be it one of the operands of
the running operation. -/
def isShared (w : Workspace) (t : TableId) (operands : List Value) : Bool :=
  1 < w.holders (.table t) + (handlesOf operands).count (.table t)

/-- Makes the place the only holder of its table, which is the one to write to: a shared table
is left to its other holders and copied. -/
def separate (w : Workspace) (p : Place) (operands : List Value) : Workspace × TableId :=
  let t := w.tableAt p
  if w.isShared t operands then
    let (heap, new) := w.heap.newTable ((w.heap.table t).detached w.heap.cell)
    ({ w with heap }.putAt p (.array new), new)
  else (w, t)

end Workspace

end SharedValue
