import SharedValue.Array

/-!
# Tables of variables

A table of variables maps names to values. Some entries are bound to a cell that a running
frame owns, so that the frame and the table share one variable. The binding is what has to last:
assignment writes through it, and deleting the name empties the cell and leaves the binding in
place, where a later write by the frame makes the name visible again.

The operations work on the table with a given name in the workspace. A name is coerced like any
key, its references followed as far as the table's settings allow.
-/

namespace SharedValue.Workspace

/-- The settings of a table of variables. -/
def configOf (w : Workspace) (s : String) : Config :=
  ((w.symbolTables.get? s).map (·.config)).getD {}

/-- Makes a table of variables without entries, in place of one of the same name. -/
def newSymbolTable (w : Workspace) (s : String) (config : Config) : Workspace :=
  let (heap, table) := w.heap.newTable Table.empty
  { w with heap, symbolTables := w.symbolTables.set s ⟨table, config⟩ }

/-- The key that a variable's name stands for. -/
def symbolLabel (w : Workspace) (s : String) (k : KeySource) : Except ValueError Label :=
  k.label? w.heap (w.configOf s).maxReferenceDepth

/-- Binds a name to a cell. -/
def bindKey (w : Workspace) (s : String) (l : Label) (c : CellId) : Workspace :=
  let (w, t) := w.separate (.symbols s) []
  { w with heap := w.heap.bind t l.normalize c }

/-- The cell of a variable. A name that is bound already gives its cell; otherwise a new cell
is bound to it, with the value that the name had, or undefined if it had none. -/
def declareSymbol (w : Workspace) (s : String) (k : KeySource) :
    Workspace × Except ValueError CellId :=
  match w.symbolLabel s k with
  | .error e => (w, .error e)
  | .ok l =>
    match (w.heap.table (w.tableAt (.symbols s))).find? l.key with
    | some (.binding c) => (w, .ok c)
    | some (.value v) =>
      let (heap, c) := w.heap.newCell v
      ({ w with heap }.bindKey s l c, .ok c)
    | none =>
      let (heap, c) := w.heap.newCell .undefined
      ({ w with heap }.bindKey s l c, .ok c)

/-- Binds a name to a cell that a frame owns. -/
def bindSymbol (w : Workspace) (s : String) (k : KeySource) (c : CellId) :
    Workspace × Except ValueError Unit :=
  match w.symbolLabel s k with
  | .error e => (w, .error e)
  | .ok l => (w.bindKey s l c, .ok ())

/-- The value of a variable, its references followed as far as the settings allow. -/
def getSymbol (w : Workspace) (s : String) (k : KeySource) : Except ValueError (Option Value) :=
  do
    let l ← w.symbolLabel s k
    match w.heap.get? (w.tableAt (.symbols s)) l.key with
    | none => return none
    | some v => return some (← w.heap.dereference (w.configOf s).maxReferenceDepth v)

/-- Makes the element of a variable ready for writing. -/
def openSymbol (w : Workspace) (s : String) (k : KeySource) (operands : List Value) :
    Workspace × Except ValueError Element :=
  match w.symbolLabel s k with
  | .error e => (w, .error e)
  | .ok l =>
    let (w, e) := w.openElement (.symbols s) l operands
    (w, .ok e)

/-- Assigns to a variable. -/
def setSymbol (w : Workspace) (s : String) (k : KeySource) (v : Value) :
    Workspace × Except ValueError Unit :=
  match w.openSymbol s k [v] with
  | (w, .error e) => (w, .error e)
  | (w, .ok e) => (w.assign e v, .ok ())

/-- Whether a variable is visible. -/
def containsSymbol (w : Workspace) (s : String) (k : KeySource) : Except ValueError Bool := do
  let l ← w.symbolLabel s k
  return w.heap.contains (w.tableAt (.symbols s)) l.key

/-- Deletes a variable: a binding stays and its cell is emptied, any other entry is taken out. -/
def unsetSymbolKey (w : Workspace) (s : String) (k : Key) : Workspace :=
  match (w.heap.table (w.tableAt (.symbols s))).find? k.normalize with
  | none => w
  | some (.value _) => (w.unsetKey (.symbols s) k).1
  | some (.binding c) =>
    if w.heap.cell c = .undefined then w else { w with heap := w.heap.setCell c .undefined }

/-- Deletes a variable, where the name may fail to be a key. -/
def unsetSymbol (w : Workspace) (s : String) (k : KeySource) :
    Workspace × Except ValueError Unit :=
  match w.symbolLabel s k with
  | .error e => (w, .error e)
  | .ok l => (w.unsetSymbolKey s l.key, .ok ())

/-- A copy of the array behind a table of variables, with the values of its bindings. -/
def copySymbols (w : Workspace) (s : String) : Workspace × TableId :=
  let (heap, t) := w.heap.copyArray (w.tableAt (.symbols s))
  ({ w with heap }, t)

/-- A new array of the variables that are visible. -/
def snapshotSymbols (w : Workspace) (s : String) : Workspace × TableId :=
  let (heap, t) := w.heap.snapshot (w.tableAt (.symbols s))
  ({ w with heap }, t)

/-! ### Iteration -/

/-- Writes values into cells in turn. -/
def writeCells (w : Workspace) (writes : List (CellId × Value)) : Workspace :=
  { w with heap := writes.foldl (fun h p ↦ h.setCell p.1 p.2) w.heap }

/-- Goes through entries while a frame writes to its cells: each time an entry is reached, the
writes are carried out before the next one is looked for. -/
def iterateWriting (w : Workspace) (writes : List (CellId × Value)) (entries : List Entry) :
    Workspace × List (Key × Value) :=
  match h : Table.nextShown w.heap.cell entries with
  | none => (w, [])
  | some (shown, rest) =>
    have : rest.length < entries.length := Table.length_lt_of_nextShown h
    let (w, more) := (w.writeCells writes).iterateWriting writes rest
    (w, shown :: more)
termination_by entries.length

end SharedValue.Workspace
