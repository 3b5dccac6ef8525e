import SharedValue.Display
import SharedValue.Symbols

/-!
# Reaching into nested arrays

A command names the array it works on by a register and a path of keys. A register that holds a
cell stands for the cell's content. Reading along a path looks each key up in turn
(`Workspace.followReading`); writing along a path opens an element for each key, which separates
every array on the way (`Workspace.followWriting`), so that in the end the writer alone holds
each of them.

Once an element is open, any number of acts can be carried out on it (`Workspace.perform`).
-/

namespace SharedValue

namespace Workspace

/-! ### Paths -/

/-- The place that a register stands for: the content of the cell it refers to, or itself. -/
def placeOf (w : Workspace) (name : String) : Place :=
  match w.valueAt (.register name) with
  | .reference c => .content c
  | _ => .register name

/-- The array at the end of a path of keys; a key that is not there stands for null, which is
no array. -/
def followReading (w : Workspace) (t : TableId) : List Value → Except ValueError TableId
  | [] => .ok t
  | k :: path => do
    let l ← w.heap.coerceKey defaultReferenceDepth k
    let next ← ((w.heap.get? t l.key).getD .null).expectArray
    w.followReading next path

/-- The array that a register and a path name. -/
def readTarget (w : Workspace) (name : String) (path : List Value) : Except ValueError TableId :=
  do w.followReading (← w.expectArrayAt (w.placeOf name)) path

/-- The place at the end of a path of keys, with an array at every place on the way. -/
def followWriting (w : Workspace) (p : Place) :
    List Value → Workspace × Except ValueError Place
  | [] =>
    match w.expectArrayAt p with
    | .error e => (w, .error e)
    | .ok _ => (w, .ok p)
  | k :: path =>
    match w.expectArrayAt p with
    | .error e => (w, .error e)
    | .ok _ =>
      match w.openAt p (.value k) with
      | (w, .error e) => (w, .error e)
      | (w, .ok e) => w.followWriting (.element e) path

/-- The place of the array that a register and a path name, ready for writing. -/
def writeTarget (w : Workspace) (name : String) (path : List Value) :
    Workspace × Except ValueError Place :=
  w.followWriting (w.placeOf name) path

end Workspace

/-! ### Acts on an open element -/

/-- Something done to an open element. -/
inductive Act
  | read
  | assign (v : Value)
  | replace (v : Value)
  | overwrite (v : Value)
  /-- Asks whether the element is bound to a cell. -/
  | isBound
  /-- Asks for the diagnostic text of what the element holds. -/
  | diagnose
  /-- Appends to the array that the element holds. -/
  | push (v : Value)

/-- What an act gives. -/
inductive Outcome
  | done
  | value (v : Value)
  | flag (b : Bool)
  | text (s : String)
  | index (n : Int64)

namespace Workspace

/-- Carries out an act on an element, while the content of `borrowed` cells is being changed.
A value that the act gives is held. -/
def act (w : Workspace) (e : Element) (borrowed : List CellId) :
    Act → Workspace × Except ValueError Outcome
  | .read =>
    let v := w.heap.read e
    (w.hold [v], .ok (.value v))
  | .assign v => (w.assign e v, .ok .done)
  | .replace v =>
    let (w, old) := w.replace e v
    (w.hold [old], .ok (.value old))
  | .overwrite v => (w.overwrite e v, .ok .done)
  | .isBound => (w, .ok (.flag (w.heap.binding? e).isSome))
  | .diagnose =>
    let own := (w.heap.binding? e).toList
    (w, .ok (.text (w.heap.diagnostic (own ++ borrowed) (w.heap.read e))))
  | .push v =>
    match w.expectArrayAt (.element e) with
    | .error err => (w, .error err)
    | .ok _ =>
      match w.push (.element e) v with
      | (w, .error err) => (w, .error err)
      | (w, .ok n) => (w, .ok (.index n))

/-- Carries out acts on an element in turn, up to the first that fails. -/
def perform (w : Workspace) (e : Element) (borrowed : List CellId) :
    List Act → Workspace × Except ValueError (List Outcome)
  | [] => (w, .ok [])
  | a :: rest =>
    match w.act e borrowed a with
    | (w, .error err) => (w, .error err)
    | (w, .ok o) =>
      match w.perform e borrowed rest with
      | (w, .error err) => (w, .error err)
      | (w, .ok os) => (w, .ok (o :: os))

/-! ### Registers -/

/-- Puts a value into a register. -/
def setRegister (w : Workspace) (name : String) (v : Value) : Workspace :=
  w.putAt (.register name) v

/-- Empties a register and tells whether it was there. -/
def dropRegister (w : Workspace) (name : String) : Workspace × Bool :=
  ({ w with registers := w.registers.erase name }, (w.registers.get? name).isSome)

/-- Wraps a value `count` times by a step that gives the wrapped value. -/
def wrap (step : Heap → Value → Heap × Value) : (count : Nat) → Heap → Value → Heap × Value
  | 0, h, v => (h, v)
  | count + 1, h, v =>
    let (h, v) := step h v
    wrap step count h v

/-- Wraps the value of a register `count` times into a list of one element. -/
def nestInLists (w : Workspace) (name : String) (count : Nat) : Workspace :=
  let (heap, v) := wrap (fun h v ↦ let (h, t) := h.newList [v]; (h, .array t)) count w.heap
    (w.valueAt (.register name))
  { w with heap }.setRegister name v

/-- Wraps the value of a register `count` times into a new cell. -/
def nestInCells (w : Workspace) (name : String) (count : Nat) : Workspace :=
  let (heap, v) := wrap (fun h v ↦ let (h, c) := h.newCell v; (h, .reference c)) count w.heap
    (w.valueAt (.register name))
  { w with heap }.setRegister name v

/-- Replaces the content of a cell and gives the previous one. -/
def setCell (w : Workspace) (c : CellId) (v : Value) : Workspace × Value :=
  ({ w with heap := w.heap.setCell c v }, w.heap.cell c)

/-- The array that a value converts to. -/
def toArray (w : Workspace) (v : Value) : Workspace × Except ValueError TableId :=
  let (heap, t) := w.heap.toArray v
  ({ w with heap }, t)

/-- The property array of an object, shared. -/
def objectProperties (w : Workspace) (o : ObjectId) : Workspace × TableId :=
  let (heap, t) := w.heap.copyArray (w.heap.properties o)
  ({ w with heap }, t)

/-- The diagnostic text of a table of variables. -/
def diagnosticSymbols (w : Workspace) (s : String) : String :=
  "SymbolTable \x7b table: " ++ w.heap.diagnosticTable [] (w.tableAt (.symbols s)) ++
    ", config: " ++ (w.configOf s).diagnostic ++ " \x7d"

end Workspace

end SharedValue
