import SharedValue.Event
import SharedValue.Heap.Handle

/-!
# Encoding

A value is encoded as what it shows: nothing as the unit event, scalars as themselves, a string
as its text, a list as a sequence and any other array as a map, an object as its properties and
a reference as the content of its cell. Integer keys of a map stay integers in the event.

A resource has no serialized form. Neither has a cell or an object that is met again inside
itself; the walk carries along the cells and objects it is inside of (`path`), so meeting one
twice side by side is no failure.
-/

namespace SharedValue

/-- Why a value has no serialized form. -/
inductive EncodeError
  /-- A cell lies inside itself. -/
  | recursiveReference
  /-- An object of this class lies inside itself. -/
  | recursiveObject (className : String)
  /-- An array lies inside itself without a cell or an object between, which no operation
  brings about. -/
  | recursiveArray
  /-- A resource with this handle and of this kind was met. -/
  | resource (handle : Int64) (kind : String)
  deriving DecidableEq

/-- The message of a failure. -/
def EncodeError.message : EncodeError → String
  | .recursiveReference => "recursion detected in reference"
  | .recursiveObject name => "recursion detected in object of class " ++ name
  | .recursiveArray => "recursion detected in array"
  | .resource handle kind =>
    "resource #" ++ toString handle.toInt ++ " of type " ++ kind ++ " cannot be serialized"

/-- The event of a key. -/
def Key.event : Key → Event
  | .int n => .int n
  | .text b => .text b.lossy

namespace Heap

/-- The event of an array, given a way to encode its values. -/
def encodeElements (h : Heap) (t : TableId) (encode : Value → Except EncodeError Event) :
    Except EncodeError Event :=
  if h.isList t then return .sequence (← (h.values t).mapM encode)
  else return .map (← (h.pairs t).mapM fun p ↦ return (p.1.event, ← encode p.2))

/-- The event of a value inside the cells and objects of `path`. A walk that goes `depth` levels
down is cut there. -/
def encodeWithin (h : Heap) : (depth : Nat) → (path : List Handle) → Value →
    Except EncodeError Event
  | _, _, .undefined => .ok .unit
  | _, _, .null => .ok .unit
  | _, _, .bool b => .ok (.bool b)
  | _, _, .int n => .ok (.int n)
  | _, _, .double d => .ok (.double d)
  | _, _, .string s => .ok (.text s.text)
  | _, _, .resource r => .error (.resource (h.resourceHandle r) (h.resourceKind r).text)
  | 0, _, .array _ | 0, _, .object _ | 0, _, .reference _ => .error .recursiveArray
  | depth + 1, path, .array t => h.encodeElements t (h.encodeWithin depth path)
  | depth + 1, path, .object o =>
    if .object o ∈ path then .error (.recursiveObject (h.className o).text)
    else h.encodeElements (h.properties o) (h.encodeWithin depth (.object o :: path))
  | depth + 1, path, .reference c =>
    if .cell c ∈ path then .error .recursiveReference
    else h.encodeWithin depth (.cell c :: path) (h.cell c)

/-- The event of a value. -/
def encode (h : Heap) (v : Value) : Except EncodeError Event := h.encodeWithin h.extent [] v

end Heap

end SharedValue
