import SharedValue.Heap

/-!
# Following references

A reference stands for the content of its cell, which may be a reference again.
`Heap.dereference` follows a chain of cells to the value at its end, through at most `limit`
cells; a longer chain fails, and so does a cycle for every limit. `Heap.coerceKey` turns the
value at the end of a chain into a key, and `KeySource.label` does so for whatever a caller
gives as a key.
-/

namespace SharedValue

/-- The number of cells that are followed where no configuration says otherwise. -/
def defaultReferenceDepth : Nat := 64

namespace Heap

/-- The value at the end of a chain of at most `limit` cells. -/
def chase (h : Heap) : (limit : Nat) → Value → Option Value
  | 0, .reference _ => none
  | limit + 1, .reference c => h.chase limit (h.cell c)
  | _, v => some v

/-- The value that a value stands for, its references followed through at most `limit`
cells. -/
def dereference (h : Heap) (limit : Nat) (v : Value) : Except ValueError Value :=
  match h.chase limit v with
  | some w => .ok w
  | none => .error (.referenceDepth limit)

/-- The key that a value stands for. A string is read as an integer if it spells one, a double
is truncated, a truth value counts as `0` or `1`, and null as the empty text. Arrays and objects
are no keys. -/
def keyOfValue (h : Heap) : Value → Except ValueError Label
  | .string s => .ok (Label.ofStr s).normalize
  | .int n => .ok (Label.int n)
  | .double d => .ok (Label.int d.toInt64)
  | .bool b => .ok (Label.int (if b then 1 else 0))
  | .null | .undefined => .ok (Label.ofStr Str.empty)
  | .resource r => .ok (Label.int (h.resourceHandle r))
  | v => .error (.illegalKey v.kind)

/-- The key that a value stands for once its references are followed. -/
def coerceKey (h : Heap) (limit : Nat) (v : Value) : Except ValueError Label :=
  h.dereference limit v >>= h.keyOfValue

/-- The array that a value converts to: nothing becomes the empty array, an array is shared, an
object gives its properties and any other value becomes the only element of a list. -/
def toArray (h : Heap) (v : Value) : Heap × Except ValueError TableId :=
  match h.dereference defaultReferenceDepth v with
  | .error e => (h, .error e)
  | .ok .undefined | .ok .null =>
    let (h, t) := h.newTable Table.empty
    (h, .ok t)
  | .ok (.array t) => (h, .ok t)
  | .ok (.object o) =>
    let (h, t) := h.copyArray (h.properties o)
    (h, .ok t)
  | .ok v =>
    let (h, t) := h.newList [v]
    (h, .ok t)

end Heap

/-- What a caller gives as a key: a value, whose references are followed, or a key in any
spelling. -/
inductive KeySource
  | value (v : Value)
  | label (l : Label)

/-- The key under which an entry is looked up or stored. Only values can fail to give one. -/
def KeySource.label? (h : Heap) (limit : Nat) : KeySource → Except ValueError Label
  | .value v => h.coerceKey limit v
  | .label l => .ok l.normalize

end SharedValue
