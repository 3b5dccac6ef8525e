import SharedValue.Workspace

/-!
# Arrays

The operations on the array at a place. Readings look at the table as it is. Every writing
operation separates the place first and then changes the table that the place alone holds, and
it does so only once nothing can fail any more: a key that cannot be coerced, or a key space
that is exhausted, leaves the workspace as it was.

Keys are normalized on the way in, so the operations accept them in any spelling.

* `Workspace.openElement`, `Workspace.append` make an element ready for writing and give it
  back; `Workspace.assign`, `Workspace.replace` and `Workspace.overwrite` write to it;
* `Workspace.insertKey`, `Workspace.push`, `Workspace.extend` write in one go;
* `Workspace.unsetKey`, `Workspace.clear` take elements out;
* `Workspace.newFromPairs`, `Workspace.collect` build arrays;
* the forms without `Key` in their name first coerce what the caller gives as a key.
-/

namespace SharedValue.Workspace

/-! ### Reading -/

/-- The value under a key, where the key may fail to be one. -/
def get (w : Workspace) (p : Place) (k : KeySource) : Except ValueError (Option Value) := do
  let l ← k.label? w.heap defaultReferenceDepth
  return w.heap.get? (w.tableAt p) l.key

/-- Whether a key is shown, where the key may fail to be one. -/
def contains (w : Workspace) (p : Place) (k : KeySource) : Except ValueError Bool := do
  let l ← k.label? w.heap defaultReferenceDepth
  return w.heap.contains (w.tableAt p) l.key

/-! ### Elements -/

/-- Makes the element under a key ready for writing: an absent one is added with null, and one
that holds nothing becomes null. -/
def openElement (w : Workspace) (p : Place) (l : Label) (operands : List Value) :
    Workspace × Element :=
  let (w, t) := w.separate p operands
  ({ w with heap := w.heap.materialize t l.normalize }, ⟨t, l.normalize.key⟩)

/-- Adds null under the next free key. Fails if there is none, or if it is taken. -/
def append (w : Workspace) (p : Place) (operands : List Value) :
    Workspace × Except ValueError Element :=
  let table := w.heap.table (w.tableAt p)
  match table.nextFree with
  | none => (w, .error .slotOccupied)
  | some n =>
    if table.stores (.int n) then (w, .error .slotOccupied)
    else
      let (w, t) := w.separate p operands
      let added := (w.heap.table t).insertNew (Label.int n) (.value .null)
      ({ w with heap := w.heap.setTable t added }, .ok ⟨t, .int n⟩)

/-- Assigns to an element, through a reference if it holds one, and gives what was
overwritten. -/
def replace (w : Workspace) (e : Element) (v : Value) : Workspace × Value :=
  let (heap, old) := w.heap.replace e v
  ({ w with heap }, old)

/-- Assigns to an element, through a reference if it holds one. -/
def assign (w : Workspace) (e : Element) (v : Value) : Workspace := (w.replace e v).1

/-- Puts a value into an element, in place of a reference if it holds one. -/
def overwrite (w : Workspace) (e : Element) (v : Value) : Workspace :=
  { w with heap := w.heap.write e v }

/-! ### Writing to keys -/

/-- Assigns to a key while the operands are held, and gives the value that readers saw there. -/
def storeKey (w : Workspace) (p : Place) (l : Label) (v : Value) (operands : List Value) :
    Workspace × Option Value :=
  let (w, t) := w.separate p operands
  let (heap, old) := w.heap.store t l.normalize v
  ({ w with heap }, old)

/-- Assigns to a key and gives the value that readers saw there. -/
def insertKey (w : Workspace) (p : Place) (l : Label) (v : Value) : Workspace × Option Value :=
  w.storeKey p l v [v]

/-- Assigns to a key, where the key may fail to be one. -/
def insert (w : Workspace) (p : Place) (k : KeySource) (v : Value) :
    Workspace × Except ValueError (Option Value) :=
  match k.label? w.heap defaultReferenceDepth with
  | .error e => (w, .error e)
  | .ok l =>
    let (w, old) := w.insertKey p l v
    (w, .ok old)

/-- Appends a value and gives the key it got. -/
def push (w : Workspace) (p : Place) (v : Value) : Workspace × Except ValueError Int64 :=
  let next := (w.heap.table (w.tableAt p)).nextFree
  match w.append p [v] with
  | (w, .error e) => (w, .error e)
  | (w, .ok e) => (w.assign e v, .ok (next.getD 0))

/-- Makes the element under a key ready for writing, where the key may fail to be one. -/
def openAt (w : Workspace) (p : Place) (k : KeySource) : Workspace × Except ValueError Element :=
  match k.label? w.heap defaultReferenceDepth with
  | .error e => (w, .error e)
  | .ok l =>
    let (w, e) := w.openElement p l []
    (w, .ok e)

/-- Takes a key out and tells whether it was stored. Where it was not, nothing is separated. -/
def unsetKey (w : Workspace) (p : Place) (k : Key) : Workspace × Bool :=
  if (w.heap.table (w.tableAt p)).stores k.normalize then
    let (w, t) := w.separate p []
    ({ w with heap := w.heap.setTable t ((w.heap.table t).remove k.normalize) }, true)
  else (w, false)

/-- Takes a key out if it is stored, where the key may fail to be one. -/
def unset (w : Workspace) (p : Place) (k : KeySource) : Workspace × Except ValueError Unit :=
  match k.label? w.heap defaultReferenceDepth with
  | .error e => (w, .error e)
  | .ok l => ((w.unsetKey p l.key).1, .ok ())

/-- Gives the place a new empty array; other holders keep the old one. -/
def clear (w : Workspace) (p : Place) : Workspace :=
  let (heap, t) := w.heap.newTable Table.empty
  { w with heap }.putAt p (.array t)

/-- Assigns to keys in turn. Values that are still to come are held meanwhile. -/
def extend (w : Workspace) (p : Place) : List (Label × Value) → Workspace
  | [] => w
  | (l, v) :: rest => (w.storeKey p l v (v :: rest.map (·.2))).1.extend p rest

/-! ### Building -/

/-- A new array of the pairs, assigned in turn. -/
def collect (w : Workspace) (pairs : List (Label × Value)) : Workspace × TableId :=
  let (heap, t) := w.heap.newTable Table.empty
  ({ w with heap := heap.storeAll t pairs }, t)

/-- Assigns pairs to an array in the making. Each key is coerced when its turn comes, so what
went before a key that fails has been done. -/
def assignPairs (w : Workspace) (t : TableId) :
    List (KeySource × Value) → Workspace × Except ValueError Unit
  | [] => (w, .ok ())
  | (k, v) :: rest =>
    match k.label? w.heap defaultReferenceDepth with
    | .error e => (w, .error e)
    | .ok l => { w with heap := (w.heap.store t l.normalize v).1 }.assignPairs t rest

/-- A new array of pairs whose keys may fail to be keys. -/
def newFromPairs (w : Workspace) (pairs : List (KeySource × Value)) :
    Workspace × Except ValueError TableId :=
  let (heap, t) := w.heap.newTable Table.empty
  match { w with heap }.assignPairs t pairs with
  | (w, .ok ()) => (w, .ok t)
  | (w, .error e) => (w, .error e)

end SharedValue.Workspace
