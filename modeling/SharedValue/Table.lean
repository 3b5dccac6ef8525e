import SharedValue.Key

/-!
# Tables

The storage of an array: entries in the order in which their keys were first stored, with two
facts kept alongside. `nextFree` is the key the next appended element gets, one past the largest
non-negative integer key and `none` once the largest integer is in use. `bindings` counts the
slots that are bound to a cell.

A slot holds a value, or is bound to a cell that something outside the table owns. A bound slot
shows the content of its cell, and while that is undefined the entry is *vacant*: it keeps its
place and its key, but no reading shows it. What a table shows therefore depends on the cells,
and the readings take the contents of all cells as an argument.

* `Table.find?`, `Table.put`, `Table.insertNew`, `Table.remove` work on entries by key;
* `Table.len`, `Table.lookup`, `Table.pairs`, `Table.isList` are what readers see;
* `Table.detached` is what a copy of the table holds.
-/

namespace SharedValue

/-- The storage of one element. -/
inductive Slot
  | value (v : Value)
  /-- An alias of a cell owned elsewhere. -/
  | binding (c : CellId)
  deriving DecidableEq

namespace Slot

/-- Whether the slot is bound to a cell. -/
def isBinding : Slot → Bool
  | .value _ => false
  | .binding _ => true

/-- A bound slot whose cell is undefined. -/
def isVacant (content : CellId → Value) : Slot → Bool
  | .value _ => false
  | .binding c => content c = .undefined

/-- The value that the slot shows, if it shows one; a plain slot that was never written shows
null. -/
def load (content : CellId → Value) : Slot → Option Value
  | .value v => some v.shown
  | .binding c =>
    match content c with
    | .undefined => none
    | v => some v

end Slot

/-- What an iteration hands out for a slot: the value in the slot itself, or a copy of what the slot
shows at that moment. -/
inductive SlotView
  | direct (v : Value)
  | owned (v : Value)

/-- The value of a slot that was handed out. -/
def SlotView.value : SlotView → Value
  | .direct v | .owned v => v

/-- The slot as an iteration hands it out, if it shows something. -/
def Slot.observe (content : CellId → Value) : Slot → Option SlotView
  | .value .undefined => some (.owned .null)
  | .value v => some (.direct v)
  | .binding c =>
    match content c with
    | .undefined => none
    | v => some (.owned v)

/-- One element of a table. -/
structure Entry where
  key : Key
  /-- The buffer of the key's text. -/
  buffer : Buffer
  slot : Slot
  deriving DecidableEq

/-- The key of an entry with its buffer. -/
def Entry.label (e : Entry) : Label := ⟨e.key, e.buffer⟩

/-- The storage of an array. -/
structure Table where
  entries : List Entry
  nextFree : Option Int64
  bindings : Nat
  deriving DecidableEq

/-- One more than an integer, if that is in range. -/
def successor? (n : Int64) : Option Int64 :=
  if n = Int64.maxValue then none else some (n + 1)

namespace Table

/-- The table without entries. -/
def empty : Table := ⟨[], some 0, 0⟩

instance : Inhabited Table := ⟨empty⟩

/-! ### Entries by key -/

/-- The slot stored under a key. -/
def find? (t : Table) (k : Key) : Option Slot :=
  (t.entries.find? fun e ↦ e.key = k).map (·.slot)

/-- Whether a key is stored, shown or not. -/
def stores (t : Table) (k : Key) : Bool :=
  t.entries.any fun e ↦ e.key = k

/-- Replaces the slot under a stored key. The entry keeps its place and the buffer of its
key. -/
def put (t : Table) (k : Key) (s : Slot) : Table :=
  { t with entries := t.entries.map fun e ↦ if e.key = k then { e with slot := s } else e }

/-- The next free key after storing a key. -/
def noteKey (nextFree : Option Int64) : Key → Option Int64
  | .text _ => nextFree
  | .int n =>
    if n < 0 then nextFree
    else
      match nextFree with
      | none => none
      | some next => if next ≤ n then successor? n else some next

/-- Adds an entry at the end, for a key that is not stored. -/
def insertNew (t : Table) (l : Label) (s : Slot) : Table where
  entries := t.entries ++ [⟨l.key, l.buffer, s⟩]
  nextFree := noteKey t.nextFree l.key
  bindings := if s.isBinding then t.bindings + 1 else t.bindings

/-- The next free key of a list of entries, found by looking at every key. -/
def nextFreeOf (entries : List Entry) : Option Int64 :=
  entries.foldl (fun next e ↦ noteKey next e.key) (some 0)

/-- Whether removing a key may lower the next free key: it is the one just below it, or the
largest integer when there is no next free key. -/
def isHighest (nextFree : Option Int64) : Key → Bool
  | .text _ => false
  | .int n =>
    match nextFree with
    | some next => 0 ≤ n && successor? n = some next
    | none => n = Int64.maxValue

/-- Takes the entry of a key out, the others keeping their order. The next free key is found
anew only if the removed key was the highest. -/
def remove (t : Table) (k : Key) : Table :=
  match t.find? k with
  | none => t
  | some s =>
    let entries := t.entries.eraseP fun e ↦ e.key = k
    { entries
      nextFree := if isHighest t.nextFree k then nextFreeOf entries else t.nextFree
      bindings := if s.isBinding then t.bindings - 1 else t.bindings }

theorem find?_eq_none_iff {t : Table} {k : Key} : t.find? k = none ↔ t.stores k = false := by
  simp [find?, stores]

@[simp]
theorem find?_empty (k : Key) : empty.find? k = none := rfl

/-- A new entry is found under its key, and every other key is found as before. -/
theorem find?_insertNew {t : Table} {l : Label} (h : t.find? l.key = none) (s : Slot) (k : Key) :
    (t.insertNew l s).find? k = if k = l.key then some s else t.find? k := by
  simp only [find?, insertNew, List.find?_append, Option.map_or] at h ⊢
  by_cases e : k = l.key
  · subst e
    rw [h]
    simp
  · simp [e, Ne.symm e]

theorem find?_map_replace (entries : List Entry) (k : Key) (s : Slot) (other : Key) :
    ((entries.map fun e ↦ if e.key = k then { e with slot := s } else e).find? fun e ↦
        e.key = other).map (·.slot) =
      if other = k then ((entries.find? fun e ↦ e.key = other).map (·.slot)).map fun _ ↦ s
      else (entries.find? fun e ↦ e.key = other).map (·.slot) := by
  induction entries with
  | nil => simp
  | cons e entries ih =>
    simp only [List.map_cons, List.find?_cons]
    by_cases h : e.key = k <;> by_cases h' : other = k <;> by_cases h'' : e.key = other <;>
      simp_all

/-- A replaced slot is found under its key, and every other key is found as before. -/
theorem find?_put (t : Table) (k : Key) (s : Slot) (other : Key) :
    (t.put k s).find? other = if other = k then (t.find? k).map fun _ ↦ s else t.find? other := by
  have h := find?_map_replace t.entries k s other
  by_cases e : other = k
  · subst e
    simpa [find?, put] using h
  · simpa [find?, put, e] using h

/-- Replacing a slot leaves the keys and their order alone. -/
@[simp]
theorem map_key_put (t : Table) (k : Key) (s : Slot) :
    (t.put k s).entries.map (·.key) = t.entries.map (·.key) := by
  simp only [put, List.map_map]
  refine List.map_congr_left fun e _ ↦ ?_
  by_cases h : e.key = k <;> simp [h]

/-! ### What readers see -/

/-- The number of elements shown. Without bindings every entry is shown. -/
def len (t : Table) (content : CellId → Value) : Nat :=
  if t.bindings = 0 then t.entries.length
  else t.entries.countP fun e ↦ !e.slot.isVacant content

/-- Whether no element is shown. -/
def isEmpty (t : Table) (content : CellId → Value) : Bool := t.len content = 0

/-- The slot that readers find under a key. -/
def lookup (t : Table) (content : CellId → Value) (k : Key) : Option Slot :=
  (t.find? k).filter fun s ↦ !s.isVacant content

/-- The value that readers find under a key, which may be spelled in any way. -/
def get? (t : Table) (content : CellId → Value) (k : Key) : Option Value :=
  (t.lookup content k.normalize).bind (·.load content)

/-- Whether readers find a key, which may be spelled in any way. -/
def contains (t : Table) (content : CellId → Value) (k : Key) : Bool :=
  (t.lookup content k.normalize).isSome

/-- The elements shown, in order, with the labels of their keys. -/
def labelled (t : Table) (content : CellId → Value) : List (Label × Value) :=
  t.entries.filterMap fun e ↦ (e.slot.load content).map (e.label, ·)

/-- The elements shown, in order. -/
def pairs (t : Table) (content : CellId → Value) : List (Key × Value) :=
  (t.labelled content).map fun p ↦ (p.1.key, p.2)

/-- The keys shown, in order. -/
def keys (t : Table) (content : CellId → Value) : List Key :=
  (t.pairs content).map (·.1)

/-- The values shown, in order. -/
def values (t : Table) (content : CellId → Value) : List Value :=
  (t.pairs content).map (·.2)

/-- Whether the keys shown are `0`, `1`, `2`, ... in this order. -/
def isList (t : Table) (content : CellId → Value) : Bool :=
  (t.keys content).zipIdx.all fun (k, i) ↦ k.int?.map Int64.toInt = some (i : Int)

/-! ### Iteration -/

/-- One step of an iteration that has the given entries still before it: the next one that is
shown when it is reached, with what it shows at that moment, and the entries after it. -/
def nextShown (content : CellId → Value) : List Entry → Option ((Key × Value) × List Entry)
  | [] => none
  | e :: rest =>
    match e.slot.observe content with
    | some view => some ((e.key, view.value), rest)
    | none => nextShown content rest

theorem length_lt_of_nextShown {content : CellId → Value} {entries rest : List Entry}
    {shown : Key × Value} (h : nextShown content entries = some (shown, rest)) :
    rest.length < entries.length := by
  induction entries with
  | nil => cases h
  | cons e tail ih =>
    unfold nextShown at h
    split at h
    · obtain ⟨rfl, rfl⟩ := Prod.mk.inj (Option.some.inj h)
      exact Nat.lt_succ_self _
    · exact Nat.lt_succ_of_lt (ih h)

/-- How many elements an iteration that has the given entries still before it has yet to give: the
least number, and the greatest if there is one. -/
def sizeHint (entries : List Entry) : Nat × Option Nat := (0, some entries.length)

/-! ### Copies -/

/-- What a copy holds: a table without bindings as it stands, and otherwise the values in their
place. A bound slot gives the content of its cell, vacant entries are left out, and the next
free key is found anew if there were any. -/
def detached (t : Table) (content : CellId → Value) : Table :=
  if t.bindings = 0 then t
  else
    let entries := t.entries.filterMap fun e ↦
      match e.slot with
      | .value _ => some e
      | .binding c =>
        match content c with
        | .undefined => none
        | v => some { e with slot := .value v }
    { entries
      nextFree := if entries.length = t.entries.length then t.nextFree else nextFreeOf entries
      bindings := 0 }

/-- The table of a list: the values under `0`, `1`, `2`, ... -/
def ofList (vs : List Value) : Table :=
  vs.zipIdx.foldl (fun t (v, i) ↦ t.insertNew (Label.int (Int64.ofNat i)) (.value v)) empty

end Table

end SharedValue
