import SharedValue.Heap

/-!
# Handles and what holds them

A `Handle` is one mention of a shared thing: of a table, an object, a cell, a resource or the
buffer of a string. `Heap.handles` lists every mention inside the heap, and whoever uses the
heap adds its own. The number of holders of a thing is the number of its mentions in that list;
it is counted where it is asked for and stored nowhere, so it cannot be out of step with the
contents.

`Heap.release` drops the things that nothing mentions, and again those that only the dropped
ones mentioned, until all that is left is mentioned. Things that mention each other in a circle
keep one another.
-/

namespace SharedValue

/-- One mention of a shared thing. -/
inductive Handle
  | table (t : TableId)
  | object (o : ObjectId)
  | cell (c : CellId)
  | resource (r : ResourceId)
  | text (s : Str)
  deriving DecidableEq

/-- The thing that a value mentions. Scalars mention nothing. -/
def Value.handle? : Value → Option Handle
  | .string s => some (.text s)
  | .array t => some (.table t)
  | .object o => some (.object o)
  | .resource r => some (.resource r)
  | .reference c => some (.cell c)
  | _ => none

/-- What a list of values mentions. -/
def handlesOf (vs : List Value) : List Handle := vs.filterMap Value.handle?

/-- What a slot mentions. -/
def Slot.handle? : Slot → Option Handle
  | .value v => v.handle?
  | .binding c => some (.cell c)

/-- What an entry mentions: the buffer of its key if it is a text, and what its slot does. -/
def Entry.handles (e : Entry) : List Handle :=
  (e.label.str?.map Handle.text).toList ++ e.slot.handle?.toList

/-- What a table mentions. -/
def Table.handles (t : Table) : List Handle := t.entries.flatMap Entry.handles

namespace Heap

/-- Every mention inside the heap. -/
def handles (h : Heap) : List Handle :=
  h.tables.toList.flatMap Table.handles ++
    h.objects.toList.flatMap (fun o ↦ [.text o.className, .table o.properties]) ++
    handlesOf h.cells.toList ++
    h.resources.toList.map (fun r ↦ .text r.kind)

/-- Keeps the things that are mentioned in a list. -/
def keepMentioned (h : Heap) (mentions : List Handle) : Heap :=
  { h with
    tables := h.tables.keep fun i ↦ mentions.contains (.table ⟨i⟩)
    objects := h.objects.keep fun i ↦ mentions.contains (.object ⟨i⟩)
    cells := h.cells.keep fun i ↦ mentions.contains (.cell ⟨i⟩)
    resources := h.resources.keep fun i ↦ mentions.contains (.resource ⟨i⟩) }

/-- The number of things that are there. -/
def population (h : Heap) : Nat :=
  h.tables.toList.length + h.objects.toList.length + h.cells.toList.length +
    h.resources.toList.length

/-- Drops what nothing mentions, `rounds` times or until nothing more is dropped. -/
def releaseRounds (roots : List Handle) (h : Heap) : (rounds : Nat) → Heap
  | 0 => h
  | rounds + 1 =>
    let kept := h.keepMentioned (roots ++ h.handles)
    if kept.population = h.population then h else releaseRounds roots kept rounds

/-- Drops what neither the roots nor the heap mention, until all that is left is mentioned. Each
round but the last drops something, so there are at most as many as there are things. -/
def release (h : Heap) (roots : List Handle) : Heap :=
  releaseRounds roots h h.population

end Heap

end SharedValue
