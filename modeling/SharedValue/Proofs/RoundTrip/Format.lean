import SharedValue.Proofs.RoundTrip.Normal

/-!
# Formats

A format writes events as texts and reads texts as events, and how it does so is left open: a
`Format` is any writer and any reader, with a limit on how deep sequences and maps may be nested in
what is read. What is used of a format is assumed by name, event by event and text by text:

* `Format.ReadsBack`: the text of an event is read as the event again, within the limit, as far as a
  text carries it;
* `Format.Presents`: a text is read as one of the few sorts of events that texts present, nested no
  deeper than the limit.

A reader that rounds some decimal fraction to another double than the nearest one does not read back
the events that hold this double, and nothing is said about these. What holds of other events is
said of it all the same.
-/

namespace SharedValue

/-! ### Nesting -/

/-- Whether sequences and maps are nested at most so deep in an event. -/
def Event.NestedTo : (depth : Nat) → Event → Prop
  | 0, .sequence _ => False
  | 0, .map _ => False
  | depth + 1, .sequence items => ∀ e ∈ items, Event.NestedTo depth e
  | depth + 1, .map pairs => ∀ p ∈ pairs, Event.NestedTo depth p.2
  | _, _ => True

/-- Whether an event is one that texts present, with sequences and maps nested at most so deep. -/
def Event.ReadTo : (depth : Nat) → Event → Prop
  | _, .unit => True
  | _, .bool _ => True
  | _, .int _ => True
  | _, .natural _ => True
  | _, .double d => d.isFinite = true
  | _, .text _ => True
  | depth + 1, .sequence items => ∀ e ∈ items, Event.ReadTo depth e
  | depth + 1, .map pairs => ∀ p ∈ pairs, Event.ReadTo depth p.2
  | _, _ => False

/-! ### Integers without a sign -/

mutual

/-- The event with its unsigned integers signed, wherever they fit. A reader that finds no sign may
present the integer as an unsigned one. -/
def Event.signed : Event → Event
  | .natural n =>
    match Decimal.bounded? n.toNat with
    | some k => .int k
    | none => .natural n
  | .sequence items => .sequence (Event.signedItems items)
  | .map pairs => .map (Event.signedPairs pairs)
  | e => e

/-- The items of a sequence with their unsigned integers signed. -/
def Event.signedItems : List Event → List Event
  | [] => []
  | e :: rest => e.signed :: Event.signedItems rest

/-- The pairs of a map with the unsigned integers of their values signed. -/
def Event.signedPairs : List (Event × Event) → List (Event × Event)
  | [] => []
  | (k, e) :: rest => (k, e.signed) :: Event.signedPairs rest

end

mutual

/-- The sign of an integer makes no difference to the tree that the event stands for. -/
theorem Event.tree_signed : (e : Event) → e.signed.tree = e.tree
  | .natural n => by
    rw [signed]
    cases hn : Decimal.bounded? n.toNat <;> simp only [tree, hn]
  | .sequence items => by rw [signed, tree, tree, appendTrees_signedItems items]
  | .map pairs => by rw [signed, tree, tree, assignTrees_signedPairs pairs]
  | .unit | .absent | .present _ | .wrapper _ | .variant | .bool _ | .int _ | .wideInt _
  | .wideNatural _ | .double _ | .char _ | .text _ | .bytes _ => rfl

/-- The items of a sequence with their unsigned integers signed. -/
theorem Event.appendTrees_signedItems :
    (items : List Event) → (ps : Pairs Tree) →
      Event.appendTrees ps (Event.signedItems items) = Event.appendTrees ps items
  | [], _ => rfl
  | e :: rest, ps => by
    rw [signedItems, appendTrees, appendTrees, tree_signed e]
    simp only [appendTrees_signedItems rest]

/-- The pairs of a map with the unsigned integers of their values signed. -/
theorem Event.assignTrees_signedPairs :
    (pairs : List (Event × Event)) → (ps : Pairs Tree) →
      Event.assignTrees ps (Event.signedPairs pairs) = Event.assignTrees ps pairs
  | [], _ => rfl
  | (k, e) :: rest, ps => by
    rw [signedPairs, assignTrees, assignTrees, tree_signed e]
    simp only [assignTrees_signedPairs rest]

end

/-! ### Writers and readers -/

/-- A way to write events as texts and to read texts as events. -/
structure Format where
  /-- The text of an event. -/
  write : Event → String
  /-- The event that a text is read as, if it is well-formed. -/
  read : String → Option Event
  /-- How deep sequences and maps may be nested in a text that is read. -/
  nestingLimit : Nat

namespace Format

variable {F : Format} {e : Event} {S : Tree}

/-- What is assumed of a format about an event: if it is nested at most as deep as the reader
allows, its text is read as the event again, but for a double that is not finite, which is read as
null, and for an integer key, which is read as its decimal text. -/
def ReadsBack (F : Format) (e : Event) : Prop :=
  e.NestedTo F.nestingLimit → ∃ e', F.read (F.write e) = some e' ∧ e'.signed = e.plain.signed

/-- What is assumed of a format about a text: if it is read, then as one of the events that texts
present, and nested at most as deep as the reader allows. -/
def Presents (F : Format) (text : String) : Prop :=
  ∀ e, F.read text = some e → e.ReadTo F.nestingLimit

/-- Whether a text is decoded to a value, and the heap that this leads to. -/
def Decodes (F : Format) (h : Heap) (text : String) (h' : Heap) (v : Value) : Prop :=
  ∃ e, F.read text = some e ∧ h.decode e = (h', .ok v)

/-- What is read where an event was written stands for the same tree as what is carried of it. -/
theorem ReadsBack.exists_read (hback : F.ReadsBack e) (hn : e.NestedTo F.nestingLimit)
    (ht : e.plain.tree = .ok S) : ∃ e', F.read (F.write e) = some e' ∧ e'.tree = .ok S := by
  obtain ⟨e', hread, hsame⟩ := hback hn
  refine ⟨e', hread, ?_⟩
  rw [← e'.tree_signed, hsame, Event.tree_signed, ht]

end Format

end SharedValue
