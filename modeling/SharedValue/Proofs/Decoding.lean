import SharedValue.Proofs.RoundTrip.Plain
import SharedValue.Proofs.Table.Latest

/-!
# Decoding is the fold that its input describes

An event is unacceptable if no value corresponds to it, or if it is the key of a map and no text.
`Event.faults` lists what is unacceptable in an event, in the order of the form, and `Event.value`
is the tree of an event in which nothing is: a sequence is the list of the trees of its items, and a
map has its keys where they come first, with the trees that come with them last (`Pairs.latest`).
Both are said with no table that is filled on the way. What an event stands for is the first of its
faults, or its value (`Event.tree_eq`), and decoding gives that.

A sequence of more items than there are keys would run out of keys. No host holds so many, and below
that number appending never fails (`Event.Fits`).
-/

namespace SharedValue

/-! ### Failures in the order of the form -/

/-- What is wrong with an event as a key. -/
def Event.keyFaults (k : Event) : List DecodeError :=
  match k.keyText with
  | .ok _ => []
  | .error err => [err]

mutual

/-- What is unacceptable in an event, in the order of the form. -/
def Event.faults : Event → List DecodeError
  | .unit | .absent | .bool _ | .int _ | .natural _ | .double _ | .char _ | .text _ | .bytes _ => []
  | .present e => e.faults
  | .sequence items => Event.itemFaults 0 items
  | .map pairs => Event.pairFaults pairs
  | .wrapper e => [.invalidType (Event.wrapper e).description .value]
  | .variant => [.invalidType Event.variant.description .value]
  | .wideInt n => [.invalidType (Event.wideInt n).description .value]
  | .wideNatural n => [.invalidType (Event.wideNatural n).description .value]

/-- What is unacceptable in the items of a sequence from a position on. After `2 ^ 63` items there
is no key for another one. -/
def Event.itemFaults (i : Nat) : List Event → List DecodeError
  | [] => []
  | e :: rest =>
    e.faults ++ ((if i < 2 ^ 63 then [] else [.element .slotOccupied]) ++
      Event.itemFaults (i + 1) rest)

/-- What is unacceptable in the pairs of a map. A key comes before its value. -/
def Event.pairFaults : List (Event × Event) → List DecodeError
  | [] => []
  | (k, e) :: rest => k.keyFaults ++ (e.faults ++ Event.pairFaults rest)

end

/-! ### Values -/

/-- The key that an event stands for, if it is a text. -/
def Event.key (k : Event) : Key :=
  match k.keyText with
  | .ok s => .ofBytes (.ofText s)
  | .error _ => .int 0

mutual

/-- The tree of an event in which nothing is unacceptable. -/
def Event.value : Event → Tree
  | .unit | .absent => .null
  | .present e => e.value
  | .bool b => .bool b
  | .int n => .int n
  | .natural n =>
    if n.toNat < 2 ^ 63 then .int (.ofNat n.toNat) else .double (.ofNat n.toNat)
  | .double d => .double d
  | .char c => .string (.ofText c.toString)
  | .text s => .string (.ofText s)
  | .bytes b => .string b
  | .sequence items => .ofList (Event.values items)
  | .map pairs => .array (Pairs.latest (Event.pairValues pairs))
  | .wrapper _ | .variant | .wideInt _ | .wideNatural _ => .null

/-- The trees of the items of a sequence. -/
def Event.values : List Event → List Tree
  | [] => []
  | e :: rest => e.value :: Event.values rest

/-- The pairs of a map with their keys normalized. -/
def Event.pairValues : List (Event × Event) → Pairs Tree
  | [] => []
  | (k, e) :: rest => (k.key, e.value) :: Event.pairValues rest

end

/-- The first of some failures, or a value if there are none. -/
def DecodeError.firstOr {α : Type} (faults : List DecodeError) (a : α) : Except DecodeError α :=
  match faults with
  | [] => .ok a
  | err :: _ => .error err

/-! ### The fold -/

section Fold

variable {Ss : List Tree} {S : Tree}

/-- One more element of a list is under the number of those before it. -/
theorem Tree.pairs_ofList_concat (Ss : List Tree) (S : Tree) :
    (Tree.ofList (Ss ++ [S])).pairs =
      (Tree.ofList Ss).pairs.add (.int (.ofNat Ss.length)) S := by
  simp [Tree.ofList, Tree.pairs, Pairs.add, List.zipIdx_append]

/-- The largest key of a list is one less than its length. -/
theorem largestKey_ofList (hlen : Ss.length ≤ 2 ^ 63) :
    largestKey (Tree.ofList Ss).pairs.keys = (Ss.length : Int) - 1 := by
  induction Ss using List.reverseRecOn with
  | nil => rfl
  | append_singleton Ss S ih =>
    rw [List.length_append, List.length_singleton] at hlen ⊢
    have hto : (Int64.ofNat Ss.length).toInt = Ss.length := Int64.toInt_ofNat_of_lt (by omega)
    have hkeys : (Tree.ofList (Ss ++ [S])).pairs.keys =
        (Tree.ofList Ss).pairs.keys ++ [.int (.ofNat Ss.length)] := by
      rw [Tree.pairs_ofList_concat, Pairs.add, Pairs.keys, List.map_append]
      rfl
    rw [hkeys, largestKey_concat, ih (by omega), hto]
    omega

/-- The next key of a list is its length, as long as this is a key. -/
theorem nextKey_ofList (hlen : Ss.length ≤ 2 ^ 63) : nextKey (Tree.ofList Ss).pairs.keys =
    if Ss.length < 2 ^ 63 then some (.ofNat Ss.length) else none := by
  rw [nextKey, largestKey_ofList hlen, Int64.toInt_maxValue]
  by_cases hlt : Ss.length < 2 ^ 63
  · rw [if_pos hlt, if_neg (by omega), Int.sub_add_cancel]
    rfl
  · rw [if_neg hlt, if_pos (by omega)]

/-- A natural number has a bounded reading if it is in the range of the integers. -/
theorem Decimal.bounded?_natural (n : Nat) : Decimal.bounded? n =
    if n < 2 ^ 63 then some (.ofNat n) else none := by
  rw [bounded?, Int64.toInt_minValue, Int64.toInt_maxValue]
  by_cases hlt : n < 2 ^ 63
  · rw [if_pos hlt, if_pos (by omega)]
    rfl
  · rw [if_neg hlt, if_neg (by omega)]

mutual

/-- **An event stands for the first of its faults, or for its value.** -/
theorem Event.tree_eq : (e : Event) → e.tree = DecodeError.firstOr e.faults e.value
  | .present e => by rw [tree, faults, value, tree_eq e]
  | .natural n => by
    rw [tree, faults, value, Decimal.bounded?_natural]
    by_cases hlt : n.toNat < 2 ^ 63
    · rw [if_pos hlt, if_pos hlt]
      rfl
    · rw [if_neg hlt, if_neg hlt]
      rfl
  | .sequence items => by
    have hitems : appendTrees [] items =
        DecodeError.firstOr (itemFaults 0 items) (Tree.ofList (values items)).pairs :=
      appendTrees_eq [] (Nat.zero_le _) items
    rw [tree, faults, value, hitems]
    cases itemFaults 0 items <;> rfl
  | .map pairs => by
    rw [tree, faults, value, assignTrees_eq, Pairs.assignAll_nil]
    cases pairFaults pairs <;> rfl
  | .unit | .absent | .bool _ | .int _ | .double _ | .char _ | .text _ | .bytes _ | .wrapper _
  | .variant | .wideInt _ | .wideNatural _ => by rw [tree, faults, value]; rfl

/-- Filling a list fails with the first fault of an item, and otherwise has the values of all items
in turn. -/
theorem Event.appendTrees_eq (Ss : List Tree) (hlen : Ss.length ≤ 2 ^ 63) : (items : List Event) →
    Event.appendTrees (Tree.ofList Ss).pairs items =
      DecodeError.firstOr (Event.itemFaults Ss.length items)
        (Tree.ofList (Ss ++ Event.values items)).pairs
  | [] => by rw [appendTrees, itemFaults, values, List.append_nil]; rfl
  | e :: rest => by
    rw [appendTrees, itemFaults, values, tree_eq e]
    cases e.faults with
    | cons err _ => rfl
    | nil =>
      rw [DecodeError.firstOr, List.nil_append, nextKey_ofList hlen]
      dsimp only
      by_cases hlt : Ss.length < 2 ^ 63
      · have hrest := appendTrees_eq (Ss ++ [e.value])
          (by rw [List.length_append, List.length_singleton]; omega) rest
        rw [Tree.pairs_ofList_concat, List.length_append, List.length_singleton, List.append_assoc,
          List.singleton_append] at hrest
        rw [if_pos hlt, if_pos hlt, List.nil_append]
        exact hrest
      · rw [if_neg hlt, if_neg hlt]
        rfl

/-- Filling a map fails with the first fault of a key or an item, and otherwise assigns the values
to the keys in turn. -/
theorem Event.assignTrees_eq (ps : Pairs Tree) : (pairs : List (Event × Event)) →
    Event.assignTrees ps pairs = DecodeError.firstOr (Event.pairFaults pairs)
      (ps.assignAll (Event.pairValues pairs))
  | [] => by rw [assignTrees, pairFaults, pairValues]; rfl
  | (k, e) :: rest => by
    rw [assignTrees, pairFaults, pairValues, keyFaults, key, tree_eq e]
    cases k.keyText with
    | error err => rfl
    | ok s =>
      cases e.faults with
      | cons err _ => rfl
      | nil => exact assignTrees_eq _ rest

end

end Fold

/-! ### Sequences that a host can hold -/

/-- Whether an event is inside another one, or the same. -/
inductive Event.Inside : Event → Event → Prop
  | refl (e : Event) : Inside e e
  | present {x e : Event} (h : Inside x e) : Inside x (.present e)
  | item {x e : Event} {items : List Event} (hm : e ∈ items) (h : Inside x e) :
      Inside x (.sequence items)
  | value {x e k : Event} {pairs : List (Event × Event)} (hm : (k, e) ∈ pairs) (h : Inside x e) :
      Inside x (.map pairs)

/-- Whether there is a key for every item of every sequence in an event. -/
def Event.Fits (e : Event) : Prop :=
  ∀ items, Event.Inside (.sequence items) e → items.length ≤ 2 ^ 63

/-- No key fails for want of a free one. -/
theorem Event.keyFaults_ne (k : Event) (err : ValueError) : .element err ∉ k.keyFaults := by
  rw [keyFaults]
  cases k with
  | bytes b =>
    rw [keyText]
    cases b.text? <;> simp
  | _ => simp [keyText]

mutual

/-- **Appending does not fail** where there are keys. -/
theorem Event.faults_ne (err : ValueError) : (e : Event) → e.Fits → .element err ∉ e.faults
  | .present e, hf => by
    rw [faults]
    exact faults_ne err e fun items hi ↦ hf items (.present hi)
  | .sequence items, hf => by
    rw [faults]
    refine itemFaults_ne err 0 items ?_ fun e he items hi ↦ hf items (.item he hi)
    rw [Nat.zero_add]
    exact hf items (.refl _)
  | .map pairs, hf => by
    rw [faults]
    exact pairFaults_ne err pairs fun p hp items hi ↦ hf items (.value hp hi)
  | .unit, _ | .absent, _ | .bool _, _ | .int _, _ | .natural _, _ | .double _, _ | .char _, _
  | .text _, _ | .bytes _, _ => by
    rw [faults]
    exact List.not_mem_nil
  | .wrapper _, _ | .variant, _ | .wideInt _, _ | .wideNatural _, _ => by simp [faults]

/-- Nor does an item, if there is a key for every item. -/
theorem Event.itemFaults_ne (err : ValueError) (i : Nat) : (items : List Event) →
    i + items.length ≤ 2 ^ 63 → (∀ e ∈ items, e.Fits) → .element err ∉ Event.itemFaults i items
  | [], _, _ => by
    rw [itemFaults]
    exact List.not_mem_nil
  | e :: rest, hlen, hf => by
    rw [List.length_cons] at hlen
    have hrest := itemFaults_ne err (i + 1) rest (by omega) fun x hx ↦
      hf x (List.mem_cons_of_mem _ hx)
    rw [itemFaults, if_pos (by omega), List.nil_append, List.mem_append, not_or]
    exact ⟨faults_ne err e (hf e List.mem_cons_self), hrest⟩

/-- In a map no item does. -/
theorem Event.pairFaults_ne (err : ValueError) : (pairs : List (Event × Event)) →
    (∀ p ∈ pairs, p.2.Fits) → .element err ∉ Event.pairFaults pairs
  | [], _ => by
    rw [pairFaults]
    exact List.not_mem_nil
  | (k, e) :: rest, hf => by
    rw [pairFaults, List.mem_append, List.mem_append, not_or, not_or]
    exact ⟨k.keyFaults_ne err, faults_ne err e (hf _ List.mem_cons_self),
      pairFaults_ne err rest fun p hp ↦ hf p (List.mem_cons_of_mem _ hp)⟩

end

/-! ### Trees of data -/

/-- Whether a tree is made of scalars and arrays. -/
inductive Tree.IsData : Tree → Prop
  | null : IsData .null
  | bool (b : Bool) : IsData (.bool b)
  | int (n : Int64) : IsData (.int n)
  | double (d : Double) : IsData (.double d)
  | string (b : Bytes) : IsData (.string b)
  | array {ps : List (Key × Tree)} (h : ∀ p ∈ ps, IsData p.2) : IsData (.array ps)

/-- A list of data is data. -/
theorem Tree.isData_ofList {Ss : List Tree} (hS : ∀ S ∈ Ss, S.IsData) :
    (Tree.ofList Ss).IsData := by
  refine .array fun p hp ↦ ?_
  obtain ⟨q, hq, rfl⟩ := List.mem_map.1 hp
  exact hS _ (List.fst_mem_of_mem_zipIdx hq)

mutual

/-- The value that an event describes is data. -/
theorem Event.isData_value : (e : Event) → e.value.IsData
  | .unit | .absent | .wrapper _ | .variant | .wideInt _ | .wideNatural _ => by
    rw [value]
    exact .null
  | .present e => by
    rw [value]
    exact isData_value e
  | .bool b => by
    rw [value]
    exact .bool b
  | .int n => by
    rw [value]
    exact .int n
  | .natural n => by
    rw [value]
    split
    · exact .int _
    · exact .double _
  | .double d => by
    rw [value]
    exact .double d
  | .char _ | .text _ | .bytes _ => by
    rw [value]
    exact .string _
  | .sequence items => by
    rw [value]
    exact Tree.isData_ofList (isData_of_mem_values items)
  | .map pairs => by
    rw [value]
    exact .array fun p hp ↦ isData_of_mem_pairValues pairs p (Pairs.mem_latest hp)

theorem Event.isData_of_mem_values : (items : List Event) → ∀ S ∈ Event.values items, S.IsData
  | [], S, hS => by
    rw [values] at hS
    cases hS
  | e :: rest, S, hS => by
    rw [values] at hS
    rcases List.mem_cons.1 hS with rfl | hS
    · exact isData_value e
    · exact isData_of_mem_values rest S hS

theorem Event.isData_of_mem_pairValues : (pairs : List (Event × Event)) →
    ∀ p ∈ Event.pairValues pairs, p.2.IsData
  | [], p, hp => by
    rw [pairValues] at hp
    cases hp
  | (k, e) :: rest, p, hp => by
    rw [pairValues] at hp
    rcases List.mem_cons.1 hp with rfl | hp
    · exact isData_value e
    · exact isData_of_mem_pairValues rest p hp

end

/-! ### Lists -/

namespace Table

/-- Whether two tables hold the same, whatever buffers the texts of their keys came in. -/
structure Same (t t' : Table) : Prop where
  slots_eq : t.slots = t'.slots
  nextFree_eq : t.nextFree = t'.nextFree
  bindings_eq : t.bindings = t'.bindings

/-- One more value is stored under the number of those before it. -/
theorem ofList_concat (vs : List Value) (v : Value) : ofList (vs ++ [v]) =
    (ofList vs).insertNew (Label.int (.ofNat vs.length)) (.value v) := by
  simp [ofList, List.zipIdx_append]

/-- The slots of a list are its values, numbered from zero. -/
theorem slots_ofList (vs : List Value) :
    (ofList vs).slots = vs.zipIdx.map fun p ↦ (.int (.ofNat p.2), .value p.1) := by
  induction vs using List.reverseRecOn with
  | nil => rfl
  | append_singleton vs v ih =>
    rw [slots] at ih
    rw [ofList_concat, slots, insertNew, List.map_append, ih, List.zipIdx_append, List.map_append]
    simp [Label.int]

/-- The next free key of a list is right for its keys. -/
theorem isNextFree_ofList (vs : List Value) :
    IsNextFree (ofList vs).storedKeys (ofList vs).nextFree := by
  induction vs using List.reverseRecOn with
  | nil => exact isNextFree_nil
  | append_singleton vs v ih =>
    rw [ofList_concat, storedKeys_insertNew]
    exact ih.noteKey _

/-- A table with the slots of a list is the table of this list. -/
theorem WellFormed.same_ofList {t : Table} {vs : List Value} (ht : t.WellFormed)
    (hs : t.slots = (ofList vs).slots) : t.Same (ofList vs) where
  slots_eq := hs
  nextFree_eq := by
    have hkeys : t.storedKeys = (ofList vs).storedKeys := by
      rw [t.matches_slots.keys_eq, hs, ← (ofList vs).matches_slots.keys_eq]
    refine ht.nextFree_isNextFree.unique ?_
    rw [hkeys]
    exact isNextFree_ofList vs
  bindings_eq := by
    rw [ht.bindings_eq, Heap.bindings_ofList, List.countP_eq_zero]
    intro e he
    have hm : (e.key, e.slot) ∈ t.slots := List.mem_map_of_mem he
    rw [hs, slots_ofList] at hm
    obtain ⟨p, -, hp⟩ := List.mem_map.1 hm
    rw [← (Prod.mk.inj hp).2]
    exact Bool.false_ne_true

end Table

namespace Heap

variable {h : Heap} {x : TableId} {v : Value} {S : Tree} {Ss : List Tree}

/-! ### Values that show data -/

/-- What shows data is a scalar or an array. -/
theorem Shows.isScalar_of_isData (hs : h.Shows v S) (hS : S.IsData) :
    IsScalar v ∨ ∃ t, v = .array t := by
  by_cases harray : ∃ ps, S = .array ps
  · obtain ⟨ps, rfl⟩ := harray
    obtain ⟨t, ht, -⟩ := shows_array_iff.1 hs
    exact .inr ⟨t, ht⟩
  · have hflat := (shows_flat_iff (not_exists.1 harray)).1 hs
    left
    -- the values that are neither have no tree of data
    cases v <;> first | trivial | (cases hflat; cases hS)

/-- What a table is like that holds nothing but data: no slot is bound, undefined or a reference, an
object or a resource, and the next key is the one after its integer keys. -/
structure HoldsData (h : Heap) (x : TableId) : Prop where
  slots : ∀ p ∈ (h.table x).slots, ∃ u, p.2 = .value u ∧ (IsScalar u ∨ ∃ y, u = .array y)
  nextIndex_eq : h.nextIndex x = nextKey (h.table x).storedKeys

/-- And every array in it shows data. -/
theorem Shows.exists_of_within (hs : h.Shows v S) (hS : S.IsData) (hx : h.Within x v) :
    ∃ ps : Pairs Tree, h.Shows (.array x) (.array ps) ∧ ∀ p ∈ ps, p.2.IsData := by
  obtain ⟨t, rfl, hb⟩ := hx
  induction hb with
  | refl =>
    obtain ⟨ps, rfl, hm⟩ := hs.exists_matches
    cases hS with
    | array hps => exact ⟨ps, hs, hps⟩
  | tail _ hc ih =>
    obtain ⟨ps, hy, hps⟩ := ih
    obtain ⟨k, hk⟩ := hc
    obtain ⟨S', hS', u, hu, hshows⟩ := hy.matches_table.exists_of_find? hk
    obtain rfl := Slot.value.inj hu
    obtain ⟨p, hp, rfl⟩ := Option.map_eq_some_iff.1 hS'
    obtain ⟨qs, hq, -⟩ := hshows.exists_matches
    have hdata := hps p (List.mem_of_find?_eq_some hp)
    rw [hq] at hdata hshows
    cases hdata with
    | array hqs => exact ⟨qs, hshows, hqs⟩

/-- **A value that shows data holds nothing else.** -/
theorem Shows.holdsData (hs : h.Shows v S) (hv : h.Valid) (hS : S.IsData) (hx : h.Within x v) :
    h.HoldsData x where
  slots := fun p hp ↦ by
    obtain ⟨ps, hshows, hps⟩ := hs.exists_of_within hS hx
    obtain ⟨e, he, rfl⟩ := List.mem_map.1 hp
    obtain ⟨i, hi, rfl⟩ := List.mem_iff_getElem.1 he
    have hm := hshows.matches_table
    have hlt : i < ps.length := hm.length_eq ▸ hi
    obtain ⟨-, u, hu, hshown⟩ := List.Forall₂.get hm hi hlt
    exact ⟨u, hu, hshown.isScalar_of_isData (hps _ (List.getElem_mem hlt))⟩
  nextIndex_eq := (hv.table_wellFormed x).nextFree_eq_nextKey

private theorem exists_zipIdx {entries : List Entry} {j : Nat}
    (hm : List.Forall₂ (fun e (p : Key × Tree) ↦ e.key = p.1 ∧ h.SlotShows e.slot p.2) entries
      ((Ss.zipIdx j).map fun p ↦ (.int (.ofNat p.2), p.1))) :
    ∃ vs, List.Forall₂ h.Shows vs Ss ∧ (entries.map fun e ↦ (e.key, e.slot)) =
      (vs.zipIdx j).map fun p ↦ (.int (.ofNat p.2), .value p.1) := by
  induction Ss generalizing entries j with
  | nil =>
    cases hm
    exact ⟨[], .nil, rfl⟩
  | cons S Ss ih =>
    rw [List.zipIdx_cons, List.map_cons] at hm
    cases hm with
    | @cons e _ _ _ he hrest =>
      obtain ⟨hkey, v, hslot, hs⟩ := he
      obtain ⟨vs, hvs, heq⟩ := ih hrest
      refine ⟨v :: vs, .cons hs hvs, ?_⟩
      rw [List.map_cons, heq, hkey, hslot, List.zipIdx_cons, List.map_cons]

/-- An array that shows a list is the one that the list of its values would be made into. -/
theorem Shows.exists_ofList (hs : h.Shows (.array x) (.ofList Ss)) (hv : h.Valid) :
    ∃ vs, List.Forall₂ h.Shows vs Ss ∧ (h.table x).Same (Table.ofList vs) := by
  obtain ⟨vs, hvs, heq⟩ := exists_zipIdx hs.matches_table
  refine ⟨vs, hvs, (hv.table_wellFormed x).same_ofList ?_⟩
  rw [Table.slots_ofList]
  exact heq

end Heap

namespace Workspace

variable {w : Workspace}

/-- **Decoding is the fold that its input describes.** It fails with the first thing that is
unacceptable in the input, if there is one. Otherwise it gives a value that shows the tree of the
input and holds nothing but data, and whose sequences are the lists of their items. It does not run
out of keys. What is unacceptable besides events without a value is a matter of the defaults that
`Heap.decode` and `Event.keyText` assume. -/
theorem Reachable.decoding_exact (hw : w.Reachable) (e : Event) :
    (∀ err, (w.heap.decode e).2 = .error err ↔ e.faults.head? = some err) ∧
    (e.faults = [] → ∃ h' v, w.heap.decode e = (h', .ok v) ∧ h'.Shows v e.value ∧
      (Heap.IsScalar v ∨ ∃ t, v = .array t) ∧
      ∀ x, h'.Within x v → h'.HoldsData x ∧ ∀ Ss, h'.Shows (.array x) (.ofList Ss) →
        ∃ vs, List.Forall₂ h'.Shows vs Ss ∧ (h'.table x).Same (Table.ofList vs)) ∧
    (e.Fits → ∀ err, (w.heap.decode e).2 ≠ .error (.element err)) := by
  have hv := hw.valid.heap
  have halike := Heap.decode_alike hv e
  have hvalid := (Heap.quietly_decode hv e).valid hv
  have hne := fun err ↦ Event.faults_ne err e
  have hdata := e.isData_value
  rw [e.tree_eq] at halike
  generalize w.heap.decode e = r at halike hvalid
  obtain ⟨h', r⟩ := r
  cases hf : e.faults with
  | cons err rest =>
    rw [hf, DecodeError.firstOr] at halike
    rw [hf] at hne
    cases halike
    refine ⟨fun err' ↦ ?_, fun he ↦ (nomatch he), fun hfits err' he ↦ ?_⟩
    · rw [List.head?_cons, Option.some.injEq, Except.error.injEq]
    · exact hne err' hfits (Except.error.inj he ▸ List.mem_cons_self)
  | nil =>
    rw [hf, DecodeError.firstOr] at halike
    cases halike with
    | @ok v _ hs =>
      refine ⟨fun err' ↦ iff_of_false (fun he ↦ nomatch he) fun he ↦ (nomatch he), fun _ ↦ ?_,
        fun _ err' he ↦ nomatch he⟩
      exact ⟨h', v, rfl, hs, hs.isScalar_of_isData hdata, fun x hx ↦
        ⟨hs.holdsData hvalid hdata hx, fun Ss hSs ↦ hSs.exists_ofList hvalid⟩⟩

/-- A map that has one key twice, spelled in two ways, and a sequence under another. -/
def repeatingEvent : Event :=
  .map [(.text "1", .sequence [.bool true]), (.text "b", .sequence [.absent, .present (.int 2)]),
    (.char '1', .int 5)]

/-- A sequence with a map in which a key is no text, before something that is no value. -/
def faultyEvent : Event := .sequence [.bool true, .map [(.int 3, .unit)], .variant]

/-- The first key stays in its place and has the last of its values. -/
theorem value_repeatingEvent : repeatingEvent.value =
    .array [(.int 1, .int 5), (.text [0x62], .ofList [.null, .int 2])] := rfl

theorem fits_repeatingEvent : repeatingEvent.Fits := by
  intro items hi
  cases hi with
  | value hm hi =>
    simp only [List.mem_cons, Prod.mk.injEq, List.not_mem_nil, or_false] at hm
    rcases hm with ⟨-, rfl⟩ | ⟨-, rfl⟩ | ⟨-, rfl⟩
    · cases hi with
      | refl => decide
      | item hm hi =>
        obtain rfl := List.mem_singleton.1 hm
        cases hi
    · cases hi with
      | refl => decide
      | item hm hi =>
        rcases List.mem_pair.1 hm with rfl | rfl
        · cases hi
        · cases hi with
          | present hi => cases hi
    · cases hi

/-- One input fails with its first fault, a key that is no text, although something that is no value
comes after it. The other is decoded, and the last element under a key wins at the first place. -/
theorem Reachable.decoding_exact_circularEnd :
    circularEnd.Reachable ∧ (circularEnd.heap.decode faultyEvent).2 =
        .error (.invalidType (Event.int 3).description .key) ∧
      (∃ h v, circularEnd.heap.decode repeatingEvent = (h, .ok v) ∧ h.Shows v
        (.array [(.int 1, .int 5), (.text [0x62], .ofList [.null, .int 2])])) ∧
      ∀ err, (circularEnd.heap.decode repeatingEvent).2 ≠ .error (.element err) := by
  obtain ⟨hfails, -, -⟩ := reachable_circularEnd.decoding_exact faultyEvent
  obtain ⟨-, hgives, hfits⟩ := reachable_circularEnd.decoding_exact repeatingEvent
  obtain ⟨h, v, hd, hs, -⟩ := hgives rfl
  rw [value_repeatingEvent] at hs
  exact ⟨reachable_circularEnd, (hfails _).2 rfl, ⟨h, v, hd, hs⟩, hfits fits_repeatingEvent⟩

end Workspace

end SharedValue
