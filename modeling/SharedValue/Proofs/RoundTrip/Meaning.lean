import SharedValue.Proofs.Forest.Related
import SharedValue.Proofs.Forest.Shows
import SharedValue.Proofs.Heap.Operations
import SharedValue.Proofs.Workspace.Writing

/-!
# What an event stands for

An event stands for a tree, or for nothing that can be a value: `Event.tree` says which, with no
heap in which the tree is built. A sequence is appended item by item, so its keys are the next free
ones, and a map is assigned pair by pair, so a later pair with the same key wins.

Decoding makes the tree out of new tables. It goes from an event to its parts and fills a table
while the tables of the parts are made, and each of those is newer than the table that it is an
element of. So what was put into a table is never changed by what comes after it
(`ShowsSince.leaves`), and a decoded value shows the tree that its event stands for
(`decode_alike`).
-/

namespace SharedValue

/-! ### The tree of an event -/

mutual

/-- The tree that an event stands for. -/
def Event.tree : Event → Except DecodeError Tree
  | .unit | .absent => .ok .null
  | .present e => e.tree
  | .bool b => .ok (.bool b)
  | .int n => .ok (.int n)
  | .natural n =>
    match Decimal.bounded? n.toNat with
    | some k => .ok (.int k)
    | none => .ok (.double (Double.ofNat n.toNat))
  | .double d => .ok (.double d)
  | .char c => .ok (.string (Bytes.ofText c.toString))
  | .text s => .ok (.string (Bytes.ofText s))
  | .bytes b => .ok (.string b)
  | .sequence items => (Event.appendTrees [] items).map .array
  | .map pairs => (Event.assignTrees [] pairs).map .array
  | .wrapper e => .error (.invalidType (Event.wrapper e).description .value)
  | .variant => .error (.invalidType Event.variant.description .value)
  | .wideInt n => .error (.invalidType (Event.wideInt n).description .value)
  | .wideNatural n => .error (.invalidType (Event.wideNatural n).description .value)

/-- Pairs with the trees of a sequence's events appended. -/
def Event.appendTrees (ps : Pairs Tree) : List Event → Except DecodeError (Pairs Tree)
  | [] => .ok ps
  | e :: rest =>
    match e.tree with
    | .error err => .error err
    | .ok S =>
      match nextKey ps.keys with
      | none => .error (.element .slotOccupied)
      | some n => Event.appendTrees (ps.add (.int n) S) rest

/-- Pairs with the trees of a map's events assigned. -/
def Event.assignTrees (ps : Pairs Tree) :
    List (Event × Event) → Except DecodeError (Pairs Tree)
  | [] => .ok ps
  | (k, e) :: rest =>
    match k.keyText with
    | .error err => .error err
    | .ok key =>
      match e.tree with
      | .error err => .error err
      | .ok S => Event.assignTrees (ps.assign (Key.ofBytes (Bytes.ofText key)) S) rest

end

namespace Heap

variable {h h' h'' : Heap} {t u : TableId} {v : Value} {S : Tree} {ps : Pairs Tree} {n : Nat}
  {ts : Set TableId}

/-! ### Tables that are left alone -/

/-- Whether the tables of `h`, but for given ones, are the same in `h'`. -/
structure Leaves (h : Heap) (ts : Set TableId) (h' : Heap) : Prop where
  fresh : h.tables.fresh ≤ h'.tables.fresh
  table : ∀ {u : TableId}, u.index < h.tables.fresh → u ∉ ts → h'.table u = h.table u

theorem Leaves.refl (h : Heap) (ts : Set TableId) : h.Leaves ts h := ⟨Nat.le_refl _, fun _ _ ↦ rfl⟩

theorem Leaves.trans (hl : h.Leaves ts h') (hl' : h'.Leaves ts h'') : h.Leaves ts h'' where
  fresh := Nat.le_trans hl.fresh hl'.fresh
  table := fun hlt hn ↦ (hl'.table (Nat.lt_of_lt_of_le hlt hl.fresh) hn).trans (hl.table hlt hn)

/-- What leaves all tables leaves all but some. -/
theorem Leaves.weaken (hl : h.Leaves ∅ h') (ts : Set TableId) : h.Leaves ts h' where
  fresh := hl.fresh
  table := fun hlt _ ↦ hl.table hlt fun hm ↦ hm

/-- Making a text leaves all tables. -/
theorem leaves_newStr (h : Heap) (b : Bytes) (ts : Set TableId) : h.Leaves ts (h.newStr b).1 := by
  rw [newStr]
  split <;> exact ⟨Nat.le_refl _, fun _ _ ↦ rfl⟩

/-- Replacing a table leaves the others. -/
theorem leaves_setTable (h : Heap) (t : TableId) (T : Table) : h.Leaves {t} (h.setTable t T) where
  fresh := Nat.le_of_eq (Store.fresh_set _ _ _).symm
  table := fun _ hn ↦ table_setTable_ne h hn T

/-- A new table leaves all others. -/
theorem leaves_newTable (h : Heap) (T : Table) : h.Leaves ∅ (h.newTable T).1 where
  fresh := Nat.le_of_lt (Store.fresh_add _ _ ▸ Nat.lt_succ_self _)
  table := fun {u} hlt _ ↦ by
    rw [table_newTable, if_neg]
    rintro rfl
    exact Nat.lt_irrefl _ hlt

/-- A table that is made and filled was not there before. -/
theorem Leaves.of_newTable {T : Table} (hl : (h.newTable T).1.Leaves {(h.newTable T).2} h') :
    h.Leaves ∅ h' where
  fresh := Nat.le_trans (h.leaves_newTable T).fresh hl.fresh
  table := fun {u} hlt hn ↦ by
    have hne : u ∉ ({(h.newTable T).2} : Set TableId) := by
      rintro rfl
      exact Nat.lt_irrefl _ hlt
    rw [hl.table (Nat.lt_of_lt_of_le hlt (h.leaves_newTable T).fresh) hne,
      (h.leaves_newTable T).table hlt hn]

/-! ### Values in new tables -/

/-- Whether a value shows a tree in tables that are not among the first `n`. -/
structure ShowsSince (h : Heap) (n : Nat) (v : Value) (S : Tree) : Prop where
  shows : h.Shows v S
  within : ∀ {u}, h.Within u v → n ≤ u.index ∧ u.index < h.tables.fresh
  ne_reference : ∀ c, v ≠ .reference c

/-- What is among the newest tables is among the newer ones. -/
theorem ShowsSince.mono {m : Nat} (hs : h.ShowsSince n v S) (hle : m ≤ n) : h.ShowsSince m v S where
  shows := hs.shows
  within := fun hw ↦ (hs.within hw).imp_left (Nat.le_trans hle)
  ne_reference := hs.ne_reference

/-- A value without tables shows its tree since any time. -/
theorem showsSince_flat (hv : v.flat? = some S) (hne : ∀ c, v ≠ .reference c) (n : Nat) :
    h.ShowsSince n v S where
  shows := shows_of_flat hv
  within := fun hw ↦ by
    obtain ⟨x, rfl, -⟩ := hw
    cases hv
  ne_reference := hne

/-- What is inside a value whose tables are left alone was inside it before. -/
private theorem ShowsSince.within_of_leaves (hs : h.ShowsSince n v S) (hl : h.Leaves ts h')
    (hts : ∀ u ∈ ts, u.index < n) (hw : h'.Within u v) : h.Within u v := by
  obtain ⟨x, rfl, hb⟩ := hw
  rw [within_array_iff]
  induction hb with
  | refl => exact .refl
  | @tail y z _ hc ih =>
    obtain ⟨hle, hlt⟩ := hs.within (within_array_iff.2 ih)
    obtain ⟨k, hk⟩ := hc
    rw [hl.table hlt fun hm ↦ Nat.not_lt_of_le hle (hts _ hm)] at hk
    exact ih.tail ⟨k, hk⟩

/-- **What is built stays as it is** while older tables are changed and newer ones are made. -/
theorem ShowsSince.leaves (hs : h.ShowsSince n v S) (hv : h.Valid) (hl : h.Leaves ts h')
    (hts : ∀ u ∈ ts, u.index < n) : h'.ShowsSince n v S where
  shows := hs.shows.congr hv fun {u} hw ↦ by
    obtain ⟨hle, hlt⟩ := hs.within hw
    exact hl.table hlt fun hm ↦ Nat.not_lt_of_le hle (hts u hm)
  within := fun hw ↦
    (hs.within (hs.within_of_leaves hl hts hw)).imp_right fun hlt ↦ Nat.lt_of_lt_of_le hlt hl.fresh
  ne_reference := hs.ne_reference

/-! ### Tables that are being filled -/

/-- Whether a slot shows a tree in tables that are newer than a given one. -/
def SlotShowsAfter (h : Heap) (t : TableId) (s : Slot) (S : Tree) : Prop :=
  ∃ v, s = .value v ∧ h.ShowsSince (t.index + 1) v S

/-- Whether a table shows pairs, with elements in newer tables. -/
def Builds (h : Heap) (t : TableId) (ps : Pairs Tree) : Prop :=
  (h.table t).Matches (h.SlotShowsAfter t) ps

/-- A new table shows no pairs. -/
theorem builds_newTable (h : Heap) :
    (h.newTable Table.empty).1.Builds (h.newTable Table.empty).2 [] := by
  rw [Builds, table_newTable, if_pos rfl]
  exact Table.matches_empty

/-- What is in newer tables is left when an older one is written to. -/
private theorem SlotShowsAfter.leaves {s : Slot} (hs : h.SlotShowsAfter t s S) (hv : h.Valid)
    (hl : h.Leaves {t} h') : h'.SlotShowsAfter t s S := by
  obtain ⟨v, rfl, hs⟩ := hs
  refine ⟨v, rfl, hs.leaves hv hl fun u hu ↦ ?_⟩
  obtain rfl : u = t := hu
  exact Nat.lt_succ_self _

/-- A table goes on showing what it shows while newer tables are made. -/
theorem Builds.leaves (hb : h.Builds t ps) (hv : h.Valid) (ht : h.Sound (.table t))
    (hl : h.Leaves ∅ h') : h'.Builds t ps := by
  rw [Builds, hl.table (Store.lt_fresh_of_get? ht.knows.get?) fun hm ↦ hm]
  exact hb.imp fun _ _ hs ↦ hs.leaves hv (hl.weaken _)

/-- Another content of the table. -/
theorem builds_setTable (hv : h.Valid) (ht : h.Sound (.table t)) {T : Table}
    (hm : T.Matches (h.SlotShowsAfter t) ps) : (h.setTable t T).Builds t ps := by
  rw [Builds, table_setTable_self (Store.lt_fresh_of_get? ht.knows.get?)]
  exact hm.imp fun _ _ hs ↦ hs.leaves hv (h.leaves_setTable t T)

/-- A table that is filled is an array in new tables. -/
theorem Builds.showsSince (hb : h.Builds t ps) (ht : h.Sound (.table t)) :
    h.ShowsSince t.index (.array t) (.array ps) where
  shows := shows_of_matches (hb.imp fun _ _ ⟨v, hs, hS⟩ ↦ ⟨v, hs, hS.shows⟩)
  within := fun {u} hw ↦ by
    rw [within_array_iff] at hw
    rcases Relation.ReflTransGen.cases_head hw with rfl | ⟨x, ⟨k, hk⟩, hbelow⟩
    · exact ⟨Nat.le_refl _, Store.lt_fresh_of_get? ht.knows.get?⟩
    · obtain ⟨_, -, v, hs, hS⟩ := Table.Matches.exists_of_find? hb hk
      obtain rfl := Slot.value.inj hs
      exact (hS.within (within_array_iff.2 hbelow)).imp_left Nat.le_of_lt
  ne_reference := fun _ he ↦ by cases he

/-- Appending to a table. -/
theorem Builds.appendTo (hb : h.Builds t ps) (hv : h.Valid) (ht : h.Sound (.table t))
    (hs : h.ShowsSince (t.index + 1) v S) :
    nextKey ps.keys = none ∧ h.appendTo t v = .error .slotOccupied ∨
      ∃ n h', nextKey ps.keys = some n ∧ h.appendTo t v = .ok h' ∧ h.Leaves {t} h' ∧
        h'.Builds t (ps.add (.int n) S) := by
  have hkeys := hb.keys_eq
  have hnext := (hv.table_wellFormed t).nextFree_eq_nextKey
  rw [hkeys] at hnext
  rw [Heap.appendTo, hnext]
  cases hn : nextKey ps.keys with
  | none => exact .inl ⟨rfl, rfl⟩
  | some n =>
    have hstores : (h.table t).stores (.int n) = false := by
      rw [← Bool.not_eq_true, Table.stores_iff_mem, hkeys]
      exact notMem_of_nextKey hn
    refine .inr ⟨n, _, rfl, ?_, h.leaves_setTable t _, builds_setTable hv ht
      (hb.insertNew ⟨v, rfl, hs⟩ (Label.int n))⟩
    dsimp only
    rw [hstores, if_neg Bool.false_ne_true]

theorem bytes_newStr (h : Heap) (b : Bytes) : (h.newStr b).2.bytes = b := by
  rw [newStr]
  split <;> rfl

/-- Assigning in a table. -/
theorem Builds.storeText (hb : h.Builds t ps) (hv : h.Valid) (ht : h.Sound (.table t))
    (hs : h.ShowsSince (t.index + 1) v S) (key : String) :
    h.Leaves {t} (h.storeText t key v) ∧
      (h.storeText t key v).Builds t (ps.assign (Key.ofBytes (Bytes.ofText key)) S) := by
  have hq := quietly_newStr h (Bytes.ofText key)
  have hl := h.leaves_newStr (Bytes.ofText key) ∅
  have hbytes := h.bytes_newStr (Bytes.ofText key)
  have hb' := hb.leaves hv ht hl
  have hs' := hs.leaves hv hl fun _ hm ↦ hm.elim
  rw [Heap.storeText]
  generalize h.newStr (Bytes.ofText key) = r at hq hl hbytes hb' hs'
  obtain ⟨h₁, s⟩ := r
  have hkey : (Label.ofStr s).normalize.key = Key.ofBytes (Bytes.ofText key) := by
    rw [Label.key_normalize, ← hbytes]
    rfl
  -- an element that was assigned before is no reference
  have hne : ∀ c, (h₁.table t).find? (Label.ofStr s).normalize.key ≠ some (.value (.reference c)) := by
    intro c hf
    obtain ⟨_, -, u, hu, hS⟩ := hb'.exists_of_find? hf
    exact hS.ne_reference c (Slot.value.inj hu).symm
  dsimp only
  rw [(hq.valid hv).store_eq (hq.sound ht), assigned_of_ne_reference hne, ← hkey]
  exact ⟨(hl.weaken _).trans (h₁.leaves_setTable t _), builds_setTable (hq.valid hv) (hq.sound ht)
    (hb'.assign ⟨v, rfl, hs'⟩ _)⟩

/-! ### Decoding -/

/-- Whether a decoding makes new tables only, and gives a value in these that shows the tree that is
meant, or the error that is meant. -/
private def Makes (h : Heap) (r : Heap × Except DecodeError Value) (m : Except DecodeError Tree) :
    Prop :=
  h.Leaves ∅ r.1 ∧ Alike (r.1.ShowsSince h.tables.fresh) r.2 m

/-- Whether the filling of a table changes no other table, and ends with the pairs that are meant in
the table, or with the error that is meant. -/
private def Fills (h : Heap) (t : TableId) (r : Heap × Except DecodeError Unit)
    (m : Except DecodeError (Pairs Tree)) : Prop :=
  h.Leaves {t} r.1 ∧ Alike (fun _ ps ↦ r.1.Builds t ps) r.2 m

/-- Decoding to a value without tables. -/
private theorem makes_flat (hv : v.flat? = some S) (hne : ∀ c, v ≠ .reference c) :
    Makes h (h, .ok v) (.ok S) :=
  ⟨.refl h ∅, .ok (showsSince_flat hv hne _)⟩

/-- Decoding that fails. -/
private theorem makes_error (h : Heap) (err : DecodeError) : Makes h (h, .error err) (.error err) :=
  ⟨.refl h ∅, .error err⟩

/-- Decoding to a text. -/
private theorem makes_text (h : Heap) (b : Bytes) :
    Makes h ((h.newText b).1, .ok (h.newText b).2) (.ok (.string b)) := by
  refine ⟨h.leaves_newStr b ∅, .ok (showsSince_flat ?_ (fun _ he ↦ by cases he) _)⟩
  show some (Tree.string (h.newStr b).2.bytes) = _
  rw [bytes_newStr]

/-- The array in a table that was made and filled. -/
private theorem makes_array {r : Heap × Except DecodeError Unit}
    {m : Except DecodeError (Pairs Tree)}
    (hq : (h.newTable Table.empty).1.Quietly r.1)
    (hf : Fills (h.newTable Table.empty).1 (h.newTable Table.empty).2 r m) :
    Makes h (r.1, r.2.map fun _ ↦ .array (h.newTable Table.empty).2) (m.map .array) := by
  obtain ⟨h', r⟩ := r
  obtain ⟨hl, ha⟩ := hf
  refine ⟨hl.of_newTable, ?_⟩
  cases ha with
  | error err => exact .error err
  | ok hb => exact .ok (hb.showsSince (hq.sound (sound_newTable rfl)))

mutual

/-- Decoding gives what is meant, by mutual induction on the event, its items and its pairs. -/
private theorem makes_decode {h : Heap} (hv : h.Valid) : (e : Event) → Makes h (h.decode e) e.tree
  | .unit => by rw [decode, Event.tree]; exact makes_flat rfl fun _ he ↦ by cases he
  | .absent => by rw [decode, Event.tree]; exact makes_flat rfl fun _ he ↦ by cases he
  | .present e => by rw [decode, Event.tree]; exact makes_decode hv e
  | .bool b => by rw [decode, Event.tree]; exact makes_flat rfl fun _ he ↦ by cases he
  | .int n => by rw [decode, Event.tree]; exact makes_flat rfl fun _ he ↦ by cases he
  | .natural n => by
    rw [decode, Event.tree]
    cases Decimal.bounded? n.toNat with
    | none => exact makes_flat rfl fun _ he ↦ by cases he
    | some k => exact makes_flat rfl fun _ he ↦ by cases he
  | .double d => by rw [decode, Event.tree]; exact makes_flat rfl fun _ he ↦ by cases he
  | .char c => by rw [decode, Event.tree]; exact makes_text h _
  | .text s => by rw [decode, Event.tree]; exact makes_text h _
  | .bytes b => by rw [decode, Event.tree]; exact makes_text h b
  | .sequence items => by
    have hq := quietly_newTable_empty h
    have hf := fills_decodeItems (hq.valid hv) (sound_newTable rfl) h.builds_newTable items
    rw [decode_sequence, Event.tree]
    exact makes_array (quietly_decodeItems (hq.valid hv) (sound_newTable rfl).knows items) hf
  | .map pairs => by
    have hq := quietly_newTable_empty h
    have hf := fills_decodePairs (hq.valid hv) (sound_newTable rfl) h.builds_newTable pairs
    rw [decode_map, Event.tree]
    exact makes_array (quietly_decodePairs (hq.valid hv) (sound_newTable rfl).knows pairs) hf
  | .wrapper e => by rw [decode, Event.tree]; exact makes_error h _
  | .variant => by rw [decode, Event.tree]; exact makes_error h _
  | .wideInt n => by rw [decode, Event.tree]; exact makes_error h _
  | .wideNatural n => by rw [decode, Event.tree]; exact makes_error h _

private theorem fills_decodeItems {h : Heap} (hv : h.Valid) {t : TableId} (ht : h.Sound (.table t))
    {ps : Pairs Tree} (hb : h.Builds t ps) :
    (items : List Event) → Fills h t (h.decodeItems t items) (Event.appendTrees ps items)
  | [] => by rw [decodeItems, Event.appendTrees]; exact ⟨.refl h _, .ok hb⟩
  | e :: rest => by
    obtain ⟨hl, ha⟩ := makes_decode hv e
    have hq := quietly_decode hv e
    have hva := fun v ↦ admits_decode (v := v) (e := e) hv
    rw [decodeItems, Event.appendTrees]
    generalize h.decode e = r at hl ha hq hva
    generalize e.tree = m at ha
    obtain ⟨h₁, r⟩ := r
    cases ha with
    | error err => exact ⟨hl.weaken _, .error err⟩
    | @ok v S hs =>
      have hs' := hs.mono (Store.lt_fresh_of_get? ht.knows.get?)
      dsimp only at hs' hl hq hva ⊢
      obtain ⟨hn, happ⟩ | ⟨n, h₂, hn, happ, hl', hb'⟩ :=
        (hb.leaves hv ht hl).appendTo (hq.valid hv) (hq.sound ht) hs'
      · rw [hn, happ]
        exact ⟨hl.weaken _, .error _⟩
      · rw [hn, happ]
        have hq' := hq.trans (quietly_appendTo (hq.knows ht.knows) (hva v rfl) happ)
        obtain ⟨hl'', ha''⟩ := fills_decodeItems (hq'.valid hv) (hq'.sound ht) hb' rest
        exact ⟨((hl.weaken _).trans hl').trans hl'', ha''⟩

private theorem fills_decodePairs {h : Heap} (hv : h.Valid) {t : TableId} (ht : h.Sound (.table t))
    {ps : Pairs Tree} (hb : h.Builds t ps) :
    (pairs : List (Event × Event)) → Fills h t (h.decodePairs t pairs) (Event.assignTrees ps pairs)
  | [] => by rw [decodePairs, Event.assignTrees]; exact ⟨.refl h _, .ok hb⟩
  | (k, e) :: rest => by
    obtain ⟨hl, ha⟩ := makes_decode hv e
    have hq := quietly_decode hv e
    have hva := fun v ↦ admits_decode (v := v) (e := e) hv
    rw [decodePairs, Event.assignTrees]
    cases k.keyText with
    | error err => exact ⟨.refl h _, .error err⟩
    | ok key =>
      generalize h.decode e = r at hl ha hq hva
      generalize e.tree = m at ha
      obtain ⟨h₁, r⟩ := r
      cases ha with
      | error err => exact ⟨hl.weaken _, .error err⟩
      | @ok v S hs =>
        have hs' := hs.mono (Store.lt_fresh_of_get? ht.knows.get?)
        dsimp only at hs' hl hq hva ⊢
        obtain ⟨hl', hb'⟩ :=
          (hb.leaves hv ht hl).storeText (hq.valid hv) (hq.sound ht) hs' key
        have hq' := hq.trans (quietly_storeText (hq.valid hv) (hq.knows ht.knows) key (hva v rfl))
        obtain ⟨hl'', ha''⟩ := fills_decodePairs (hq'.valid hv) (hq'.sound ht) hb' rest
        exact ⟨((hl.weaken _).trans hl').trans hl'', ha''⟩

end

/-- Decoding leaves the tables that are there alone. -/
theorem leaves_decode (hv : h.Valid) (e : Event) : h.Leaves ∅ (h.decode e).1 :=
  (makes_decode hv e).1

/-- **Decoding gives what the event stands for**: a value that shows the tree, or the same error. -/
theorem decode_alike (hv : h.Valid) (e : Event) :
    Alike (h.decode e).1.Shows (h.decode e).2 e.tree :=
  (makes_decode hv e).2.imp fun hs ↦ hs.shows

end Heap

end SharedValue
