import SharedValue.Proofs.Acyclic.Editing
import SharedValue.Proofs.Workspace.Preparation

/-!
# New arrays and changes of arrays in programs

What programs build keeps a heap acyclic: lists, copies, arrays of pairs and decoded values are put
into tables that are elements of none (`Acyclic.newList`, `Acyclic.newTable_storeAll`,
`Acyclic.decode`). The changes of arrays that a program names by a register or a variable keep it
acyclic because the place they start from is entered (`acyclic_editTarget`, `acyclic_editVariable`).
-/

namespace SharedValue

namespace Heap

variable {h : Heap} {t : TableId} {v : Value}

/-! ### Copies and lists -/

/-- A list of values that are there is on no circle, for nothing refers to it yet. -/
theorem Acyclic.newList (ha : h.Acyclic) (hv : h.Valid) {vs : List Value}
    (hvs : ∀ v ∈ vs, h.Admits v) : (h.newList vs).1.Acyclic := by
  refine ha.newTable hv fun x hx ↦ ?_
  obtain ⟨v, hm, hx⟩ := Table.mem_handles_ofList hx
  exact hvs v hm x hx

/-- Nor is a copy. -/
theorem Acyclic.copyArray (ha : h.Acyclic) (hv : h.Valid) (t : TableId) :
    (h.copyArray t).1.Acyclic := by
  rw [Heap.copyArray]
  split
  · exact ha
  · exact ha.newTable hv fun _ ↦ hv.sound_of_mem_detached

/-- Nor is the array that a value is turned into. -/
theorem Acyclic.toArray (ha : h.Acyclic) (hv : h.Valid) (hva : h.Admits v) :
    (h.toArray v).1.Acyclic := by
  rw [Heap.toArray.eq_def]
  split
  · exact ha
  · exact ha.newTable_empty hv
  · exact ha.newTable_empty hv
  · exact ha
  · exact ha.copyArray hv _
  next u _ _ _ _ hd =>
    refine ha.newList hv fun w hw ↦ ?_
    rw [List.mem_singleton.1 hw]
    exact admits_of_dereference hv hva hd

/-- A new table is in no other one. -/
theorem Valid.topmost_newTable_empty (hv : h.Valid) :
    (h.newTable Table.empty).1.Topmost (h.newTable Table.empty).2 := by
  have hg := gains_newTable_of_sound fun x ↦ sound_of_mem_empty (h := h) (x := x)
  exact hv.topmost_fresh.gains hg fun hm ↦ (show h.Admits _ from hm).ne_fresh rfl

/-- An array of values that are there. -/
theorem Acyclic.newTable_storeAll (ha : h.Acyclic) (hv : h.Valid) {pairs : List (Label × Value)}
    (hp : ∀ p ∈ pairs, h.Admits p.2) :
    ((h.newTable Table.empty).1.storeAll (h.newTable Table.empty).2 pairs).Acyclic :=
  (ha.newTable_empty hv).storeAll
    hv.topmost_newTable_empty fun p hm ↦ (hp p hm).ne_fresh

/-! ### Decoding -/

/-- Making a text makes no table. -/
theorem fresh_newStr (h : Heap) (b : Bytes) : (h.newStr b).1.tables.fresh = h.tables.fresh := by
  rw [newStr]
  split <;> rfl

/-- What is shown of a decoding: the heap stays acyclic, and a table that was there and was an
element of none is an element of none afterwards and is not what comes out. -/
private structure Grows (h h' : Heap) (v : Option Value) : Prop where
  acyclic : h'.Acyclic
  topmost : ∀ {t : TableId}, t.index < h.tables.fresh → h.Topmost t →
    h'.Topmost t ∧ v ≠ some (.array t)
  fresh : h.tables.fresh ≤ h'.tables.fresh

/-- What is shown of one decoding and of the next is shown of both in turn. -/
private theorem Grows.trans {h' h'' : Heap} {u v : Option Value} (hg : Grows h h' u)
    (hg' : Grows h' h'' v) : Grows h h'' v where
  acyclic := hg'.acyclic
  topmost := fun hlt ht ↦ hg'.topmost (Nat.lt_of_lt_of_le hlt hg.fresh) (hg.topmost hlt ht).1
  fresh := Nat.le_trans hg.fresh hg'.fresh

/-- A heap that stays as it is keeps its topmost tables, and what comes out is none of them. -/
private theorem Grows.refl (ha : h.Acyclic) {v : Option Value} (hv : ∀ t, v ≠ some (.array t)) :
    Grows h h v :=
  ⟨ha, fun _ ht ↦ ⟨ht, hv _⟩, Nat.le_refl _⟩

private theorem Grows.text (ha : h.Acyclic) (b : Bytes) :
    Grows h (h.newText b).1 (some (h.newText b).2) := by
  have hg : h.Gains ⟨0⟩ ∅ (h.newText b).1 := gains_newStr h b _ _
  exact ⟨hg.acyclic ha fun _ hm ↦ hm.elim,
    fun _ ht ↦ ⟨ht.gains hg fun hm ↦ hm.elim, by simp [newText]⟩,
    Nat.le_of_eq (fresh_newStr h b).symm⟩

/-- A new table, empty at first. -/
private theorem Grows.newTable (ha : h.Acyclic) (hv : h.Valid) :
    Grows h (h.newTable Table.empty).1 none := by
  have hg : h.Gains (h.newTable Table.empty).2 ∅ (h.newTable Table.empty).1 :=
    gains_newTable fun hf ↦ by cases hf
  refine ⟨ha.newTable_empty hv, fun _ ht ↦ ⟨ht.gains hg fun hm ↦ hm.elim, fun he ↦ ?_⟩, ?_⟩
  · cases he
  · exact Nat.le_of_lt (Store.fresh_add _ _ ▸ Nat.lt_succ_self _)

/-- A decoded value that is stored in a table that was there before and was an element of none. -/
private theorem Grows.gains {h' h'' : Heap} (hg : Grows h h' (some v))
    (hlt : t.index < h.tables.fresh) (ht : h.Topmost t) (hs : h'.Gains t {.null, v} h'')
    (hf : h'.tables.fresh ≤ h''.tables.fresh) : Grows h h'' none := by
  obtain ⟨ht', hne⟩ := hg.topmost hlt ht
  refine ⟨hs.acyclic hg.acyclic ?_, fun {x} hx htop ↦ ?_, Nat.le_trans hg.fresh hf⟩
  · rintro _ (rfl | rfl)
    · exact not_within_of_ne_array fun _ he ↦ by cases he
    · exact ht'.not_within fun he ↦ hne (congrArg some he)
  · obtain ⟨hx', hnx⟩ := hg.topmost hx htop
    refine ⟨hx'.gains hs ?_, fun he ↦ by cases he⟩
    rintro (he | he)
    · cases he
    · exact hnx (congrArg some he.symm)

/-- Appending to a table puts the value and nulls into that table only. -/
private theorem gains_appendTo {h' : Heap} (happ : h.appendTo t v = .ok h') :
    h.Gains t {.null, v} h' ∧ h.tables.fresh ≤ h'.tables.fresh := by
  rw [appendTo] at happ
  split at happ
  · cases happ
  next n _ =>
    split at happ
    · cases happ
    next hs =>
      rw [← Except.ok.inj happ]
      refine ⟨gains_insertNew (Table.find?_eq_none_iff.2 (Bool.eq_false_iff.2 hs)) fun {z} hz ↦ ?_,
        Nat.le_of_eq (Store.fresh_set _ _ _).symm⟩
      rw [← Slot.value.inj hz]
      exact .inr rfl

/-- Writing to an element makes no table. -/
theorem fresh_write (h : Heap) (e : Element) (v : Value) :
    (h.write e v).tables.fresh = h.tables.fresh := by
  rw [write]
  split
  · exact Store.fresh_set _ _ _
  · rfl
  · rfl

/-- Storing under a key makes no table. -/
theorem fresh_store (h : Heap) (t : TableId) (l : Label) (v : Value) :
    (h.store t l v).1.tables.fresh = h.tables.fresh := by
  rw [store]
  split
  · exact Store.fresh_set _ _ _
  · have hm : (h.materialize t l).tables.fresh = h.tables.fresh := by
      rw [materialize]
      split
      · exact Store.fresh_set _ _ _
      · split
        · exact fresh_write h _ _
        · rfl
    dsimp only
    rw [← hm, replace]
    split
    · split
      · exact fresh_write _ _ _
      · rfl
    · exact fresh_write _ _ _

/-- Storing under a text takes no table away. -/
private theorem fresh_storeText (h : Heap) (t : TableId) (key : String) (v : Value) :
    h.tables.fresh ≤ (h.storeText t key v).tables.fresh := by
  rw [storeText]
  exact Nat.le_of_eq ((fresh_store _ _ _ _).trans (fresh_newStr h _)).symm

private theorem gains_storeText (h : Heap) (t : TableId) (key : String) (v : Value) :
    h.Gains t {.null, v} (h.storeText t key v) :=
  (gains_newStr h _ t _).trans (gains_store t _ (.inl rfl) (.inr rfl))

private theorem Grows.error {h' : Heap} {v : Option Value} (hg : Grows h h' v) :
    Grows h h' none where
  acyclic := hg.acyclic
  topmost := fun hlt ht ↦ ⟨(hg.topmost hlt ht).1, fun he ↦ by cases he⟩
  fresh := hg.fresh

/-- The name of a table that is made now is not one of those that were there. -/
private theorem Grows.array {h' : Heap} (hg : Grows h h' none) :
    Grows h h' (some (.array ⟨h.tables.fresh⟩)) where
  acyclic := hg.acyclic
  topmost := fun hlt ht ↦ by
    refine ⟨(hg.topmost hlt ht).1, fun he ↦ ?_⟩
    rw [← Value.array.inj (Option.some.inj he)] at hlt
    exact Nat.lt_irrefl _ hlt
  fresh := hg.fresh

/-- The array in a table that was made and filled. -/
private theorem grows_array {r : Heap × Except DecodeError Unit} (hv : h.Valid) (ha : h.Acyclic)
    (hr : Grows (h.newTable Table.empty).1 r.1 none) :
    Grows h r.1 (r.2.map fun _ ↦ .array (h.newTable Table.empty).2).toOption := by
  have hg := (Grows.newTable ha hv).trans hr
  cases r.2 with
  | error e => exact hg
  | ok _ => exact hg.array

mutual

/-- Decoding makes arrays that contain each other from the outside in, by induction on the event.
The new array is filled while nothing refers to it. -/
private theorem grows_decode {h : Heap} (hv : h.Valid) (ha : h.Acyclic) :
    (e : Event) → Grows h (h.decode e).1 (h.decode e).2.toOption
  | .unit => by rw [decode]; exact .refl ha (by simp [Except.toOption])
  | .absent => by rw [decode]; exact .refl ha (by simp [Except.toOption])
  | .present e => by rw [decode]; exact grows_decode hv ha e
  | .bool b => by rw [decode]; exact .refl ha (by simp [Except.toOption])
  | .int n => by rw [decode]; exact .refl ha (by simp [Except.toOption])
  | .natural n => by
    rw [decode]
    split <;> exact .refl ha (by simp [Except.toOption])
  | .double d => by rw [decode]; exact .refl ha (by simp [Except.toOption])
  | .char c => by rw [decode]; exact .text ha _
  | .text s => by rw [decode]; exact .text ha _
  | .bytes b => by rw [decode]; exact .text ha b
  | .sequence items => by
    have hv' := (quietly_newTable_empty h).valid hv
    rw [decode_sequence]
    exact grows_array hv ha (grows_decodeItems hv' (ha.newTable_empty hv) (sound_newTable rfl).knows
      hv.topmost_newTable_empty items)
  | .map pairs => by
    have hv' := (quietly_newTable_empty h).valid hv
    rw [decode_map]
    exact grows_array hv ha (grows_decodePairs hv' (ha.newTable_empty hv) (sound_newTable rfl).knows
      hv.topmost_newTable_empty pairs)
  | .wrapper e => by rw [decode]; exact .refl ha (by simp [Except.toOption])
  | .variant => by rw [decode]; exact .refl ha (by simp [Except.toOption])
  | .wideInt n => by rw [decode]; exact .refl ha (by simp [Except.toOption])
  | .wideNatural n => by rw [decode]; exact .refl ha (by simp [Except.toOption])

private theorem grows_decodeItems {h : Heap} (hv : h.Valid) (ha : h.Acyclic) {t : TableId}
    (ht : h.Knows t) (htop : h.Topmost t) :
    (items : List Event) → Grows h (h.decodeItems t items).1 none
  | [] => by rw [decodeItems]; exact .refl ha fun _ he ↦ by cases he
  | e :: rest => by
    have hg := grows_decode hv ha e
    have hq := quietly_decode hv e
    have hva := fun v ↦ admits_decode (v := v) (e := e) hv
    have hlt := Store.lt_fresh_of_get? ht.get?
    rw [decodeItems]
    split
    next heq =>
      rw [heq] at hg
      exact hg
    next h' v heq =>
      rw [heq] at hg hq hva
      split
      · exact hg.error
      next h'' happ =>
        -- the item was decoded beside the table, which is still an element of none
        obtain ⟨hs, hf⟩ := gains_appendTo happ
        have hg' := hg.gains hlt htop hs hf
        have hq' := hq.trans (quietly_appendTo (hq.knows ht) (hva v rfl) happ)
        exact hg'.trans (grows_decodeItems (hq'.valid hv) hg'.acyclic (hq'.knows ht)
          (hg'.topmost hlt htop).1 rest)

private theorem grows_decodePairs {h : Heap} (hv : h.Valid) (ha : h.Acyclic) {t : TableId}
    (ht : h.Knows t) (htop : h.Topmost t) :
    (pairs : List (Event × Event)) → Grows h (h.decodePairs t pairs).1 none
  | [] => by rw [decodePairs]; exact .refl ha fun _ he ↦ by cases he
  | (k, e) :: rest => by
    have hg := grows_decode hv ha e
    have hq := quietly_decode hv e
    have hva := fun v ↦ admits_decode (v := v) (e := e) hv
    have hlt := Store.lt_fresh_of_get? ht.get?
    rw [decodePairs]
    split
    · exact .refl ha fun _ he ↦ by cases he
    next key _ =>
      split
      next heq =>
        rw [heq] at hg
        exact hg
      next h' v heq =>
        rw [heq] at hg hq hva
        have hq' := hq.trans (quietly_storeText (hq.valid hv) (hq.knows ht) key (hva v rfl))
        have hg' := hg.gains hlt htop (gains_storeText h' t key v) (fresh_storeText h' t key v)
        exact hg'.trans (grows_decodePairs (hq'.valid hv) hg'.acyclic (hq'.knows ht)
          (hg'.topmost hlt htop).1 rest)

end

/-- **Decoding keeps a heap acyclic.** -/
theorem Acyclic.decode (ha : h.Acyclic) (hv : h.Valid) (e : Event) : (h.decode e).1.Acyclic :=
  (grows_decode hv ha e).acyclic

end Heap

namespace Workspace

variable {w w' : Workspace} {name : String}

/-! ### Keys and operands -/

theorem acyclic_keySource (ha : w.heap.Acyclic) (k : KeyTerm) : (w.keySource k).1.heap.Acyclic := by
  obtain ⟨n, source, heq, -⟩ := w.keySource_eq k
  rw [heq]
  exact ha

theorem acyclic_labelsOf (ha : w.heap.Acyclic) (ks : List KeyTerm) :
    (w.labelsOf ks).1.heap.Acyclic := by
  obtain ⟨n, r, heq, -⟩ := w.labelsOf_eq ks
  rw [heq]
  exact ha

theorem acyclic_keySources (ha : w.heap.Acyclic) (pairs : List (KeyTerm × String)) :
    (w.keySources pairs).1.heap.Acyclic := by
  induction pairs generalizing w with
  | nil => exact ha
  | cons p rest ih => exact ih (acyclic_keySource ha p.1)

theorem acyclic_readingTarget (ha : w.heap.Acyclic) (target : Target) :
    (w.readingTarget target).1.heap.Acyclic := by
  have hl := acyclic_labelsOf ha target.path
  rw [readingTarget]
  split <;> next heq =>
    rw [heq] at hl
    exact hl

theorem acyclic_lookIn {α : Type} (ha : w.heap.Acyclic) (t : Except ValueError TableId)
    (k : KeyTerm) (look : Heap → TableId → Key → α) : (w.lookIn t k look).1.heap.Acyclic := by
  rw [lookIn.eq_def]
  split
  · exact ha
  next t =>
    obtain ⟨n, r, heq, -⟩ := w.withLabel_eq k fun l ↦ look w.heap t l.key
    rw [heq]
    exact ha

/-- The place that a register stands for may be written to while its cell is borrowed. -/
theorem entered_placeOf (w : Workspace) (name : String) :
    w.Entered (w.borrowedBy name) (w.placeOf name) := by
  have hop : w.operand name = w.valueAt (.register name) := rfl
  rw [borrowedBy, placeOf, hop]
  cases w.valueAt (.register name) with
  | reference c => exact List.mem_singleton_self c
  | _ => trivial

/-! ### Changes of an array -/

/-- Changing the array that a target names puts no array into itself, since all operands are held
when the writer has separated it. -/
theorem acyclic_editTarget (ha : w.heap.Acyclic) (hv : w.Valid) {target : Target}
    {e : Edit KeyTerm String} {r : Except ValueError (List Outcome)}
    (hr : w.editTarget target e = some (w', r)) : w'.heap.Acyclic := by
  have hq := (quietly_prepare hv target.path e).1
  rw [editTarget] at hr
  rcases w.prepare_eq target.path e with ⟨n, err, heq, -⟩ | ⟨n, ls, e', heq, -⟩
  · rw [heq] at hr
    exact acyclic_of_some hr ha
  · rw [heq] at hr hq
    have hp := ((w.withBuffers n).hold e'.operands).entered_placeOf target.register
    exact acyclic_editFrom hp ha (hq.valid hv) (placeOf_ne_symbols _ _)
      (placeOf_ne_properties _ _) (fun v hm ↦ List.mem_append_right _ hm) hr

/-- A table of variables that is there has its table. -/
theorem Valid.knows_symbols (hv : w.Valid) (hs : w.symbolTables.has name = true) :
    w.heap.Knows (w.tableAt (.symbols name)) := by
  cases hget : w.symbolTables.get? name with
  | some s =>
    rw [tableAt_symbols hget]
    exact hv.knows_of_get? hget
  | none =>
    rw [Registry.get?_eq_none_iff.1 hget] at hs
    cases hs

/-- The element of a variable that is opened is in a clear table. -/
theorem editable_openSymbol (ha : w.heap.Acyclic) (hv : w.Valid)
    (hs : w.symbolTables.has name = true) (k : KeySource) :
    (w.openSymbol name k []).1.heap.Acyclic ∧ ∀ e, (w.openSymbol name k []).2 = .ok e →
      (w.openSymbol name k []).1.Editable [] e := by
  rw [openSymbol]
  split
  · exact ⟨ha, fun _ he ↦ by cases he⟩
  next l _ =>
    have hp : w.Entered [] (.symbols name) := trivial
    refine ⟨acyclic_openElement ha hv Heap.admits_of_mem_nil l, fun e he ↦ ?_⟩
    rw [← Except.ok.inj he]
    exact ⟨hp.clear_openElement hv Heap.admits_of_mem_nil (hv.knows_symbols hs) l, .inl rfl⟩

/-- Writing to the element of a variable, which may be bound, is writing to its cell then. -/
theorem acyclic_editVariable (ha : w.heap.Acyclic) (hv : w.Valid)
    (hs : w.symbolTables.has name = true) {k : KeyTerm} {path : List KeyTerm}
    {e : Edit KeyTerm String} {r : Except ValueError (List Outcome)}
    (hr : w.editVariable name k path e = some (w', r)) : w'.heap.Acyclic := by
  have hq := (quietly_prepare hv path e).1
  rw [editVariable] at hr
  rcases w.prepare_eq path e with ⟨n, err, heq, -⟩ | ⟨n, ls, e', heq, -⟩
  · rw [heq] at hr
    exact acyclic_of_some hr ha
  · rw [heq] at hr hq
    obtain ⟨m, source, hkey, -⟩ := ((w.withBuffers n).hold e'.operands).keySource_eq k
    have hv₂ := (hq.trans (quietly_keySource _ k)).valid hv
    dsimp only at hr
    rw [hkey] at hr hv₂
    have ha₂ : (((w.withBuffers n).hold e'.operands).withBuffers m).heap.Acyclic := ha
    obtain ⟨ha₃, ho⟩ := editable_openSymbol ha₂ hv₂ hs source
    have hq₃ := quietly_openSymbol hv₂ name source Heap.admits_of_mem_nil
    dsimp only at hr
    split at hr
    next heq₃ =>
      rw [heq₃] at ha₃
      exact acyclic_of_some hr ha₃
    next w₃ x heq₃ =>
      rw [heq₃] at ha₃ ho hq₃
      exact acyclic_editFrom (ho x rfl).entered ha₃ (hq₃.valid hv₂) (fun _ he ↦ by cases he)
        (fun _ he ↦ by cases he)
        (fun v hm ↦ hq₃.held_subset (List.mem_append_right _ hm)) hr

end Workspace

end SharedValue
