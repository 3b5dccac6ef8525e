import SharedValue.Proofs.KeySpace
import SharedValue.Proofs.Sharing.Handles
import SharedValue.Proofs.Workspace.Preparation

/-!
# Storage is copied exactly when it must be

Handles to one array share its table until one of them is written through. What is read, what fails,
and what takes out a key that is not stored moves no handle. What writes through a handle leaves it
the one holder of its table, which is copied before if, and only if, there was another holder; the
other holders keep the table that they had. A table in which a name is bound has one holder always.

One holder can lose the old table all the same: assigning under a key that holds a reference writes
to the cell that it refers to, and that cell may be a holder of the table that was copied.
-/

namespace SharedValue

/-- A thing that is added is last. -/
theorem Store.toList_add {α : Type} (s : Store α) (a : α) : (s.add a).toList = s.toList ++ [a] := by
  simp [toList, add]

namespace Heap

variable {h : Heap} {t : TableId} {l : Label}

/-- Making a key ready and assigning to it is assigning to the key. -/
theorem replace_materialize_eq_store (ht : h.Knows t) (l : Label) (v : Value) :
    ((h.materialize t l).replace ⟨t, l.key⟩ v).1 = (h.store t l v).1 := by
  rw [store]
  split
  next hf =>
    have htable : (h.setTable t ((h.table t).insertNew l (.value .null))).table t =
        (h.table t).insertNew l (.value .null) :=
      table_setTable_self (Store.lt_fresh_of_get? ht.get?) _
    have hnull : ((h.setTable t ((h.table t).insertNew l (.value .null))).table t).find? l.key =
        some (.value .null) := by
      rw [htable, Table.find?_insertNew hf, if_pos rfl]
    rw [materialize, hf]
    dsimp only
    rw [replace_of_ne_reference hnull (fun _ he ↦ by cases he), htable, setTable_setTable,
      Table.put_insertNew hf]
  · rfl

end Heap

namespace Workspace

variable {w w' : Workspace} {p q : Place} {t : TableId} {k : Key} {l : Label} {v : Value}
  {s : String} {c : CellId} {operands : List Value} {cs : Set CellId} {S : Set Value} {h : Heap}

/-! ### Readings -/

/-- Whether an operation reads and does nothing else. The readings that give no value to hold, such
as a length, an equality or an encoding, are functions of the heap, and give no workspace at all. -/
def Reads : Command → Prop
  | .array (.get _ _) | .array (.contains _ _) | .array (.getProperty _ _) | .array (.getCell _) =>
    True
  | .symbols _ (.get _) | .symbols _ (.contains _) => True
  | .symbols _ (.iterate writes) => writes = []
  | _ => False

/-- Whether all that a workspace has over another one is texts that were made and values that are
held. -/
def HoldsMore (w w' : Workspace) : Prop := ∃ n vs, w' = (w.withBuffers n).hold vs

theorem holdsMore_withBuffers (w : Workspace) (n : Nat) : w.HoldsMore (w.withBuffers n) :=
  ⟨n, [], by rw [hold, List.append_nil]⟩

theorem holdsMore_hold (w : Workspace) (n : Nat) (vs : List Value) :
    w.HoldsMore ((w.withBuffers n).hold vs) := ⟨n, vs, rfl⟩

/-- Holding more values leaves every handle where it is. -/
theorem HoldsMore.holds_iff (hm : w.HoldsMore w') : w'.Holds t q ↔ w.Holds t q := by
  obtain ⟨n, vs, rfl⟩ := hm
  cases q <;> exact Iff.rfl

/-- What a workspace holds more makes no difference to its tables. -/
theorem HoldsMore.table_eq (hm : w.HoldsMore w') (t : TableId) :
    w'.heap.table t = w.heap.table t := by
  obtain ⟨n, vs, rfl⟩ := hm
  rfl

/-- What was held is still held. -/
theorem HoldsMore.held_prefix (hm : w.HoldsMore w') : w.held <+: w'.held := by
  obtain ⟨n, vs, rfl⟩ := hm
  exact List.prefix_append _ _

/-- Finding the array of a target to read makes at most texts. -/
theorem exists_readingTarget (w : Workspace) (target : Target) :
    ∃ n r, w.readingTarget target = (w.withBuffers n, r) := by
  obtain ⟨n, r, heq, -⟩ := w.labelsOf_eq target.path
  rw [readingTarget, heq]
  cases r <;> exact ⟨n, _, rfl⟩

/-- So does looking up a key. -/
theorem exists_lookIn {α : Type} (w : Workspace) (x : Except ValueError TableId) (k : KeyTerm)
    (look : Heap → TableId → Key → α) : ∃ n r, w.lookIn x k look = (w.withBuffers n, r) := by
  cases x with
  | error e => exact ⟨w.heap.buffers, .error e, rfl⟩
  | ok t =>
    obtain ⟨n, r, heq, -⟩ := w.withLabel_eq k fun l ↦ look w.heap t l.key
    exact ⟨n, _, heq⟩

/-- A command on arrays that reads makes at most texts and holds its result. -/
private theorem holdsMore_arrayCommand {c : ArrayCommand} {r : Except Failure (List Outcome)}
    (hc : Reads (.array c)) (hr : w.arrayCommand c = some (w', r)) : w.HoldsMore w' := by
  cases c with
  | get target k =>
    obtain ⟨n, x, htarget⟩ := w.exists_readingTarget target
    obtain ⟨m, y, hlook⟩ := (w.withBuffers n).exists_lookIn x k fun h t k ↦ h.get? t k
    simp only [arrayCommand, htarget, hlook] at hr
    cases y <;> obtain ⟨rfl, -⟩ := Prod.mk.inj (Option.some.inj hr)
    · exact w.holdsMore_withBuffers m
    · exact w.holdsMore_hold m _
  | contains target k =>
    obtain ⟨n, x, htarget⟩ := w.exists_readingTarget target
    obtain ⟨m, y, hlook⟩ := (w.withBuffers n).exists_lookIn x k fun h t k ↦ h.contains t k
    simp only [arrayCommand, htarget, hlook] at hr
    obtain ⟨rfl, -⟩ := Prod.mk.inj (Option.some.inj hr)
    exact w.holdsMore_withBuffers m
  | getProperty name k =>
    rw [arrayCommand] at hr
    split at hr
    next o _ =>
      obtain ⟨m, y, hlook⟩ := w.exists_lookIn (.ok (w.heap.properties o)) k fun h t k ↦ h.get? t k
      rw [hlook] at hr
      cases y <;> obtain ⟨rfl, -⟩ := Prod.mk.inj (Option.some.inj hr)
      · exact w.holdsMore_withBuffers m
      · exact w.holdsMore_hold m _
    · obtain ⟨rfl, -⟩ := Prod.mk.inj (Option.some.inj hr)
      exact w.holdsMore_withBuffers w.heap.buffers
  | getCell name =>
    rw [arrayCommand] at hr
    split at hr <;> obtain ⟨rfl, -⟩ := Prod.mk.inj (Option.some.inj hr)
    · exact w.holdsMore_hold w.heap.buffers _
    · exact w.holdsMore_withBuffers w.heap.buffers
  | _ => cases hc

/-- So does a command on variables that reads. -/
private theorem holdsMore_symbolCommand {c : SymbolCommand} (hc : Reads (.symbols s c)) :
    w.HoldsMore (w.symbolCommand s c).1 := by
  cases c with
  | get k =>
    obtain ⟨n, source, hkey, -⟩ := w.keySource_eq k
    simp only [symbolCommand, hkey]
    cases (w.withBuffers n).getSymbol s source with
    | error e => exact w.holdsMore_withBuffers n
    | ok v => exact w.holdsMore_hold n _
  | contains k =>
    obtain ⟨n, source, hkey, -⟩ := w.keySource_eq k
    simp only [symbolCommand, hkey]
    exact w.holdsMore_withBuffers n
  | iterate writes =>
    obtain rfl : writes = [] := hc
    simp only [symbolCommand, List.filterMap_nil, iterateWriting_nil]
    exact w.holdsMore_hold w.heap.buffers _
  | _ => cases hc

/-- **A reading does no more than hold what it gives.** -/
theorem holdsMore_of_reads {c : Command} {r : Except Failure (List Outcome)} (hc : Reads c)
    (hr : w.carryOut c = some (w', r)) : w.HoldsMore w' := by
  cases c with
  | array c => exact holdsMore_arrayCommand hc hr
  | symbols s c =>
    rw [carryOut] at hr
    split at hr
    · have hcommand := holdsMore_symbolCommand (w := w) hc
      rwa [Option.some.inj hr] at hcommand
    · obtain ⟨rfl, -⟩ := Prod.mk.inj (Option.some.inj hr)
      exact w.holdsMore_withBuffers w.heap.buffers
  | _ => cases hc

/-! ### Operations of a table of variables -/

section Symbols

variable (hv : w.Valid) (ha : w.heap.Acyclic) (hnd : (w.registers.map (·.1)).Nodup)
  (hval : w.valueAt (.symbols s) = .array t) (ht : w.heap.Knows t)

include hv hval in
/-- A table with bindings is not shared, so separating it does nothing. -/
theorem separate_of_bindings (hb : (w.heap.table t).bindings ≠ 0) :
    w.separate (.symbols s) [] = (w, t) := by
  have hs : w.isShared (w.tableAt (.symbols s)) [] = false := by
    rw [tableAt_of_valueAt hval]
    exact hv.isShared_eq_false Heap.admits_of_mem_nil hb
  rw [separate_of_not_isShared hs, tableAt_of_valueAt hval]

include hv ha hnd hval ht in
/-- A table with bindings is written to where it is. -/
theorem owns_of_bindings (hb : (w.heap.table t).bindings ≠ 0)
    (hw : w.heap.WritesAt ⟨t, k⟩ cs h) (hg : w.heap.Gains t S h) (hS : .array t ∉ S)
    (hv' : Valid { w with heap := h }) : w.Owns (.symbols s) [] ∅ { w with heap := h } := by
  have hops := Heap.admits_of_mem_nil (h := w.heap)
  have hsep := separate_of_bindings hv hval hb
  have howns : w.Owns (.symbols s) [] cs { (w.separate (.symbols s) []).1 with heap := h } :=
    owns_of_writesAt hv ha hnd hops hval ht (by rwa [hsep]) (by rwa [hsep]) (by rwa [hsep])
      (fun _ _ he ↦ by cases he) (by rwa [hsep])
  rw [hsep] at howns
  refine howns.of_subset fun hs ↦ absurd (bindings_of_isShared hv hops hval hs) hb

include hv ha hnd hval ht in
/-- Binding a name writes to a table that the variables own. -/
theorem owns_bindKey {T : SymbolTable} (hT : w.symbolTables.get? s = some T) (l : Label)
    (hc : w.heap.Sound (.cell c)) : w.Owns (.symbols s) [] ∅ (w.bindKey s l c) := by
  have he : w.Effect (fun _ _ ↦ True) (w.bindKey s l c) := effect_bindKey hv hT l hc (.inr trivial)
  have hv' := he.valid hv
  rw [bindKey_eq] at hv' ⊢
  exact owns_of_writesAt hv ha hnd Heap.admits_of_mem_nil hval ht (Heap.writesAt_bind _ _ c)
    (Heap.gains_bind _ _ _ c ∅) (fun he ↦ by cases he) (fun c hc ↦ by cases hc) hv'

end Symbols

/-- A new cell is one more holder of what is put into it, and of nothing else. -/
theorem holders_newCell (w : Workspace) (v : Value) (x : Handle) :
    holders { w with heap := (w.heap.newCell v).1 } x = w.holders x + (handlesOf [v]).count x := by
  have hcells : handlesOf (w.heap.cells.add v).toList =
      handlesOf w.heap.cells.toList ++ handlesOf [v] := by
    rw [Store.toList_add, handlesOf, List.filterMap_append]
    rfl
  rw [holders_eq, holders_eq]
  simp only [share, Heap.newCell, hcells, List.count_append]
  omega

/-- A name bound to a new cell, which holds anything but the table itself. -/
theorem owns_bindKey_newCell (hv : w.Valid) (ha : w.heap.Acyclic)
    (hnd : (w.registers.map (·.1)).Nodup) (hval : w.valueAt (.symbols s) = .array t)
    (ht : w.heap.Knows t) {T : SymbolTable} (hT : w.symbolTables.get? s = some T) (l : Label)
    (hadm : w.heap.Admits v) (hne : v ≠ .array t) :
    w.Owns (.symbols s) [] ∅ (bindKey { w with heap := (w.heap.newCell v).1 } s l
      (w.heap.newCell v).2) := by
  have hq : w.Quietly { w with heap := (w.heap.newCell v).1 } :=
    quietly_heap (.of_quiet (.newCell hadm))
  have howns := owns_bindKey (hq.valid hv) (ha.of_child fun hc ↦ hc) hnd hval ht hT l
    (Heap.sound_newCell v)
  have hshared : isShared { w with heap := (w.heap.newCell v).1 } (w.tableAt (.symbols s)) [] =
      w.isShared (w.tableAt (.symbols s)) [] := by
    have hnone : (handlesOf [v]).count (.table t) = 0 :=
      List.count_eq_zero.2 fun hmem ↦ hne (List.mem_singleton.1 (mem_handlesOf_iff.1 hmem)).symm
    rw [tableAt_of_valueAt hval, isShared, isShared, holders_newCell, hnone]
    rfl
  refine { howns with
    stays := fun hs ↦ howns.stays (hshared.trans hs)
    leaves := fun hs ↦ ?_ }
  obtain ⟨hne', htable, hholds⟩ := howns.leaves (hshared.trans hs)
  refine ⟨hne', htable, fun {q} hq ↦ hholds ?_⟩
  cases q with
  | content c =>
    have hold : w.heap.cells.get? c.index = some _ := hq
    show (w.heap.cells.add v).get? c.index = _
    rw [Store.get?_add, if_neg (Nat.ne_of_lt (Store.lt_fresh_of_get? hold)), hold]
    rfl
  | _ => exact hq

/-- So does declaring a name that is not bound yet. -/
theorem owns_declareSymbol (hv : w.Valid) (ha : w.heap.Acyclic)
    (hnd : (w.registers.map (·.1)).Nodup) (hval : w.valueAt (.symbols s) = .array t)
    (ht : w.heap.Knows t) {T : SymbolTable} (hT : w.symbolTables.get? s = some T) {k : KeySource}
    (hl : w.symbolLabel s k = .ok l) : w.Owns (.symbols s) [] ∅ (w.declareSymbol s k).1 := by
  rw [declareSymbol, hl, tableAt_of_valueAt hval]
  dsimp only
  split
  next c hf =>
    have hb := Nat.ne_of_gt ((hv.heap.table_wellFormed t).bindings_pos hf)
    exact owns_of_bindings (k := l.key) hv ha hnd hval ht hb (.refl _ _ ∅) (.refl _ _ ∅)
      (fun he ↦ by cases he) hv
  next v hf =>
    refine owns_bindKey_newCell hv ha hnd hval ht hT l (hv.heap.admits_value hf) ?_
    rintro rfl
    exact ha.not_below ⟨l.key, hf⟩ .refl
  next hf =>
    exact owns_bindKey_newCell hv ha hnd hval ht hT l Heap.admits_undefined fun he ↦ by cases he

/-- Opening a variable and assigning to it is assigning under its key. -/
theorem setSymbol_eq_storeKey (hv : w.Valid) (hval : w.valueAt (.symbols s) = .array t)
    (ht : w.heap.Knows t) {k : KeySource} (hl : w.symbolLabel s k = .ok l)
    (hadm : w.heap.Admits v) :
    w.setSymbol s k v = ((w.storeKey (.symbols s) l v [v]).1, .ok ()) := by
  have hk := knows_separate hv hadm.of_mem_singleton (tableAt_of_valueAt hval ▸ ht)
  have hstore := Heap.replace_materialize_eq_store hk l.normalize v
  rw [setSymbol, openSymbol, hl]
  dsimp only
  rw [openElement_eq, storeKey_eq, assign, replace]
  dsimp only
  rw [hstore]

/-- And so does deleting a name that is stored. -/
theorem owns_unsetSymbolKey (hv : w.Valid) (ha : w.heap.Acyclic)
    (hnd : (w.registers.map (·.1)).Nodup) (hval : w.valueAt (.symbols s) = .array t)
    (ht : w.heap.Knows t) (hk : (w.heap.table t).stores k.normalize = true) :
    w.Owns (.symbols s) [] ∅ (w.unsetSymbolKey s k) := by
  rw [unsetSymbolKey, tableAt_of_valueAt hval]
  split
  next hf =>
    rw [Table.find?_eq_none_iff.1 hf] at hk
    cases hk
  next u hf =>
    refine owns_unsetKey hv ha hnd hval ht ?_ fun c hc ↦ ?_
    · rw [unsetKey, tableAt_of_valueAt hval, if_pos hk]
    · rw [hf] at hc
      cases hc
  next c hf =>
    have hb := Nat.ne_of_gt ((hv.heap.table_wellFormed t).bindings_pos hf)
    split
    · exact owns_of_bindings (k := k) hv ha hnd hval ht hb (.refl _ _ ∅) (.refl _ _ ∅)
        (fun he ↦ by cases he) hv
    · have hq : w.heap.Quietly (w.heap.setCell c .undefined) :=
        .of_quiet (.setCell (hv.heap.sound_binding hf) Heap.admits_undefined)
      exact owns_of_bindings (k := k) (S := {.undefined}) hv ha hnd hval ht hb
        (Heap.writesAt_setCell (Set.mem_singleton c) _) (Heap.gains_setCell _ _ rfl)
        (fun he ↦ by cases he) ((quietly_heap hq).valid hv)

end Workspace

/-! ### Operations -/

namespace KeyOperation

open Workspace

variable {w : Workspace} {k : KeySource} {l : Label} {t : TableId}

/-- Whether an operation is one on an array, not on a table of variables. -/
def IsOfArray : KeyOperation → Prop
  | openAt _ | insert _ _ | unset _ | get _ | contains _ => True
  | _ => False

/-- The values that an operation is given: what it holds while it runs, or a reference to the cell
that it binds. -/
def given : KeyOperation → List Value
  | bindSymbol _ c => [.reference c]
  | op => op.operands

/-- What an operation stores was given to it. -/
theorem mem_given_of_mem_operands {op : KeyOperation} {v : Value} (hv : v ∈ op.operands) :
    v ∈ op.given := by
  cases op with
  | bindSymbol s c => exact nomatch hv
  | _ => exact hv

/-- Whether an operation writes under its key: taking a key out does where the key is stored. -/
def Writes (w : Workspace) (key : Key) : KeyOperation → Prop
  | get _ | contains _ | getSymbol _ | containsSymbol _ => False
  | unset p => (w.heap.table (w.tableAt p)).stores key = true
  | unsetSymbol s => (w.heap.table (w.tableAt (.symbols s))).stores key = true
  | _ => True

/-- The cells that an operation assigns to: the one that its key refers to. -/
def assigned (w : Workspace) (key : Key) : KeyOperation → Set CellId
  | insert p _ => {c | w.heap.read ⟨w.tableAt p, key⟩ = .reference c}
  | setSymbol s _ => {c | w.heap.read ⟨w.tableAt (.symbols s), key⟩ = .reference c}
  | _ => ∅

/-- **An operation that does not write leaves everything as it is.** -/
theorem attempt_eq_self_of_not_writes (op : KeyOperation)
    (hl : k.label? w.heap (op.limit w) = .ok l) (hw : ¬ op.Writes w l.key) :
    (op.attempt w k).1 = w := by
  have hnormal := Key.normalize_of_isNormal (Heap.isNormal_of_label? hl)
  cases op with
  | get p | contains p | getSymbol s | containsSymbol s => rfl
  | unset p =>
    rw [limit] at hl
    have hw : ¬ (w.heap.table (w.tableAt p)).stores l.key = true := hw
    simp only [attempt, Workspace.unset, hl, unsetKey, hnormal, if_neg hw]
  | unsetSymbol s =>
    have hl : w.symbolLabel s k = .ok l := hl
    have hw : (w.heap.table (w.tableAt (.symbols s))).stores l.key = false :=
      Bool.eq_false_iff.2 hw
    simp only [attempt, Workspace.unsetSymbol, hl, unsetSymbolKey, hnormal,
      Table.find?_eq_none_iff.2 hw]
  | _ => exact absurd trivial hw

/-- **An operation that writes leaves its place the one holder of its table.** -/
theorem owns_attempt (op : KeyOperation) (hv : w.Valid) (ha : w.heap.Acyclic)
    (hnd : (w.registers.map (·.1)).Nodup) (hl : k.label? w.heap (op.limit w) = .ok l)
    (hw : op.Writes w l.key) (hgiven : ∀ v ∈ op.given, w.heap.Admits v)
    (hval : w.valueAt op.place = .array t) (ht : w.heap.Knows t)
    (harray : op.IsOfArray → ∀ s, op.place ≠ .symbols s)
    (hfree : ∀ c ∈ op.assigned w l.key, w.seat op.place ≠ .content c) :
    w.Owns op.place op.operands (op.assigned w l.key) (op.attempt w k).1 := by
  have hops : ∀ v ∈ op.operands, w.heap.Admits v := fun v hv ↦
    hgiven v (mem_given_of_mem_operands hv)
  have hkey := Label.key_normalize_of_isNormal (Heap.isNormal_of_label? hl)
  have hnormal := Key.normalize_of_isNormal (Heap.isNormal_of_label? hl)
  have hplace : ∀ {s}, op.place = .symbols s → ∃ T, w.symbolTables.get? s = some T := by
    intro s hs
    rw [hs, valueAt] at hval
    split at hval
    next T hT => exact ⟨T, hT⟩
    · cases hval
  have hseat := holds_seat hval (Store.lt_fresh_of_get? ht.get?)
  have htable := tableAt_of_valueAt hval
  cases op with
  | get p | contains p | getSymbol s | containsSymbol s => exact absurd hw id
  | openAt p =>
    rw [limit] at hl
    simp only [attempt, Workspace.openAt, hl]
    exact owns_openElement hv ha hnd hops hval ht l
  | insert p v =>
    rw [limit] at hl
    have htable : w.tableAt p = t := htable
    rw [assigned, htable, ← hkey] at hfree ⊢
    simp only [attempt, Workspace.insert, hl]
    exact owns_storeKey hv ha hnd hops hval ht l List.mem_cons_self hfree
  | unset p =>
    rw [limit] at hl
    have hval : w.valueAt p = .array t := hval
    have hw : (w.heap.table (w.tableAt p)).stores l.key = true := hw
    have hsound := hv.sound_of_holds hseat fun s hs ↦ harray trivial s (eq_symbols_of_seat hs)
    simp only [attempt, Workspace.unset, hl]
    show w.Owns p [] ∅ _
    refine owns_unsetKey hv ha hnd hval ht ?_ (find?_ne_binding hv hsound.bindings_eq_zero _)
    rw [unsetKey, hnormal, if_pos hw]
  | declareSymbol s =>
    obtain ⟨T, hT⟩ := hplace rfl
    exact owns_declareSymbol hv ha hnd hval ht hT hl
  | bindSymbol s c =>
    obtain ⟨T, hT⟩ := hplace rfl
    have hl : w.symbolLabel s k = .ok l := hl
    have hc := Heap.admits_reference_iff.1 (hgiven _ List.mem_cons_self)
    simp only [attempt, Workspace.bindSymbol, hl]
    exact owns_bindKey hv ha hnd hval ht hT l hc
  | setSymbol s v =>
    have hadm := hops v List.mem_cons_self
    have htable : w.tableAt (.symbols s) = t := htable
    rw [assigned, htable, ← hkey] at hfree ⊢
    simp only [attempt, setSymbol_eq_storeKey hv hval ht hl hadm]
    exact owns_storeKey hv ha hnd hops hval ht l List.mem_cons_self hfree
  | openSymbol s operands =>
    have hl : w.symbolLabel s k = .ok l := hl
    simp only [attempt, Workspace.openSymbol, hl]
    exact owns_openElement hv ha hnd hops hval ht l
  | unsetSymbol s =>
    have hl : w.symbolLabel s k = .ok l := hl
    have htable : w.tableAt (.symbols s) = t := htable
    have hw : (w.heap.table (w.tableAt (.symbols s))).stores l.key = true := hw
    simp only [attempt, Workspace.unsetSymbol, hl]
    refine owns_unsetSymbolKey hv ha hnd hval ht ?_
    rwa [hnormal, ← htable]

end KeyOperation

/-- An operation on the array at a place. -/
inductive Operation
  | key (op : KeyOperation) (k : KeySource)
  /-- Appends null and gives the new element. -/
  | append (p : Place) (operands : List Value)
  | push (p : Place) (v : Value)

namespace Operation

open Workspace

variable {w : Workspace} {t : TableId}

/-- The workspace after an operation, and its failure. -/
def attempt (w : Workspace) : Operation → Workspace × Option ValueError
  | key op k => op.attempt w k
  | append p operands => ((w.append p operands).1, failure? (w.append p operands).2)
  | push p v => ((w.push p v).1, failure? (w.push p v).2)

/-- Where an operation writes. -/
def place : Operation → Place
  | key op _ => op.place
  | append p _ | push p _ => p

/-- What an operation holds while it separates the array. -/
def operands : Operation → List Value
  | key op _ => op.operands
  | append _ operands => operands
  | push _ v => [v]

/-- The values that an operation was given. -/
def given : Operation → List Value
  | key op _ => op.given
  | append _ operands => operands
  | push _ v => [v]

/-- Whether an operation is one on arrays. -/
def IsOfArray : Operation → Prop
  | key op _ => op.IsOfArray
  | append _ _ | push _ _ => True

/-- Whether an operation writes: where the key is one, as it does under the key. -/
def Writes (w : Workspace) : Operation → Prop
  | key op k => ∃ l, k.label? w.heap (op.limit w) = .ok l ∧ op.Writes w l.key
  | append _ _ | push _ _ => True

/-- The cells that an operation assigns to. -/
def assigned (w : Workspace) : Operation → Set CellId
  | key op k => {c | ∃ l, k.label? w.heap (op.limit w) = .ok l ∧ c ∈ op.assigned w l.key}
  | append _ _ | push _ _ => ∅

/-- Whether an operation can be carried out on a table: its place has an array with that table, and
a table of variables takes the operations on variables only; what it is given is there; and it does
not assign to the cell that the array is in, which is borrowed while the array is changed. -/
structure Ready (op : Operation) (w : Workspace) (t : TableId) : Prop where
  valueAt_eq : w.valueAt op.place = .array t
  knows : w.heap.Knows t
  isOfArray : op.IsOfArray → ∀ s, op.place ≠ .symbols s
  admits : ∀ v ∈ op.given, w.heap.Admits v
  free : ∀ c ∈ op.assigned w, w.seat op.place ≠ .content c

/-- **An operation that fails leaves everything as it is.** -/
theorem attempt_eq_self (op : Operation) {err : ValueError} (he : (op.attempt w).2 = some err) :
    (op.attempt w).1 = w := by
  cases op with
  | key op k => exact op.attempt_eq_self he
  | append p operands => exact append_eq_self_of_error (KeyOperation.failure?_eq_some_iff.1 he)
  | push p v => exact push_eq_self_of_error (KeyOperation.failure?_eq_some_iff.1 he)

/-- **An operation that does not write leaves everything as it is.** -/
theorem attempt_eq_self_of_not_writes (op : Operation) (hw : ¬ op.Writes w) :
    (op.attempt w).1 = w := by
  cases op with
  | key op k =>
    cases hl : k.label? w.heap (op.limit w) with
    | error err =>
      show (op.attempt w k).1 = w
      rw [op.attempt_of_error hl]
    | ok l => exact op.attempt_eq_self_of_not_writes hl fun h ↦ hw ⟨l, hl, h⟩
  | append p operands => exact absurd trivial hw
  | push p v => exact absurd trivial hw

/-- **An operation that writes leaves its place the one holder of its table.** -/
theorem owns_attempt (op : Operation) (hv : w.Valid) (ha : w.heap.Acyclic)
    (hnd : (w.registers.map (·.1)).Nodup) (hw : op.Writes w) (hok : (op.attempt w).2 = none)
    (hr : op.Ready w t) : w.Owns op.place op.operands (op.assigned w) (op.attempt w).1 := by
  cases op with
  | key op k =>
    obtain ⟨l, hl, hw⟩ := hw
    have hfree : ∀ c ∈ op.assigned w l.key, w.seat op.place ≠ .content c := fun c hc ↦
      hr.free c ⟨l, hl, hc⟩
    exact (op.owns_attempt hv ha hnd hl hw hr.admits hr.valueAt_eq hr.knows hr.isOfArray
      hfree).of_subset fun _ c hc ↦ ⟨l, hl, hc⟩
  | append p operands =>
    cases hr' : (w.append p operands).2 with
    | error err =>
      rw [attempt, hr'] at hok
      cases hok
    | ok e => exact owns_append hv ha hnd hr.admits hr.valueAt_eq hr.knows hr'
  | push p v =>
    cases hr' : (w.push p v).2 with
    | error err =>
      rw [attempt, hr'] at hok
      cases hok
    | ok n =>
      exact owns_push hv ha hnd hr.valueAt_eq hr.knows (hr.admits v List.mem_cons_self) hr'

end Operation

namespace Workspace

variable {w : Workspace}

/-- **Storage is copied exactly when it must be.** In every workspace that a program leads to:

* a reading leaves every handle where it is, and an operation that fails or that finds no key to
  take out leaves everything as it is;
* a successful operation that writes through a handle leaves it the one holder of its table. It is
  the table that the handle had if there was no other holder. Otherwise the old table is left as it
  is to all its other holders, but for the cells that the operation itself assigns to;
* a table in which a name is bound never has more than one holder. -/
theorem Reachable.copied_when_shared (hw : w.Reachable) :
    (∀ c w' r, Reads c → w.carryOut c = some (w', r) →
      (∀ t q, w'.Holds t q ↔ w.Holds t q) ∧ (∀ t, w'.heap.table t = w.heap.table t) ∧
        w.held <+: w'.held) ∧
    (∀ (op : Operation) err, (op.attempt w).2 = some err → (op.attempt w).1 = w) ∧
    (∀ op : Operation, ¬ op.Writes w → (op.attempt w).1 = w) ∧
    (∀ (op : Operation) t, op.Writes w → (op.attempt w).2 = none → op.Ready w t →
      w.Owns op.place op.operands (op.assigned w) (op.attempt w).1) ∧
    ∀ t, (w.heap.table t).bindings ≠ 0 → w.holders (.table t) ≤ 1 := by
  have hv := hw.valid
  refine ⟨fun c w' r hc hr ↦ ?_, fun op err ↦ op.attempt_eq_self,
    fun op ↦ op.attempt_eq_self_of_not_writes,
    fun op t ↦ op.owns_attempt hv hw.acyclic hw.registers_nodup, fun t hb ↦ ?_⟩
  · have hmore := holdsMore_of_reads hc hr
    exact ⟨fun t q ↦ hmore.holds_iff, hmore.table_eq, hmore.held_prefix⟩
  · have hs : w.isShared t [] = false := hv.isShared_eq_false Heap.admits_of_mem_nil hb
    simpa [isShared, handlesOf] using hs

/-- A program that puts a list of one reference into the very cell that the reference is to. -/
def enclosing : List Statement :=
  [⟨.array (.constant .null), some "n"⟩, ⟨.array (.cell "n"), some "c"⟩,
    ⟨.array (.list ["c"]), some "a"⟩, ⟨.array (.setCell "c" "a"), none⟩]

/-- Where that program ends: a register and a cell hold one table. -/
def enclosingEnd : Workspace := ((empty.run enclosing).map (·.1)).getD empty

theorem reachable_enclosingEnd : enclosingEnd.Reachable := ⟨enclosing, _, rfl⟩

/-- Appending through the register leaves the table to the cell. -/
theorem Reachable.copied_when_shared_enclosingEnd :
    enclosingEnd.Reachable ∧ enclosingEnd.holders (.table ⟨0⟩) = 2 ∧
      (enclosingEnd.push (.register "a") (.int 5)).1.Holds ⟨1⟩ (.register "a") ∧
      (enclosingEnd.push (.register "a") (.int 5)).1.holders (.table ⟨1⟩) = 1 ∧
      (enclosingEnd.push (.register "a") (.int 5)).1.Holds ⟨0⟩ (.content ⟨0⟩) ∧
      (enclosingEnd.push (.register "a") (.int 5)).1.heap.table ⟨0⟩ =
        enclosingEnd.heap.table ⟨0⟩ := by
  obtain ⟨-, -, -, howns, -⟩ := reachable_enclosingEnd.copied_when_shared
  have howns := howns (.push (.register "a") (.int 5)) ⟨0⟩ trivial rfl
    { valueAt_eq := rfl
      knows := ⟨_, rfl⟩
      isOfArray := fun _ _ he ↦ nomatch he
      admits := fun v hv ↦ by
        rw [List.mem_singleton.1 hv]
        exact Heap.admits_of_handle?_eq_none rfl
      free := fun _ hc ↦ nomatch hc }
  obtain ⟨-, htable, hholds⟩ := howns.leaves rfl
  refine ⟨reachable_enclosingEnd, rfl, howns.sole.holds, howns.holders_eq_one, ?_, htable⟩
  exact hholds (show enclosingEnd.Holds ⟨0⟩ (.content ⟨0⟩) from rfl) (fun he ↦ nomatch he)
    fun _ hc ↦ nomatch hc

/-- Assigning through the reference takes the table from the cell: not every other holder of a table
that is copied keeps it. -/
theorem not_left_to_all_other_holders :
    ¬ ∀ (w : Workspace) (op : Operation) (t : TableId), w.Reachable → op.Writes w →
      (op.attempt w).2 = none → op.Ready w t → w.isShared t op.operands = true →
        ∀ q, w.Holds t q → q ≠ w.seat op.place → (op.attempt w).1.Holds t q := by
  intro h
  have hholds := h enclosingEnd (.key (.insert (.register "a") (.int 5)) (.label (Label.int 0))) ⟨0⟩
    reachable_enclosingEnd ⟨_, rfl, trivial⟩ rfl
    { valueAt_eq := rfl
      knows := ⟨_, rfl⟩
      isOfArray := fun _ _ he ↦ nomatch he
      admits := fun v hv ↦ by
        rw [List.mem_singleton.1 hv]
        exact Heap.admits_of_handle?_eq_none rfl
      free := fun _ _ he ↦ nomatch he }
    rfl (.content ⟨0⟩) rfl fun he ↦ nomatch he
  -- the cell holds what was assigned
  have hcell : ((Operation.key (.insert (.register "a") (.int 5)) (.label (Label.int 0))).attempt
      enclosingEnd).1.heap.cell ⟨0⟩ = .int 5 := rfl
  rw [holds_content_iff, hcell] at hholds
  cases hholds

end Workspace

end SharedValue
