import SharedValue.Proofs.Heap.Operations
import SharedValue.Proofs.Heap.Release
import SharedValue.Proofs.Registry
import SharedValue.Proofs.Workspace.Holders
import SharedValue.Symbols

/-!
# Valid workspaces and what can happen to them

A workspace is *valid* when its heap is, everything held outside the heap is sound, and the tables
behind the tables of variables are there and are all different. A table with bindings is then held
by its table of variables and by nothing else, and so it is never shared
(`Valid.isShared_eq_false`).

As for heaps, the changes of a workspace are listed once, with what each of them asks for. The quiet
ones (`Workspace.Quiet`) leave every bound slot alone and take no entry out. Three changes are not
quiet (`Workspace.Loud`): an entry is taken out, a name is bound to a cell, and a table of variables
is made anew. Every change keeps a workspace valid (`Quiet.valid`, `Loud.valid`), and so does the
end of a command (`Valid.settle`). -/

namespace SharedValue.Workspace

variable {w w' w'' : Workspace}

/-! ### Validity -/

/-- The invariant of workspaces. -/
structure Valid (w : Workspace) : Prop where
  heap : w.heap.Valid
  /-- What registers hold is sound. -/
  admits_register : ∀ {p : String × Value}, p ∈ w.registers → w.heap.Admits p.2
  /-- What a running command holds is sound. -/
  admits_held : ∀ {v : Value}, v ∈ w.held → w.heap.Admits v
  /-- The table behind a table of variables is there. -/
  knows : ∀ {p : String × SymbolTable}, p ∈ w.symbolTables → w.heap.Knows p.2.table
  names_nodup : (w.symbolTables.map (·.1)).Nodup
  /-- No table is behind two tables of variables. -/
  tables_inj : ∀ {p q : String × SymbolTable}, p ∈ w.symbolTables → q ∈ w.symbolTables →
    p.2.table = q.2.table → p.1 = q.1

/-- The empty workspace is valid. -/
theorem valid_empty : empty.Valid where
  heap := ⟨fun hi ↦ by simp [empty, Heap.empty, Store.empty, Store.get?] at hi, fun hx ↦ nomatch hx⟩
  admits_register := fun hp ↦ nomatch hp
  admits_held := fun hv ↦ nomatch hv
  knows := fun hp ↦ nomatch hp
  names_nodup := List.nodup_nil
  tables_inj := fun hp ↦ nomatch hp

namespace Valid

/-- What a place shows may be put anywhere, unless it is a table of variables. -/
theorem admits_valueAt (hv : w.Valid) {p : Place} (hp : ∀ name, p ≠ .symbols name)
    (ho : ∀ o, p = .properties o → w.heap.Sound (.object o)) : w.heap.Admits (w.valueAt p) := by
  cases p with
  | register name =>
    rw [valueAt]
    cases hr : w.registers.get? name with
    | none => exact Heap.admits_undefined
    | some v => exact hv.admits_register (Registry.mem_of_get? hr)
  | symbols name => exact absurd rfl (hp name)
  | element e => exact Heap.admits_read hv.heap e
  | content c => exact hv.heap.admits_cell c
  | properties o => exact Heap.admits_array_iff.2 (hv.heap.sound_properties (ho o rfl))

/-- The table behind a table of variables is there. -/
theorem knows_of_get? (hv : w.Valid) {name : String} {s : SymbolTable}
    (hs : w.symbolTables.get? name = some s) : w.heap.Knows s.table :=
  hv.knows (Registry.mem_of_get? hs)

end Valid

/-! ### Sharing -/

/-- A table is behind at most one table of variables. -/
private theorem count_symbolTables_le_one {l : Registry SymbolTable} (hnd : (l.map (·.1)).Nodup)
    (hinj : ∀ {p q}, p ∈ l → q ∈ l → p.2.table = q.2.table → p.1 = q.1) (t : TableId) :
    (l.map fun s ↦ Handle.table s.2.table).count (.table t) ≤ 1 := by
  induction l with
  | nil => exact Nat.zero_le 1
  | cons p rest ih =>
    rw [List.map_cons, List.nodup_cons] at hnd
    have hrest := ih hnd.2 fun hq hr ↦ hinj (List.mem_cons_of_mem _ hq) (List.mem_cons_of_mem _ hr)
    rw [List.map_cons, List.count_cons]
    split
    next hp =>
      obtain rfl : p.2.table = t := by simpa using hp
      -- another one would have the name of the first
      have hnone : (rest.map fun s ↦ Handle.table s.2.table).count (.table p.2.table) = 0 := by
        rw [List.count_eq_zero]
        intro hmem
        obtain ⟨q, hq, he⟩ := List.mem_map.1 hmem
        have hname := hinj (List.mem_cons_of_mem _ hq) List.mem_cons_self (Handle.table.inj he)
        exact hnd.1 (hname ▸ List.mem_map_of_mem hq)
      omega
    · exact hrest

private theorem sound_of_mem_handlesOf {h : Heap} {vs : List Value} (ha : ∀ v ∈ vs, h.Admits v)
    {x : Handle} (hx : x ∈ handlesOf vs) : h.Sound x := by
  obtain ⟨v, hv, hx⟩ := List.mem_filterMap.1 hx
  exact ha v hv x hx

/-- **A shared table has no bindings.** Its holders cannot all be tables of variables, and every
other mention of a table is sound. -/
theorem Valid.sound_of_isShared (hv : w.Valid) {operands : List Value}
    (hops : ∀ v ∈ operands, w.heap.Admits v) {t : TableId} (hs : w.isShared t operands = true) :
    w.heap.Sound (.table t) := by
  have hmany : 1 < w.holders (.table t) + (handlesOf operands).count (.table t) := by
    simpa [isShared] using hs
  have hone := count_symbolTables_le_one hv.names_nodup hv.tables_inj t
  refine Classical.byContradiction fun hns ↦ ?_
  have hreg : (handlesOf (w.registers.map (·.2))).count (.table t) = 0 := by
    refine List.count_eq_zero.2 fun hx ↦ hns (sound_of_mem_handlesOf (fun v hmem ↦ ?_) hx)
    obtain ⟨p, hp, rfl⟩ := List.mem_map.1 hmem
    exact hv.admits_register hp
  have hheld : (handlesOf w.held).count (.table t) = 0 :=
    List.count_eq_zero.2 fun hx ↦ hns (sound_of_mem_handlesOf (fun v ↦ hv.admits_held) hx)
  have hoper : (handlesOf operands).count (.table t) = 0 :=
    List.count_eq_zero.2 fun hx ↦ hns (sound_of_mem_handlesOf hops hx)
  have hheap : w.heap.handles.count (.table t) = 0 :=
    List.count_eq_zero.2 fun hx ↦ hns (hv.heap.sound hx)
  simp only [holders, roots, List.count_append] at hmany
  omega

/-- A table with bindings is written to where it is. -/
theorem Valid.isShared_eq_false (hv : w.Valid) {operands : List Value}
    (hops : ∀ v ∈ operands, w.heap.Admits v) {t : TableId} (hb : (w.heap.table t).bindings ≠ 0) :
    w.isShared t operands = false := by
  rw [← Bool.not_eq_true]
  exact fun hs ↦ hb (hv.sound_of_isShared hops hs).bindings_eq_zero

/-! ### Changes -/

/-- One change that takes no entry out and binds nothing. The last one gives a table of variables
another table in place of one without bindings. -/
inductive Quiet (w : Workspace) : Workspace → Prop
  | heap {h : Heap} (hq : w.heap.Quiet h) : Quiet w { w with heap := h }
  | hold {vs : List Value} (ha : ∀ v ∈ vs, w.heap.Admits v) : Quiet w (w.hold vs)
  | setRegister (name : String) {v : Value} (ha : w.heap.Admits v) :
      Quiet w { w with registers := w.registers.set name v }
  | dropRegister (name : String) : Quiet w { w with registers := w.registers.erase name }
  | repoint {name : String} {s : SymbolTable} {t : TableId}
      (hs : w.symbolTables.get? name = some s) (hb : (w.heap.table s.table).bindings = 0)
      (ht : w.heap.Knows t) (hnew : ∀ p ∈ w.symbolTables, p.2.table ≠ t) :
      Quiet w { w with symbolTables := w.symbolTables.set name { s with table := t } }

/-- Any number of quiet changes in turn. -/
def Quietly : Workspace → Workspace → Prop := Relation.ReflTransGen Quiet

/-- Whether the table behind a table of variables is mentioned nowhere else. -/
def Unmentioned (w : Workspace) (t : TableId) : Prop :=
  .table t ∉ w.heap.handles ∧ (∀ p ∈ w.registers, p.2 ≠ .array t) ∧ .array t ∉ w.held

/-- One change that is not quiet. A key that is bound already is bound anew only if `may` allows
it. -/
inductive Loud (w : Workspace) (may : String → Key → Prop) : Workspace → Prop
  | remove {t : TableId} {k : Key} {v : Value} (hf : (w.heap.table t).find? k = some (.value v)) :
      Loud w may { w with heap := w.heap.setTable t ((w.heap.table t).remove k) }
  | bind {name : String} {s : SymbolTable} {l : Label} {c : CellId}
      (hs : w.symbolTables.get? name = some s) (hl : l.key.IsNormal) (hc : w.heap.Sound (.cell c))
      (hu : w.Unmentioned s.table)
      (hmay : (∀ c, (w.heap.table s.table).find? l.key ≠ some (.binding c)) ∨ may name l.key) :
      Loud w may { w with heap := w.heap.bind s.table l c }
  | create (name : String) (config : Config) (hmay : ∀ k, may name k) :
      Loud w may (w.newSymbolTable name config)

namespace Quietly

theorem refl (w : Workspace) : w.Quietly w := Relation.ReflTransGen.refl

theorem trans (hq : w.Quietly w') (hq' : w'.Quietly w'') : w.Quietly w'' :=
  Relation.ReflTransGen.trans hq hq'

theorem of_quiet (hq : w.Quiet w') : w.Quietly w' := .single hq

end Quietly

/-- Quiet changes of the heap are quiet changes of the workspace. -/
theorem quietly_heap {h : Heap} (hq : w.heap.Quietly h) : w.Quietly { w with heap := h } := by
  induction hq with
  | refl => exact .refl w
  | tail _ hq ih => exact ih.tail (.heap hq)

/-! ### What quiet changes keep -/

/-- A quiet change changes the heap quietly. -/
theorem Quiet.heap_quietly (hq : w.Quiet w') : w.heap.Quietly w'.heap := by
  cases hq with
  | heap hq => exact .of_quiet hq
  | _ => exact .refl w.heap

/-- **A quiet change keeps a workspace valid.** -/
theorem Quiet.valid (hq : w.Quiet w') (hv : w.Valid) : w'.Valid := by
  cases hq with
  | heap hq =>
    have hqs := Heap.Quietly.of_quiet hq
    exact { hv with
      heap := hq.valid hv.heap
      admits_register := fun hp ↦ hqs.admits (hv.admits_register hp)
      admits_held := fun hu ↦ hqs.admits (hv.admits_held hu)
      knows := fun hp ↦ hqs.knows (hv.knows hp) }
  | hold ha =>
    refine { hv with admits_held := fun {v} hu ↦ ?_ }
    rcases List.mem_append.1 hu with hu | hu
    · exact hv.admits_held hu
    · exact ha v hu
  | setRegister name ha =>
    refine { hv with admits_register := fun {p} hp ↦ ?_ }
    rcases Registry.mem_set hp with ⟨hp, -⟩ | rfl
    · exact hv.admits_register hp
    · exact ha
  | dropRegister name =>
    exact { hv with admits_register := fun hp ↦ hv.admits_register (Registry.mem_erase hp).1 }
  | repoint hs hb ht hnew =>
    refine { hv with
      knows := fun {p} hp ↦ ?_
      names_nodup := Registry.map_fst_set_nodup hv.names_nodup _ _
      tables_inj := fun {p q} hp hq he ↦ ?_ }
    · rcases Registry.mem_set hp with ⟨hp, -⟩ | rfl
      · exact hv.knows hp
      · exact ht
    · rcases Registry.mem_set hp with ⟨hp, -⟩ | rfl <;> rcases Registry.mem_set hq with ⟨hq, -⟩ | rfl
      · exact hv.tables_inj hp hq he
      · exact absurd he (hnew p hp)
      · exact absurd he.symm (hnew q hq)
      · rfl

namespace Quietly

theorem heap_quietly (hq : w.Quietly w') : w.heap.Quietly w'.heap := by
  induction hq with
  | refl => exact .refl w.heap
  | tail _ hq ih => exact ih.trans hq.heap_quietly

theorem valid (hq : w.Quietly w') (hv : w.Valid) : w'.Valid := by
  induction hq with
  | refl => exact hv
  | tail _ hq ih => exact hq.valid ih

/-- What was there is still there. -/
theorem admits (hq : w.Quietly w') {v : Value} (ha : w.heap.Admits v) : w'.heap.Admits v :=
  hq.heap_quietly.admits ha

end Quietly

/-! ### What the other changes keep -/

/-- An entry taken out. -/
private theorem valid_remove (hv : w.Valid) {t : TableId} {k : Key} {v : Value}
    (hf : (w.heap.table t).find? k = some (.value v)) :
    Valid { w with heap := w.heap.setTable t ((w.heap.table t).remove k) } := by
  have ht := Heap.knows_of_find? hf
  have hsound : ∀ {x}, w.heap.Sound x →
      (w.heap.setTable t ((w.heap.table t).remove k)).Sound x := by
    intro x hx
    by_cases hxt : x = .table t
    · subst hxt
      refine ⟨_, by rw [Heap.setTable, Store.get?_set_of_get? ht.get?, if_pos rfl], ?_⟩
      rw [Table.bindings_remove hf]
      exact hx.bindings_eq_zero
    · exact Heap.sound_setTable hxt hx
  exact { hv with
    heap :=
      ⟨hv.heap.wellFormed_setTable ht ((hv.heap.table_wellFormed t).remove k), fun hx ↦ hsound
        ((Heap.mem_handles_setTable ht.get? hx).elim hv.heap.sound fun hx ↦
          hv.heap.sound_of_mem_table (Table.mem_handles_remove hx))⟩
    admits_register := fun hp x hx ↦ hsound (hv.admits_register hp x hx)
    admits_held := fun hu x hx ↦ hsound (hv.admits_held hu x hx)
    knows := fun hp ↦ Heap.knows_setTable ht (hv.knows hp) }

/-- A name bound to a cell. The table is mentioned nowhere but behind its table of variables, so no
handle is unsound for its having bindings. -/
private theorem valid_bind (hv : w.Valid) {name : String} {s : SymbolTable} {l : Label} {c : CellId}
    (hs : w.symbolTables.get? name = some s) (hl : l.key.IsNormal) (hc : w.heap.Sound (.cell c))
    (hu : w.Unmentioned s.table) : Valid { w with heap := w.heap.bind s.table l c } := by
  have ht := hv.knows_of_get? hs
  obtain ⟨T, hT, hwf, hmem⟩ := Heap.exists_table_of_bind hv.heap s.table hl c
  obtain ⟨hheap, hreg, hheld⟩ := hu
  have hne : ∀ {v : Value} {x}, v ≠ .array s.table → v.handle? = some x → x ≠ .table s.table := by
    rintro v x hva hx rfl
    cases v <;> simp [Value.handle?] at hx
    exact hva (congrArg _ hx)
  rw [hT]
  exact { hv with
    heap := by
      refine ⟨hv.heap.wellFormed_setTable ht hwf, fun {x} hx ↦ ?_⟩
      rcases Heap.mem_handles_setTable ht.get? hx with hx | hx
      · exact Heap.sound_setTable (fun he ↦ hheap (he ▸ hx)) (hv.heap.sound hx)
      rcases hmem hx with hx | ⟨s', rfl⟩ | rfl
      · have hx := Heap.mem_handles_of_table ht.get? hx
        exact Heap.sound_setTable (fun he ↦ hheap (he ▸ hx)) (hv.heap.sound hx)
      · trivial
      · exact Heap.sound_setTable (fun he ↦ by cases he) hc
    admits_register := fun {p} hp x hx ↦
      Heap.sound_setTable (hne (hreg p hp) hx) (hv.admits_register hp x hx)
    admits_held := fun {v} hv' x hx ↦
      Heap.sound_setTable (hne (fun he ↦ hheld (he ▸ hv')) hx) (hv.admits_held hv' x hx)
    knows := fun hp ↦ Heap.knows_setTable ht (hv.knows hp) }

/-- A table of variables made anew. -/
private theorem valid_create (hv : w.Valid) (name : String) (config : Config) :
    (w.newSymbolTable name config).Valid := by
  have hq : w.Quietly { w with heap := (w.heap.newTable Table.empty).1 } :=
    quietly_heap (Heap.quietly_newTable_empty w.heap)
  have hv' := hq.valid hv
  have hnew : ∀ {p}, p ∈ w.symbolTables → p.2.table ≠ (w.heap.newTable Table.empty).2 := by
    intro p hp he
    have hlt := Store.lt_fresh_of_get? (hv.knows hp).get?
    rw [he] at hlt
    exact Nat.lt_irrefl _ hlt
  exact { hv' with
    knows := fun {p} hp ↦ by
      rcases Registry.mem_set hp with ⟨hp, -⟩ | rfl
      · exact hv'.knows hp
      · exact (Heap.sound_newTable rfl).knows
    names_nodup := Registry.map_fst_set_nodup hv.names_nodup _ _
    tables_inj := fun {p q} hp hq he ↦ by
      rcases Registry.mem_set hp with ⟨hp, -⟩ | rfl <;> rcases Registry.mem_set hq with ⟨hq, -⟩ | rfl
      · exact hv.tables_inj hp hq he
      · exact absurd he (hnew hp)
      · exact absurd he.symm (hnew hq)
      · rfl }

/-- **No change makes a valid workspace invalid.** -/
theorem Loud.valid {may : String → Key → Prop} (hl : w.Loud may w') (hv : w.Valid) : w'.Valid := by
  cases hl with
  | remove hf => exact valid_remove hv hf
  | bind hs hl hc hu _ => exact valid_bind hv hs hl hc hu
  | create name config _ => exact valid_create hv name config

/-! ### The end of a command -/

/-- The end of a command releases what the registers and the tables of variables do not lead to. -/
theorem released_settle (w : Workspace) :
    Heap.Released { w with held := [] }.roots w.heap w.settle.heap :=
  Heap.released_release _ _

/-- What a register mentions is a root. -/
theorem mem_roots_of_register {p : String × Value} (hp : p ∈ w.registers) {x : Handle}
    (hx : p.2.handle? = some x) : x ∈ w.roots :=
  List.mem_append_left _ (List.mem_append_left _
    (List.mem_filterMap.2 ⟨p.2, List.mem_map_of_mem hp, hx⟩))

/-- The table of a table of variables is a root. -/
theorem mem_roots_of_symbolTable {p : String × SymbolTable} (hp : p ∈ w.symbolTables) :
    .table p.2.table ∈ w.roots :=
  List.mem_append_left _ (List.mem_append_right _ (List.mem_map.2 ⟨p, hp, rfl⟩))

/-- The table behind a table of variables is not released. -/
theorem agree_settle_of_symbolTable {p : String × SymbolTable} (hp : p ∈ w.symbolTables) :
    w.heap.Agree w.settle.heap (.table p.2.table) :=
  (released_settle w).agree (List.mem_append_left _
    (mem_roots_of_symbolTable (w := { w with held := [] }) hp))

/-- The end of a command keeps a workspace valid. -/
theorem Valid.settle (hv : w.Valid) : w.settle.Valid where
  heap := (released_settle w).valid hv.heap
  admits_register := fun hp x hx ↦ (released_settle w).sound (hv.admits_register hp x hx)
    (mem_roots_of_register (w := { w with held := [] }) hp hx)
  admits_held := fun hu ↦ nomatch hu
  knows := fun hp ↦ (agree_settle_of_symbolTable (w := w) hp).knows (hv.knows hp)
  names_nodup := hv.names_nodup
  tables_inj := hv.tables_inj

end SharedValue.Workspace
