import SharedValue.Proofs.Workspace.Path
import SharedValue.Proofs.Workspace.Preparation

/-!
# What a register stands for

The target of a statement is a register and a path of keys. The register stands for a root
(`Workspace.rootOf`), and the path leads on from there. Reading along a path of keys
(`Workspace.nested`) finds the array that the path leads to (`nested_eq_ok_iff`).

Where a path leads is not changed by what a statement does apart from the arrays on it: coercing
keys and holding operands, delivering a result to a register that the path does not start from, and
releasing what nothing mentions any more (`Leads.withBuffers`, `Leads.hold`, `Leads.withRegisters`,
`Leads.settle`). -/

namespace SharedValue.Workspace

variable {w w' : Workspace} {name : String} {path : List Key} {t u x : TableId} {k : Key}
  {p base : Place} {v : Value}

/-! ### Registers as roots -/

/-- The root that a register stands for. -/
def rootOf (w : Workspace) (name : String) : Root :=
  match w.valueAt (.register name) with
  | .reference c => .cell c
  | _ => .register name

theorem placeOf_eq (w : Workspace) (name : String) : w.placeOf name = (w.rootOf name).place := by
  rw [placeOf, rootOf]
  cases w.valueAt (.register name) <;> rfl

/-- A register stands for a cell if it holds a reference to it. -/
theorem rootOf_eq_cell_iff {c : CellId} :
    w.rootOf name = .cell c ↔ w.valueAt (.register name) = .reference c := by
  rw [rootOf]
  cases w.valueAt (.register name) <;> simp

/-- That cell is borrowed while the register is written through. -/
theorem mem_borrowedBy {c : CellId} (hc : w.rootOf name = .cell c) : c ∈ w.borrowedBy name := by
  rw [borrowedBy, operand, rootOf_eq_cell_iff.1 hc]
  exact List.mem_singleton.2 rfl

/-- The root of a register says which cell is borrowed. -/
theorem borrowedBy_congr (h : w'.rootOf name = w.rootOf name) :
    w'.borrowedBy name = w.borrowedBy name := by
  have hroot : ∀ v : Workspace, v.borrowedBy name =
      match v.rootOf name with
      | .cell c => [c]
      | _ => [] := by
    intro v
    rw [borrowedBy, operand, rootOf]
    cases v.valueAt (.register name) <;> rfl
  rw [hroot, hroot, h]

/-- What a register shows is in it, unless it shows nothing. -/
theorem mem_registers {v : Value} (h : w.valueAt (.register name) = v) (hv : v ≠ .undefined) :
    (name, v) ∈ w.registers := by
  rw [valueAt] at h
  cases hr : w.registers.get? name with
  | none =>
    rw [hr] at h
    exact absurd h.symm hv
  | some u =>
    rw [hr] at h
    rw [show u = _ from h] at hr
    exact Registry.mem_of_get? hr

/-- No register stands for the properties of an object. -/
theorem rootOf_ne_object (w : Workspace) (name : String) (o : ObjectId) :
    w.rootOf name ≠ .object o := by
  rw [rootOf]
  split <;> rintro ⟨⟩

/-- The root of a register with an array in it holds the table. -/
theorem holds_placeOf (h : w.valueAt (w.placeOf name) = .array t) :
    w.Holds t (w.placeOf name) := by
  rw [placeOf_eq] at h ⊢
  cases hroot : w.rootOf name with
  | cell c =>
    rw [hroot] at h
    exact holds_content_iff.2 h
  | register n =>
    rw [hroot] at h
    exact mem_registers h fun he ↦ by cases he
  | object o => exact absurd hroot (rootOf_ne_object w name o)

/-- A root that is a register is the register itself. -/
theorem rootOf_eq_register {n : String} (h : w.rootOf name = .register n) : n = name := by
  rw [rootOf] at h
  split at h
  · cases h
  · exact (Root.register.inj h).symm

/-- A register keeps its root if it keeps its value. -/
theorem rootOf_congr (h : w'.registers.get? name = w.registers.get? name) :
    w'.rootOf name = w.rootOf name := by
  rw [rootOf, rootOf, valueAt, valueAt, h]

/-- A root with an array in it is the root of its register. -/
theorem rootOf_of_valueAt (h : w.valueAt (.register name) = .array t) :
    w.rootOf name = .register name := by
  rw [rootOf, h]

/-! ### Reading -/

/-- The array at the end of a path of keys in a value. A key that is not there stands for null,
which is no array. -/
def nested (w : Workspace) (v : Value) : List Key → Except ValueError TableId
  | [] => v.expectArray
  | k :: path => do
    let t ← v.expectArray
    w.nested ((w.heap.get? t k).getD .null) path

/-- Only an array has anything nested in it. -/
theorem exists_array_of_nested (h : w.nested v path = .ok t) : ∃ u, v = .array u := by
  cases path with
  | nil => exact ⟨t, expectArray_eq_ok_iff.1 h⟩
  | cons k path =>
    obtain ⟨u, hu, -⟩ := Except.bind_eq_ok_iff.1 h
    exact ⟨u, expectArray_eq_ok_iff.1 hu⟩

/-- What stands for null is no array. -/
theorem eq_some_array_of_getD {o : Option Value} (h : o.getD .null = .array u) :
    o = some (.array u) := by
  cases o with
  | none => cases h
  | some v => exact congrArg some h

/-- An element that shows an array holds it. -/
theorem get?_eq_array_iff (hv : w.Valid) (ht : w.heap.Sound (.table t)) :
    w.heap.get? t k = some (.array x) ↔ w.Holds x (.element ⟨t, k.normalize⟩) := by
  show _ ↔ (w.heap.table t).find? k.normalize = _
  rw [Heap.get?, Table.get?_eq_bind]
  constructor
  · intro hget
    obtain ⟨s, hf, hl⟩ := Option.bind_eq_some_iff.1 hget
    obtain ⟨v, rfl⟩ := hv.heap.exists_value ht hf
    rw [hf]
    cases v <;> simp_all [Slot.load, Value.shown]
  · intro hf
    rw [hf]
    rfl

/-- **Reading along a path finds the array that the path leads to.** -/
theorem nested_eq_ok_iff (hv : w.Valid) (hval : w.valueAt p = .array u) (hold : w.Holds u p)
    (hsym : ∀ name, p ≠ .symbols name) :
    w.nested (.array u) path = .ok t ↔ w.Leads t p (path.map Key.normalize) := by
  induction path generalizing u p with
  | nil =>
    constructor
    · intro h
      obtain rfl : u = t := Except.ok.inj h
      exact .here hval hold
    · intro h
      cases h with
      | here hv' _ => rw [← Value.array.inj (hval.symm.trans hv')]; rfl
  | cons k path ih =>
    have hu := hv.sound_of_holds hold hsym
    have hrest := fun {x} (hx : w.Holds x (.element ⟨u, k.normalize⟩)) ↦
      ih (valueAt_element hx) hx fun _ he ↦ by cases he
    constructor
    · intro h
      have h : w.nested ((w.heap.get? u k).getD .null) path = .ok t := h
      obtain ⟨x, hx⟩ := exists_array_of_nested h
      rw [hx] at h
      have hf := (get?_eq_array_iff hv hu).1 (eq_some_array_of_getD hx)
      exact .there hval hold ((hrest hf).1 h)
    · intro h
      cases h with
      | @there _ y _ _ hv' _ hlead =>
        obtain rfl := Value.array.inj (hval.symm.trans hv')
        obtain ⟨x, -, hx⟩ := hlead.exists_holds
        show w.nested ((w.heap.get? u k).getD .null) path = .ok t
        rw [(get?_eq_array_iff hv hu).2 hx]
        exact (hrest hx).2 hlead

/-- One step of reading along a path of labels. -/
theorem followReading_cons {l : Label} (hl : l.key.IsNormal) (rest : List Label) :
    w.followReading t ((l :: rest).map Label.toValue) =
      ((w.heap.get? t l.key).getD .null).expectArray >>= fun u ↦
        w.followReading u (rest.map Label.toValue) := by
  obtain ⟨l', hl', hkey⟩ := exists_coerceKey_toValue w.heap l hl
  rw [List.map_cons, followReading, hl', ← hkey]
  rfl

/-! ### What a path has no use for -/

/-- Buffers have no part in where a path leads. -/
theorem Leads.withBuffers (hl : w.Leads t p path) (n : Nat) : (w.withBuffers n).Leads t p path := by
  refine hl.congr fun {x} hv hh ↦ ⟨?_, ?_, fun _ ↦ rfl⟩
  · cases p <;> exact hv
  · cases p <;> exact hh

theorem Leads.hold (hl : w.Leads t p path) (vs : List Value) : (w.hold vs).Leads t p path := by
  refine hl.congr fun {x} hv hh ↦ ⟨?_, ?_, fun _ ↦ rfl⟩
  · cases p <;> exact hv
  · cases p <;> exact hh

theorem sound_withBuffers_iff {n : Nat} {x : Handle} :
    (w.withBuffers n).heap.Sound x ↔ w.heap.Sound x := by
  cases x <;> exact Iff.rfl

/-- Buffers have no part in validity. -/
theorem valid_withBuffers_iff {n : Nat} : (w.withBuffers n).Valid ↔ w.Valid := by
  have hvalid : ∀ (v : Workspace) (m : Nat), v.Valid → (v.withBuffers m).Valid := by
    intro v m hv
    exact {
      heap := ⟨fun hi ↦ hv.heap.wellFormed hi, fun hx ↦ sound_withBuffers_iff.2 (hv.heap.sound hx)⟩
      admits_register := fun hp x hx ↦ sound_withBuffers_iff.2 (hv.admits_register hp x hx)
      admits_held := fun hu x hx ↦ sound_withBuffers_iff.2 (hv.admits_held hu x hx)
      knows := fun hp ↦ hv.knows hp
      names_nodup := hv.names_nodup
      tables_inj := hv.tables_inj }
  exact ⟨fun hv ↦ hvalid (w.withBuffers n) w.heap.buffers hv, hvalid w n⟩

/-- Keys are looked up as their normal forms. -/
theorem mapM_key (w : Workspace) (path : List Key) :
    (path.map KeyTerm.key).mapM w.keyOf = .ok (path.map Key.normalize) := by
  induction path with
  | nil => rfl
  | cons k path ih =>
    rw [List.map_cons, List.mapM_cons, ih]
    rfl

/-- So they are normal. -/
theorem isNormal_of_map_key {ls : List Label} (h : ls.map (·.key) = path.map Key.normalize) :
    ∀ l ∈ ls, l.key.IsNormal := by
  intro l hl
  have hmem : l.key ∈ path.map Key.normalize := h ▸ List.mem_map_of_mem hl
  obtain ⟨k, -, he⟩ := List.mem_map.1 hmem
  rw [← he]
  exact k.normalize_isNormal

/-- Nor for registers that it does not start from. -/
theorem Leads.withRegisters (hl : w.Leads t base path) {registers : Registry Value}
    (hr : ∀ {name}, base = .register name → registers.get? name = w.registers.get? name) :
    Leads { w with registers := registers } t base path := by
  refine hl.congr fun {x} hval hold ↦ ?_
  have hsame : valueAt { w with registers := registers } base = w.valueAt base := by
    cases base with
    | register name =>
      rw [valueAt, hr rfl]
      rfl
    | _ => rfl
  refine ⟨hsame.trans hval, ?_, fun _ ↦ rfl⟩
  cases base with
  | register name => exact mem_registers (hsame.trans hval) fun he ↦ by cases he
  | _ => exact hold

/-! ### The end of a command -/

/-- What is mentioned when a command has ended. -/
def mentioned (w : Workspace) : List Handle :=
  { w with held := [] }.roots ++ w.settle.heap.handles

/-- What is mentioned is as it was when a command has ended. -/
theorem agree_settle {x : Handle} (hm : x ∈ w.mentioned) : w.heap.Agree w.settle.heap x :=
  (released_settle w).agree hm

/-- What is inside a table that is mentioned is mentioned. -/
theorem mem_mentioned_of_below (hm : .table t ∈ w.mentioned) (hb : w.heap.Below t x) :
    .table x ∈ w.mentioned := by
  induction hb with
  | refl => exact hm
  | @tail u y _ hc ih =>
    obtain ⟨k, hf⟩ := hc
    rw [← (agree_settle ih).table] at hf
    exact List.mem_append_right _ (Heap.mem_handles_of_table (Heap.get?_of_find? hf)
      (Table.mem_handles_of_find? hf rfl))

/-- What a register mentions is mentioned. -/
theorem mem_mentioned_of_register {v : Value} {y : Handle} (hr : (name, v) ∈ w.registers)
    (hy : v.handle? = some y) : y ∈ w.mentioned :=
  List.mem_append_left _ (mem_roots_of_register (w := { w with held := [] }) hr hy)

/-- Whether the end of a command leaves the array in a place there. -/
structure Kept (w : Workspace) (p : Place) (u : TableId) : Prop where
  mem_mentioned : .table u ∈ w.mentioned
  valueAt : w.settle.valueAt p = .array u
  holds : w.settle.Holds u p

/-- An array in a register is kept. -/
theorem kept_register (hval : w.valueAt (.register name) = .array u) :
    w.Kept (.register name) u :=
  ⟨mem_mentioned_of_register (mem_registers hval fun he ↦ by cases he) rfl, hval,
    mem_registers (w := w.settle) hval fun he ↦ by cases he⟩

/-- The array behind a table of variables is kept. -/
theorem kept_symbols (hold : w.Holds u (.symbols name))
    (hval : w.valueAt (.symbols name) = .array u) :
    w.Kept (.symbols name) u := by
  refine ⟨?_, hval, hold⟩
  obtain ⟨s, hs, rfl⟩ := hold
  exact List.mem_append_left _ (mem_roots_of_symbolTable (w := { w with held := [] }) hs)

/-- An array in a cell that is mentioned is kept. -/
theorem kept_content {c : CellId} (hc : .cell c ∈ w.mentioned) (hold : w.Holds u (.content c)) :
    w.Kept (.content c) u := by
  have hcell : w.settle.heap.cells.get? c.index = some (.array u) :=
    Eq.trans (agree_settle hc) hold
  refine ⟨List.mem_append_right _ (Heap.mem_handles_of_cell hcell rfl), ?_, hcell⟩
  show w.settle.heap.cell c = _
  rw [Heap.cell, hcell]
  rfl

/-- The properties of an object that is mentioned are kept. -/
theorem kept_properties {o : ObjectId} (ho : .object o ∈ w.mentioned)
    (hold : w.Holds u (.properties o)) : w.Kept (.properties o) u := by
  obtain ⟨r, hr, rfl⟩ := hold
  have hobject : w.settle.heap.objects.get? o.index = some r :=
    Eq.trans (agree_settle ho) hr
  refine ⟨List.mem_append_right _ (Heap.mem_handles_of_object hobject), ?_, r, hobject, rfl⟩
  show Value.array (w.settle.heap.properties o) = _
  rw [Heap.properties, hobject]
  rfl

/-- **The end of a command leaves every array on a path whose first one is kept.** -/
theorem Leads.settle (hl : w.Leads t base path)
    (hkept : ∀ {u}, w.valueAt base = .array u → w.Holds u base → w.Kept base u) :
    w.settle.Leads t base path ∧ w.settle.heap.table t = w.heap.table t := by
  obtain ⟨x, hx, hold, hb⟩ := hl.exists_below
  have htable := fun {u y} (hk : w.Kept base u) (hy : w.heap.Below u y) ↦
    (agree_settle (mem_mentioned_of_below hk.mem_mentioned hy)).table
  refine ⟨hl.congr fun {u} hval hold ↦ ?_, htable (hkept hx hold) hb⟩
  have hk := hkept hval hold
  exact ⟨hk.valueAt, hk.holds, fun hy ↦ htable hk hy⟩

/-! ### Delivering a result -/

/-- Delivering a result changes at most the register that is to have it. -/
theorem deliver_eq (w : Workspace) (into : Option String) (r : Except Failure (List Outcome)) :
    ∃ registers : Registry Value, w.deliver into r = { w with registers := registers } ∧
      ∀ {m}, into ≠ some m → registers.get? m = w.registers.get? m := by
  rw [deliver.eq_def]
  split
  next n v _ =>
    refine ⟨w.registers.set n v, rfl, fun {m} hm ↦ ?_⟩
    rw [Registry.get?_set, if_neg fun he ↦ hm (congrArg some he.symm)]
  · exact ⟨w.registers, rfl, fun _ ↦ rfl⟩

end SharedValue.Workspace
