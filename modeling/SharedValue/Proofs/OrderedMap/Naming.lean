import SharedValue.Proofs.Binding
import SharedValue.Proofs.OrderedMap.Mirror

/-!
# What names an array

A program can change an array where it is: in a register, or in the cell that a register holds; in a
variable; as the properties of an object. In a register or a variable it can also change an array
that is nested in the one there. `ArrayName` lists these names, and `Workspace.arrayNamed` says
which array each of them means.

Writing starts from a place outside all arrays, whatever the name (`Workspace.Starts`). A variable
is the one name that can start from either of two places. An entry that is not bound is an element
of the table of variables, and to change the array in it is to change an array nested in that table.
An entry that is bound is the content of its cell, and every change of the one is the same change of
the other (`edit_of_binding`, `editFrom_of_binding`). -/

namespace SharedValue

/-- A name that a program has for an array. -/
inductive ArrayName
  /-- A register, or the cell that it holds, and the keys on the way from there. -/
  | register (name : String) (path : List Key)
  /-- A variable, and the keys on the way from there. -/
  | variable (table : String) (k : Key) (path : List Key)
  /-- The properties of the object in a register. -/
  | properties (object : String)

namespace ArrayName

/-- The keys on the way to an array. -/
def path : ArrayName → List Key
  | .register _ path | .variable _ _ path => path
  | .properties _ => []

/-- The register that a name has need of. -/
def register? : ArrayName → Option String
  | .register name _ | .properties name => some name
  | .variable _ _ _ => none

end ArrayName

namespace Workspace

variable {w w' w₁ : Workspace} {a : ArrayName} {base : Place} {path : List Key}
  {borrowed : List CellId} {t u : TableId} {k : Key} {c : CellId} {x : Element} {s name : String}

/-- The value that the way to an array starts with: what the register stands for, what the variable
shows, or the properties of the object. -/
def startOf (w : Workspace) : ArrayName → Value
  | .register name _ => w.valueAt (w.placeOf name)
  | .variable s k _ => (w.heap.get? (w.tableAt (.symbols s)) k).getD .null
  | .properties name =>
    match w.operand name with
    | .object o => .array (w.heap.properties o)
    | _ => .null

/-- The array that a name means. -/
def arrayNamed (w : Workspace) (a : ArrayName) : Except ValueError TableId :=
  w.nested (w.startOf a) a.path

/-- The cell that is borrowed while the array is changed: the one that the register holds, or that
the variable is bound to. -/
def borrowedFor (w : Workspace) : ArrayName → List CellId
  | .register name _ => w.borrowedBy name
  | .variable s k _ => (w.heap.binding? ⟨w.tableAt (.symbols s), k.normalize⟩).toList
  | .properties _ => []

/-! ### Where writing starts -/

/-- Where writing to the array with a name starts, by which keys it goes on from there, and which
cells are borrowed meanwhile. -/
inductive Starts (w : Workspace) : ArrayName → Place → List Key → List CellId → Prop
  | register {name : String} {path : List Key} :
      Starts w (.register name path) (w.placeOf name) (path.map Key.normalize) (w.borrowedBy name)
  | plain {s : String} {k : Key} {path : List Key} :
      Starts w (.variable s k path) (.symbols s) (k.normalize :: path.map Key.normalize) []
  | bound {s : String} {k : Key} {path : List Key} {c : CellId}
      (hc : w.Attached s k.normalize c) :
      Starts w (.variable s k path) (.content c) (path.map Key.normalize) [c]
  | properties {name : String} {o : ObjectId} (ho : w.operand name = .object o) :
      Starts w (.properties name) (.properties o) [] []

/-- Writing starts outside all arrays. -/
theorem Starts.isOutside (hs : w.Starts a base path borrowed) : base.IsOutside := by
  cases hs with
  | register =>
    rw [placeOf_eq]
    exact Root.isOutside_place _
  | _ => exact fun _ he ↦ by cases he

/-- The cell that writing starts from is borrowed. -/
theorem Starts.mem_borrowed (hs : w.Starts a base path borrowed) (hc : base = .content c) :
    c ∈ borrowed := by
  cases hs with
  | @register name path =>
    rw [placeOf_eq] at hc
    exact mem_borrowedBy (Root.place_inj (.cell c) hc)
  | plain => cases hc
  | bound _ =>
    obtain rfl := Place.content.inj hc
    exact List.mem_singleton_self _
  | properties _ => cases hc

/-! ### Entries of a table of variables -/

/-- An entry that is bound, as an element. -/
theorem Attached.binding? (ha : w.Attached s k c) :
    w.heap.binding? ⟨w.tableAt (.symbols s), k⟩ = some c := by
  obtain ⟨S, hS, hf⟩ := ha
  rw [Heap.binding?_eq_some_iff, tableAt_symbols hS]
  exact hf

/-- A path that goes on from an entry of a table of variables starts with an entry that is not
bound. -/
theorem Leads.binding?_eq_none (hl : w.Leads t (.symbols s) (k :: path)) :
    w.heap.binding? ⟨w.tableAt (.symbols s), k⟩ = none := by
  cases hl with
  | there hval _ hl =>
    obtain ⟨x, -, hf⟩ := hl.exists_holds
    have hf : (w.heap.table _).find? k = some (.value (.array x)) := hf
    rw [tableAt_of_valueAt hval, Heap.binding?, Heap.slot?, hf]

/-- A variable that shows an array has it in its entry, or in the cell that it is bound to. -/
theorem get?_symbols_eq_array_iff :
    w.heap.get? (w.tableAt (.symbols s)) k = some (.array u) ↔
      (∃ T, w.valueAt (.symbols s) = .array T ∧ w.Holds T (.symbols s) ∧
        w.Holds u (.element ⟨T, k.normalize⟩)) ∨
      ∃ c, w.Attached s k.normalize c ∧ w.valueAt (.content c) = .array u := by
  rw [Heap.get?, Table.get?_eq_bind]
  constructor
  · intro hget
    obtain ⟨sl, hf, hl⟩ := Option.bind_eq_some_iff.1 hget
    cases hS : w.symbolTables.get? s with
    | none =>
      -- without a table of variables there is no entry
      have hfresh : w.tableAt (.symbols s) = w.copyId :=
        tableAt_eq_fresh fun t ht ↦ by rw [valueAt, hS] at ht; cases ht
      rw [hfresh] at hf
      exact absurd (Store.lt_fresh_of_get? (Heap.get?_of_find? hf)) (Nat.lt_irrefl _)
    | some S =>
      rw [tableAt_symbols hS] at hf
      cases sl with
      | value v =>
        refine .inl ⟨S.table, valueAt_symbols hS, ⟨S, Registry.mem_of_get? hS, rfl⟩, ?_⟩
        show (w.heap.table S.table).find? _ = _
        rw [hf]
        cases v <;> simp_all [Slot.load, Value.shown]
      | binding c =>
        rw [Slot.load_binding] at hl
        split at hl
        · cases hl
        · exact .inr ⟨c, ⟨S, hS, hf⟩, Option.some.inj hl⟩
  · rintro (⟨T, hval, -, hf⟩ | ⟨c, ⟨S, hS, hf⟩, hc⟩)
    · rw [tableAt_of_valueAt hval, show (w.heap.table T).find? _ = _ from hf]
      rfl
    · rw [tableAt_symbols hS, hf, Option.bind_some, Slot.load_binding,
        show w.heap.cell c = _ from hc]
      rfl

/-! ### The content of a bound element -/

section Bound

variable (hx : w.heap.binding? x = some c)

include hx

/-- A bound element shows the content of its cell. -/
theorem valueAt_of_binding : w.valueAt (.element x) = w.valueAt (.content c) := by
  show w.heap.read x = _
  rw [Heap.read, Heap.binding?_eq_some_iff.1 hx]
  rfl

theorem tableAt_of_binding : w.tableAt (.element x) = w.tableAt (.content c) := by
  rw [tableAt, tableAt, valueAt_of_binding hx]

/-- What is put into it is put into the cell. -/
theorem putAt_of_binding (v : Value) : w.putAt (.element x) v = w.putAt (.content c) v := by
  show { w with heap := w.heap.write x v } = _
  rw [Heap.write, Heap.binding?_eq_some_iff.1 hx]
  rfl

/-- A new table leaves the element bound. -/
theorem binding?_newTable_of_binding (T : Table) :
    (w.heap.newTable T).1.binding? x = some c := by
  have hf := Heap.binding?_eq_some_iff.1 hx
  rw [Heap.binding?_eq_some_iff, Heap.slot?,
    Heap.table_newTable_of_knows (Heap.knows_of_find? hf)]
  exact hf

/-- Separating the array in it separates the one in the cell. -/
theorem separate_of_binding (operands : List Value) :
    w.separate (.element x) operands = w.separate (.content c) operands := by
  rw [separate, separate, tableAt_of_binding hx]
  dsimp only
  split
  · rw [putAt_of_binding (w := { w with heap := (w.heap.newTable _).1 })
      (binding?_newTable_of_binding hx _)]
  · rfl

theorem openElement_of_binding (l : Label) (operands : List Value) :
    w.openElement (.element x) l operands = w.openElement (.content c) l operands := by
  rw [openElement, openElement, separate_of_binding hx]

theorem openAt_of_binding (k : KeySource) :
    w.openAt (.element x) k = w.openAt (.content c) k := by
  rw [openAt, openAt]
  simp only [openElement_of_binding hx]

theorem insertKey_of_binding (l : Label) (v : Value) :
    w.insertKey (.element x) l v = w.insertKey (.content c) l v := by
  rw [insertKey, insertKey, storeKey, storeKey, separate_of_binding hx]

theorem push_of_binding (v : Value) : w.push (.element x) v = w.push (.content c) v := by
  rw [push, push, append, append, tableAt_of_binding hx]
  simp only [separate_of_binding hx]

theorem unsetKey_of_binding (k : Key) :
    w.unsetKey (.element x) k = w.unsetKey (.content c) k := by
  rw [unsetKey, unsetKey, tableAt_of_binding hx, separate_of_binding hx]

theorem clear_of_binding : w.clear (.element x) = w.clear (.content c) :=
  putAt_of_binding (w := { w with heap := (w.heap.newTable _).1 })
    (binding?_newTable_of_binding hx _) _

/-- **To change the array in a bound element is to change the one in its cell.** -/
theorem edit_of_binding {e : Edit Label Value} (he : e.IsOfMap) :
    w.edit (.element x) borrowed e = w.edit (.content c) borrowed e := by
  cases e with
  | clear => rw [edit, edit, clear_of_binding hx]
  | insert l v => rw [edit, edit, tableAt_of_binding hx, insertKey_of_binding hx]
  | push v => rw [edit, edit, push_of_binding hx]
  | unset l => rw [edit, edit, unsetKey_of_binding hx]
  | «open» l deeds => rw [edit, edit, openElement_of_binding hx]
  | extend pairs => exact absurd he id
  | append deeds => exact absurd he id

/-- And so it is for an array that is nested in that one. -/
theorem editFrom_of_binding {e : Edit Label Value} (he : e.IsOfMap) (labels : List Label) :
    w.editFrom (.element x) labels borrowed e = w.editFrom (.content c) labels borrowed e := by
  rw [editFrom, editFrom]
  cases labels with
  | nil =>
    rw [List.map_nil, followWriting, followWriting, expectArrayAt, expectArrayAt,
      valueAt_of_binding hx]
    cases (w.valueAt (.content c)).expectArray with
    | error err => rfl
    | ok t => exact edit_of_binding hx he
  | cons l rest =>
    rw [List.map_cons, followWriting, followWriting, expectArrayAt, expectArrayAt,
      valueAt_of_binding hx, openAt_of_binding hx]

end Bound

/-- Making a bound entry with an array in it ready changes nothing. -/
theorem Attached.openElement_eq (ha : w.Attached s k c) (hv : w.Valid)
    (hval : w.valueAt (.content c) = .array u) {l : Label} (hl : l.key = k) :
    w.openElement (.symbols s) l [] = (w, ⟨w.tableAt (.symbols s), k⟩) := by
  obtain ⟨S, hS, hf⟩ := ha
  have hwf := hv.heap.table_wellFormed S.table
  have hnormal : l.normalize.key = k := by
    rw [Label.key_normalize, hl]
    exact Key.normalize_of_isNormal (hwf.keys_normal k (Table.mem_storedKeys_of_find? hf))
  have hbind : (w.heap.table (w.tableAt (.symbols s))).bindings ≠ 0 := by
    rw [tableAt_symbols hS]
    exact fun h ↦ find?_ne_binding hv h k c hf
  rw [openElement, separate_of_not_isShared (hv.isShared_eq_false Heap.admits_of_mem_nil hbind),
    tableAt_symbols hS]
  dsimp only
  have hread : w.heap.read ⟨S.table, k⟩ = .array u := by
    rw [Heap.read, Heap.slot?, hf]
    exact hval
  rw [Heap.materialize, hnormal, hf]
  dsimp only
  rw [hread, if_neg (by simp)]

/-! ### Naming and writing -/

/-- **Writing to the array that a name means starts somewhere.** -/
theorem exists_starts (hv : w.Valid) (h : w.arrayNamed a = .ok t) :
    ∃ base path borrowed, w.Starts a base path borrowed ∧ w.Leads t base path := by
  obtain ⟨u, hu⟩ := exists_array_of_nested h
  rw [arrayNamed, hu] at h
  cases a with
  | register name path =>
    have hl := (nested_eq_ok_iff hv hu (holds_placeOf hu) (placeOf_ne_symbols w name)).1 h
    exact ⟨_, _, _, .register, hl⟩
  | «variable» s k path =>
    rcases get?_symbols_eq_array_iff.1 (eq_some_array_of_getD hu) with
      ⟨T, hval, hT, hold⟩ | ⟨c, hc, hval⟩
    · have hl := (nested_eq_ok_iff hv (valueAt_element hold) hold fun _ he ↦ by cases he).1 h
      exact ⟨_, _, _, .plain, .there hval hT hl⟩
    · have hl := (nested_eq_ok_iff hv hval (holds_content_iff.2 hval) fun _ he ↦ by cases he).1 h
      exact ⟨_, _, _, .bound hc, hl⟩
  | properties name =>
    rw [startOf] at hu
    split at hu
    next o ho =>
      obtain rfl := Value.array.inj hu
      obtain ⟨r, hr⟩ := sound_of_operand_object hv ho
      have hold : w.Holds (w.heap.properties o) (.properties o) :=
        ⟨r, hr, by rw [Heap.properties, hr]; rfl⟩
      have hl := (nested_eq_ok_iff hv rfl hold fun _ he ↦ by cases he).1 h
      exact ⟨_, _, _, .properties ho, hl⟩
    · cases hu

/-- **And where it goes is the array that the name means.** -/
theorem Starts.arrayNamed_eq (hs : w.Starts a base path borrowed) (hv : w.Valid)
    (hl : w.Leads t base path) : w.arrayNamed a = .ok t := by
  obtain ⟨u, hval, hold⟩ := hl.exists_holds
  rw [arrayNamed]
  cases hs with
  | register =>
    rw [startOf, hval]
    exact (nested_eq_ok_iff hv hval hold (placeOf_ne_symbols w _)).2 hl
  | plain =>
    cases hl with
    | there hval hold hl =>
      obtain ⟨x, hx, hf⟩ := hl.exists_holds
      rw [startOf, get?_symbols_eq_array_iff.2 (.inl ⟨_, hval, hold, hf⟩)]
      exact (nested_eq_ok_iff hv hx hf fun _ he ↦ by cases he).2 hl
  | bound hc =>
    rw [startOf, get?_symbols_eq_array_iff.2 (.inr ⟨_, hc, hval⟩)]
    exact (nested_eq_ok_iff hv hval hold fun _ he ↦ by cases he).2 hl
  | properties ho =>
    rw [startOf, ho]
    cases hl with
    | here hval _ => exact congrArg Except.ok (Value.array.inj hval)

/-- The cells that are borrowed are those that the name says. -/
theorem Starts.borrowedFor_eq (hs : w.Starts a base path borrowed) (hl : w.Leads t base path) :
    w.borrowedFor a = borrowed := by
  cases hs with
  | register => rfl
  | plain => rw [borrowedFor, hl.binding?_eq_none]; rfl
  | bound hc => rw [borrowedFor, hc.binding?]; rfl
  | properties _ => rfl

/-! ### What leaves a name its meaning -/

/-- A register that writing starts from is the one in the name. -/
theorem Starts.register?_eq (hs : w.Starts a base path borrowed) (hb : base = .register name) :
    a.register? = some name := by
  cases hs with
  | @register other path =>
    rw [placeOf_eq] at hb
    cases hroot : w.rootOf other with
    | register n =>
      rw [hroot] at hb
      rw [← Place.register.inj hb]
      exact congrArg some (rootOf_eq_register hroot).symm
    | _ =>
      rw [hroot] at hb
      cases hb
  | _ => cases hb

/-- A name starts from the same place in another workspace, if the array there is still the start of
its path, and the register or the variable that it has need of is otherwise as it was. -/
theorem Starts.congr (hs : w.Starts a base path borrowed) (hl : w'.Leads t base path)
    (hr : ∀ {name}, a.register? = some name → base ≠ .register name →
      w'.registers.get? name = w.registers.get? name)
    (hc : ∀ {s k c}, w.Attached s k c → w'.Attached s k c) : w'.Starts a base path borrowed := by
  cases hs with
  | @register name path =>
    have hroot : w'.rootOf name = w.rootOf name := by
      by_cases hb : w.placeOf name = .register name
      · obtain ⟨x, hx, -⟩ := hl.exists_holds
        rw [hb] at hx
        rw [placeOf_eq] at hb
        rw [rootOf_of_valueAt hx, Root.place_inj (.register name) hb]
      · exact rootOf_congr (hr rfl hb)
    rw [placeOf_eq, ← hroot, ← placeOf_eq, ← borrowedBy_congr hroot]
    exact .register
  | plain => exact .plain
  | bound h => exact .bound (hc h)
  | @properties name o ho =>
    refine .properties ?_
    rw [← ho, operand, operand, valueAt, valueAt, hr rfl fun he ↦ by cases he]

/-- The end of a command leaves the array that a name starts from. -/
theorem Starts.kept (hs : w.Starts a base path borrowed) (hval : w.valueAt base = .array u)
    (hold : w.Holds u base) : w.Kept base u := by
  cases hs with
  | @register name path =>
    rw [placeOf_eq] at hval hold ⊢
    cases hroot : w.rootOf name with
    | register n =>
      rw [hroot] at hval
      exact kept_register hval
    | cell c =>
      rw [hroot] at hold
      have hreg := mem_registers (rootOf_eq_cell_iff.1 hroot) fun he ↦ by cases he
      exact kept_content (mem_mentioned_of_register hreg rfl) hold
    | object o => exact absurd hroot (rootOf_ne_object w name o)
  | plain => exact kept_symbols hold hval
  | @bound s k path c hc =>
    -- the cell is mentioned by the entry, and its table by the table of variables
    obtain ⟨S, hS, hf⟩ := hc
    have htable := (agree_settle_of_symbolTable (Registry.mem_of_get? hS)).table
    rw [← htable] at hf
    exact kept_content (List.mem_append_right _ (Heap.mem_handles_of_table (Heap.get?_of_find? hf)
      (Table.mem_handles_of_find? hf rfl))) hold
  | properties ho =>
    have hreg := mem_registers ho fun he ↦ by cases he
    exact kept_properties (mem_mentioned_of_register hreg rfl) hold

end Workspace

end SharedValue
