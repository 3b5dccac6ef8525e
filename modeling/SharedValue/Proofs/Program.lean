import Mathlib.Algebra.Group.Nat.Defs
import SharedValue.Decode
import SharedValue.Literal
import SharedValue.Navigation

/-!
# Programs

What can be done with arrays and tables of variables is a matter of programs: lists of statements,
each of which carries out one operation on values that registers hold and may put the result into a
register again. A program sees nothing but its registers and tables of variables, so the workspaces
that programs lead to are the ones that can come about at all (`Workspace.Reachable`).

A statement has five parts in time: its keys are coerced, its operands are read and held, the array
it works on is entered, the operation is carried out, and the result is delivered; then what nothing
mentions any more is released. Between two statements nothing is held.

A cell whose array is being changed is borrowed meanwhile. Assigning through a reference to that
very cell is not possible then, and a program that tries ends there: `Workspace.step` gives nothing.
-/

namespace SharedValue

/-! ### Statements -/

/-- A key, as a statement gives it. -/
inductive KeyTerm
  /-- What a register holds. -/
  | register (name : String)
  /-- A key in any spelling. -/
  | key (k : Key)

/-- A value without parts. -/
inductive Constant
  | undefined
  | null
  | bool (b : Bool)
  | int (n : Int64)
  | double (d : Double)
  | string (b : Bytes)
  | resource (handle : Int64) (kind : Bytes)

/-- The description of a constant. -/
def Constant.literal : Constant → Literal
  | .undefined => .undefined
  | .null => .null
  | .bool b => .bool b
  | .int n => .int n
  | .double d => .double d
  | .string b => .string b
  | .resource handle kind => .resource handle kind

/-- What is done to an open element, with operands of some sort. -/
inductive Deed (ν : Type)
  | read
  | assign (v : ν)
  | replace (v : ν)
  | overwrite (v : ν)
  /-- Appends to the array that the element holds. -/
  | push (v : ν)

/-- The act of a deed. -/
def Deed.act : Deed Value → Act
  | .read => .read
  | .assign v => .assign v
  | .replace v => .replace v
  | .overwrite v => .overwrite v
  | .push v => .push v

/-- A change of one array, with keys and operands of some sort. -/
inductive Edit (κ ν : Type)
  | clear
  | insert (k : κ) (v : ν)
  | push (v : ν)
  | unset (k : κ)
  | extend (pairs : List (κ × ν))
  /-- Opens the element under a key, which may be new. -/
  | open (k : κ) (deeds : List (Deed ν))
  /-- Opens a new element under the next free key. -/
  | append (deeds : List (Deed ν))

/-- The array in a register, or in the cell that it holds, or one that is nested in it. -/
structure Target where
  register : String
  path : List KeyTerm

/-- An operation on arrays, cells and objects. Operands are given by the registers that hold
them. -/
inductive ArrayCommand
  | constant (c : Constant)
  | copy (name : String)
  | list (names : List String)
  | cell (name : String)
  /-- An object whose properties are the array in a register. -/
  | object (className : Bytes) (properties : String)
  | edit (target : Target) (e : Edit KeyTerm String)
  | get (target : Target) (k : KeyTerm)
  | contains (target : Target) (k : KeyTerm)
  | getProperty (object : String) (k : KeyTerm)
  | setProperty (object : String) (k : KeyTerm) (name : String)
  | unsetProperty (object : String) (k : KeyTerm)
  | properties (object : String)
  | getCell (cell : String)
  | setCell (cell : String) (name : String)
  | drop (name : String)

/-- An operation on a table of variables. -/
inductive SymbolCommand
  | create (config : Config)
  | declare (k : KeyTerm)
  | bind (k : KeyTerm) (cell : String)
  | get (k : KeyTerm)
  | set (k : KeyTerm) (name : String)
  | open (k : KeyTerm) (deeds : List (Deed String))
  | contains (k : KeyTerm)
  | unset (k : KeyTerm)
  | copy
  | snapshot
  /-- Goes through the variables while a frame writes to cells. -/
  | iterate (writes : List (String × String))

/-- Whether an operation makes its table of variables. Every other one needs it to be there. -/
def SymbolCommand.creates : SymbolCommand → Bool
  | .create _ => true
  | _ => false

/-- An operation. -/
inductive Command
  | array (c : ArrayCommand)
  | symbols (table : String) (c : SymbolCommand)
  /-- Changes the array in a variable, or one that is nested in it. -/
  | editVariable (table : String) (k : KeyTerm) (path : List KeyTerm) (e : Edit KeyTerm String)
  | collect (pairs : List (KeyTerm × String))
  | fromPairs (pairs : List (KeyTerm × String))
  | toArray (name : String)
  | decode (e : Event)

/-- An operation and the register for its result. -/
structure Statement where
  command : Command
  into : Option String

/-- Why a statement has no result. -/
inductive Failure
  | value (e : ValueError)
  | decode (e : DecodeError)
  /-- A register does not hold what the statement needs, or there is no such table of
  variables. -/
  | malformed

/-- What a statement gives, and the heap that this is to be read in. -/
structure Report where
  heap : Heap
  result : Except Failure (List Outcome)

namespace Workspace

/-! ### Keys and operands -/

/-- What a register holds. -/
def operand (w : Workspace) (name : String) : Value := w.valueAt (.register name)

/-- What a statement gives as a key. -/
def keySource (w : Workspace) : KeyTerm → Workspace × KeySource
  | .register name => (w, .value (w.operand name))
  | .key (.int n) => (w, .label (Label.int n))
  | .key (.text b) =>
    let (w, s) := w.newStr b
    (w, .label (Label.ofStr s))

/-- What a statement gives as pairs of keys and values. -/
def keySources (w : Workspace) :
    List (KeyTerm × String) → Workspace × List (KeySource × Value)
  | [] => (w, [])
  | (k, name) :: rest =>
    let (w, source) := w.keySource k
    let (w, pairs) := w.keySources rest
    (w, (source, w.operand name) :: pairs)

/-- The label of a key. -/
def labelOf (w : Workspace) (k : KeyTerm) : Workspace × Except ValueError Label :=
  let (w, source) := w.keySource k
  (w, source.label? w.heap defaultReferenceDepth)

/-- The labels of keys, up to the first that is none. -/
def labelsOf (w : Workspace) : List KeyTerm → Workspace × Except ValueError (List Label)
  | [] => (w, .ok [])
  | k :: rest =>
    match w.labelOf k with
    | (w, .error e) => (w, .error e)
    | (w, .ok l) =>
      match w.labelsOf rest with
      | (w, .error e) => (w, .error e)
      | (w, .ok ls) => (w, .ok (l :: ls))

/-- Looks up the operand of a deed. -/
def deedOf (w : Workspace) : Deed String → Deed Value
  | .read => .read
  | .assign name => .assign (w.operand name)
  | .replace name => .replace (w.operand name)
  | .overwrite name => .overwrite (w.operand name)
  | .push name => .push (w.operand name)

/-- Looks up the key of something that is to be done under it. -/
def withLabel {α : Type} (w : Workspace) (k : KeyTerm) (f : Label → α) :
    Workspace × Except ValueError α :=
  match w.labelOf k with
  | (w, .error e) => (w, .error e)
  | (w, .ok l) => (w, .ok (f l))

/-- Looks up the keys and operands of a change. -/
def editOf (w : Workspace) : Edit KeyTerm String → Workspace × Except ValueError (Edit Label Value)
  | .clear => (w, .ok .clear)
  | .insert k name => w.withLabel k fun l ↦ .insert l (w.operand name)
  | .push name => (w, .ok (.push (w.operand name)))
  | .unset k => w.withLabel k .unset
  | .extend pairs =>
    let vs := pairs.map fun p ↦ w.operand p.2
    match w.labelsOf (pairs.map (·.1)) with
    | (w, .error e) => (w, .error e)
    | (w, .ok ls) => (w, .ok (.extend (ls.zip vs)))
  | .open k deeds =>
    let deeds := deeds.map w.deedOf
    w.withLabel k fun l ↦ .open l deeds
  | .append deeds => (w, .ok (.append (deeds.map w.deedOf)))

end Workspace

/-- The operand of a deed. -/
def Deed.operand? : Deed Value → Option Value
  | .read => none
  | .assign v | .replace v | .overwrite v | .push v => some v

/-- The operands of a change. -/
def Edit.operands {κ : Type} : Edit κ Value → List Value
  | .clear | .unset _ => []
  | .insert _ v | .push v => [v]
  | .extend pairs => pairs.map (·.2)
  | .open _ deeds | .append deeds => deeds.filterMap Deed.operand?

namespace Workspace

/-! ### Changes of an array -/

/-- The cell that a register holds. -/
def borrowedBy (w : Workspace) (name : String) : List CellId :=
  match w.operand name with
  | .reference c => [c]
  | _ => []

/-- Whether assigning to an element goes through a reference to a borrowed cell. -/
def isBlocked (w : Workspace) (e : Element) (borrowed : List CellId) : Bool :=
  match w.heap.read e with
  | .reference c => borrowed.contains c && w.heap.binding? e ≠ some c
  | _ => false

/-- Whether an act goes through a reference to a borrowed cell. -/
def blocksAct (w : Workspace) (e : Element) (borrowed : List CellId) : Act → Bool
  | .assign _ | .replace _ => w.isBlocked e borrowed
  | _ => false

/-- Whether one of the acts goes through a reference to a borrowed cell when its turn comes. -/
def blocksActs (w : Workspace) (e : Element) (borrowed : List CellId) : List Act → Bool
  | [] => false
  | a :: rest =>
    w.blocksAct e borrowed a ||
      match w.act e borrowed a with
      | (_, .error _) => false
      | (w, .ok _) => w.blocksActs e borrowed rest

/-- Whether assigning one of the pairs goes through a reference to a borrowed cell when its turn
comes. -/
def blocksPairs (w : Workspace) (p : Place) (borrowed : List CellId) :
    List (Label × Value) → Bool
  | [] => false
  | (l, v) :: rest =>
    w.isBlocked ⟨w.tableAt p, l.normalize.key⟩ borrowed ||
      (w.storeKey p l v (v :: rest.map (·.2))).1.blocksPairs p borrowed rest

/-- Carries out deeds on an open element. -/
def performDeeds (w : Workspace) (e : Element) (borrowed : List CellId) (deeds : List (Deed Value)) :
    Option (Workspace × Except ValueError (List Outcome)) :=
  if w.blocksActs e borrowed (deeds.map Deed.act) then none
  else some (w.perform e borrowed (deeds.map Deed.act))

/-- Changes the array at a place. -/
def edit (w : Workspace) (p : Place) (borrowed : List CellId) :
    Edit Label Value → Option (Workspace × Except ValueError (List Outcome))
  | .clear => some (w.clear p, .ok [.done])
  | .insert l v =>
    if w.isBlocked ⟨w.tableAt p, l.normalize.key⟩ borrowed then none
    else
      let (w, old) := w.insertKey p l v
      some (w.hold old.toList, .ok (old.toList.map .value))
  | .push v =>
    match w.push p v with
    | (w, .error e) => some (w, .error e)
    | (w, .ok n) => some (w, .ok [.index n])
  | .unset l =>
    let (w, b) := w.unsetKey p l.key
    some (w, .ok [.flag b])
  | .extend pairs =>
    if w.blocksPairs p borrowed pairs then none else some (w.extend p pairs, .ok [.done])
  | .open l deeds =>
    let (w, e) := w.openElement p l []
    w.performDeeds e borrowed deeds
  | .append deeds =>
    match w.append p [] with
    | (w, .error err) => some (w, .error err)
    | (w, .ok e) => w.performDeeds e borrowed deeds

/-- Changes the array at the end of a path that starts at a place. -/
def editFrom (w : Workspace) (p : Place) (path : List Label) (borrowed : List CellId)
    (e : Edit Label Value) : Option (Workspace × Except ValueError (List Outcome)) :=
  match w.followWriting p (path.map Label.toValue) with
  | (w, .error err) => some (w, .error err)
  | (w, .ok q) => w.edit q borrowed e

/-- Looks up the keys and operands of a change and holds them. -/
def prepare (w : Workspace) (path : List KeyTerm) (e : Edit KeyTerm String) :
    Workspace × Except ValueError (List Label × Edit Label Value) :=
  match w.labelsOf path with
  | (w, .error err) => (w, .error err)
  | (w, .ok ls) =>
    match w.editOf e with
    | (w, .error err) => (w, .error err)
    | (w, .ok e) => (w.hold e.operands, .ok (ls, e))

/-- Changes the array that a target names. -/
def editTarget (w : Workspace) (target : Target) (e : Edit KeyTerm String) :
    Option (Workspace × Except ValueError (List Outcome)) :=
  match w.prepare target.path e with
  | (w, .error err) => some (w, .error err)
  | (w, .ok (path, e)) =>
    w.editFrom (w.placeOf target.register) path (w.borrowedBy target.register) e

/-- Changes an array in a variable. -/
def editVariable (w : Workspace) (s : String) (k : KeyTerm) (path : List KeyTerm)
    (e : Edit KeyTerm String) : Option (Workspace × Except ValueError (List Outcome)) :=
  match w.prepare path e with
  | (w, .error err) => some (w, .error err)
  | (w, .ok (path, e)) =>
    let (w, source) := w.keySource k
    match w.openSymbol s source [] with
    | (w, .error err) => some (w, .error err)
    | (w, .ok x) => w.editFrom (.element x) path (w.heap.binding? x).toList e

/-! ### Operations on arrays, cells and objects -/

/-- The result of an operation that fails only as values do. -/
def result {α : Type} (outcomes : α → List Outcome) :
    Except ValueError α → Except Failure (List Outcome)
  | .ok a => .ok (outcomes a)
  | .error e => .error (.value e)

/-- A value that an operation gives, which is held, or none. -/
def giving (w : Workspace) (v : Option Value) : Workspace × Except Failure (List Outcome) :=
  (w.hold v.toList, .ok (v.toList.map .value))

/-- The array that a target names, for reading. -/
def readingTarget (w : Workspace) (target : Target) : Workspace × Except ValueError TableId :=
  match w.labelsOf target.path with
  | (w, .error e) => (w, .error e)
  | (w, .ok path) => (w, w.readTarget target.register (path.map Label.toValue))

/-- Looks up a key in an array, if there is one. -/
def lookIn {α : Type} (w : Workspace) (t : Except ValueError TableId) (k : KeyTerm)
    (look : Heap → TableId → Key → α) : Workspace × Except ValueError α :=
  match t with
  | .error e => (w, .error e)
  | .ok t => w.withLabel k fun l ↦ look w.heap t l.key

/-- Carries out an operation on arrays, cells and objects. -/
def arrayCommand (w : Workspace) :
    ArrayCommand → Option (Workspace × Except Failure (List Outcome))
  | .constant c =>
    match w.construct c.literal with
    | (w, .error e) => some (w, .error (.value e))
    | (w, .ok v) => some (w.giving (some v))
  | .copy name => some (w.giving (some (w.operand name)))
  | .list names =>
    -- no host has room for more
    if names.length ≤ 2 ^ 63 then
      let (w, t) := w.newList (names.map w.operand)
      some (w.giving (some (.array t)))
    else none
  | .cell name =>
    let (w, c) := w.newCell (w.operand name)
    some (w.giving (some (.reference c)))
  | .object className name =>
    match w.operand name with
    | .array t =>
      let (w, s) := w.newStr className
      let (w, o) := w.newObject s t
      some (w.giving (some (.object o)))
    | _ => some (w, .error .malformed)
  | .edit target e => (w.editTarget target e).map fun (w, r) ↦ (w, result id r)
  | .get target k =>
    let (w, t) := w.readingTarget target
    match w.lookIn t k fun h t k ↦ h.get? t k with
    | (w, .error e) => some (w, .error (.value e))
    | (w, .ok v) => some (w.giving v)
  | .contains target k =>
    let (w, t) := w.readingTarget target
    let (w, b) := w.lookIn t k fun h t k ↦ h.contains t k
    some (w, result (fun b ↦ [.flag b]) b)
  | .getProperty name k =>
    match w.operand name with
    | .object o =>
      match w.lookIn (.ok (w.heap.properties o)) k fun h t k ↦ h.get? t k with
      | (w, .error e) => some (w, .error (.value e))
      | (w, .ok v) => some (w.giving v)
    | _ => some (w, .error .malformed)
  | .setProperty name k operand =>
    match w.operand name with
    | .object o =>
      let v := w.operand operand
      let (w, source) := (w.hold [v]).keySource k
      match w.insert (.properties o) source v with
      | (w, .error e) => some (w, .error (.value e))
      | (w, .ok old) => some (w.giving old)
    | _ => some (w, .error .malformed)
  | .unsetProperty name k =>
    match w.operand name with
    | .object o =>
      let (w, source) := w.keySource k
      let (w, done) := w.unset (.properties o) source
      some (w, result (fun _ ↦ [.done]) done)
    | _ => some (w, .error .malformed)
  | .properties name =>
    match w.operand name with
    | .object o =>
      let (w, t) := w.objectProperties o
      some (w.giving (some (.array t)))
    | _ => some (w, .error .malformed)
  | .getCell name =>
    match w.operand name with
    | .reference c => some (w.giving (some (w.heap.cell c)))
    | _ => some (w, .error .malformed)
  | .setCell name operand =>
    match w.operand name with
    | .reference c =>
      let (w, old) := w.setCell c (w.operand operand)
      some (w.giving (some old))
    | _ => some (w, .error .malformed)
  | .drop name =>
    let (w, there) := w.dropRegister name
    some (w, .ok [.flag there])

/-! ### Operations on tables of variables -/

/-- Carries out an operation on a table of variables. -/
def symbolCommand (w : Workspace) (s : String) :
    SymbolCommand → Workspace × Except Failure (List Outcome)
  | .create config => (w.newSymbolTable s config, .ok [.done])
  | .declare k =>
    let (w, source) := w.keySource k
    match w.declareSymbol s source with
    | (w, .error e) => (w, .error (.value e))
    | (w, .ok c) => w.giving (some (.reference c))
  | .bind k name =>
    match w.operand name with
    | .reference c =>
      let (w, source) := w.keySource k
      let (w, done) := w.bindSymbol s source c
      (w, result (fun _ ↦ [.done]) done)
    | _ => (w, .error .malformed)
  | .get k =>
    let (w, source) := w.keySource k
    match w.getSymbol s source with
    | .error e => (w, .error (.value e))
    | .ok v => w.giving v
  | .set k name =>
    let v := w.operand name
    let (w, source) := (w.hold [v]).keySource k
    let (w, done) := w.setSymbol s source v
    (w, result (fun _ ↦ [.done]) done)
  | .open k deeds =>
    let deeds := deeds.map w.deedOf
    let (w, source) := (w.hold (deeds.filterMap Deed.operand?)).keySource k
    match w.openSymbol s source [] with
    | (w, .error e) => (w, .error (.value e))
    | (w, .ok e) =>
      let (w, outcomes) := w.perform e [] (deeds.map Deed.act)
      (w, result id outcomes)
  | .contains k =>
    let (w, source) := w.keySource k
    (w, result (fun b ↦ [.flag b]) (w.containsSymbol s source))
  | .unset k =>
    let (w, source) := w.keySource k
    let (w, done) := w.unsetSymbol s source
    (w, result (fun _ ↦ [.done]) done)
  | .copy =>
    let (w, t) := w.copySymbols s
    w.giving (some (.array t))
  | .snapshot =>
    let (w, t) := w.snapshotSymbols s
    w.giving (some (.array t))
  | .iterate writes =>
    let cells := writes.filterMap fun p ↦
      match w.operand p.1 with
      | .reference c => some (c, w.operand p.2)
      | _ => none
    let (w, shown) := w.iterateWriting cells (w.heap.table (w.tableAt (.symbols s))).entries
    (w.hold (shown.map (·.2)), .ok (shown.map fun p ↦ .value p.2))

/-! ### Statements and programs -/

/-- Carries out an operation. -/
def carryOut (w : Workspace) : Command → Option (Workspace × Except Failure (List Outcome))
  | .array c => w.arrayCommand c
  | .symbols s c =>
    if c.creates || w.symbolTables.has s then some (w.symbolCommand s c)
    else some (w, .error .malformed)
  | .editVariable s k path e =>
    if w.symbolTables.has s then (w.editVariable s k path e).map fun (w, r) ↦ (w, result id r)
    else some (w, .error .malformed)
  | .collect pairs =>
    let operands := pairs.map fun p ↦ w.operand p.2
    match w.labelsOf (pairs.map (·.1)) with
    | (w, .error e) => some (w, .error (.value e))
    | (w, .ok ls) =>
      let (w, t) := w.collect (ls.zip operands)
      some (w.giving (some (.array t)))
  | .fromPairs pairs =>
    let (w, sources) := w.keySources pairs
    match w.newFromPairs sources with
    | (w, .error e) => some (w, .error (.value e))
    | (w, .ok t) => some (w.giving (some (.array t)))
  | .toArray name =>
    match w.toArray (w.operand name) with
    | (w, .error e) => some (w, .error (.value e))
    | (w, .ok t) => some (w.giving (some (.array t)))
  | .decode e =>
    match w.heap.decode e with
    | (heap, .error e) => some ({ w with heap }, .error (.decode e))
    | (heap, .ok v) => some (Workspace.giving { w with heap } (some v))

/-- The first value that a result gives. -/
def firstValue? : Except Failure (List Outcome) → Option Value
  | .error _ => none
  | .ok outcomes => outcomes.findSome? fun
    | .value v => some v
    | _ => none

/-- Puts the first value of a result into a register, if one is named. -/
def deliver (w : Workspace) (into : Option String) (r : Except Failure (List Outcome)) : Workspace :=
  match into, firstValue? r with
  | some name, some v => w.setRegister name v
  | _, _ => w

/-- Runs a statement to its end. Gives nothing if the program ends there. -/
def step (w : Workspace) (s : Statement) : Option (Workspace × Report) :=
  match w.carryOut s.command with
  | none => none
  | some (w, r) => some ((w.deliver s.into r).settle, ⟨w.heap, r⟩)

/-- Runs a program. Gives nothing if it does not get to its end. -/
def run (w : Workspace) : List Statement → Option (Workspace × List Report)
  | [] => some (w, [])
  | s :: rest =>
    match w.step s with
    | none => none
    | some (w, report) =>
      match w.run rest with
      | none => none
      | some (w, reports) => some (w, report :: reports)

/-- A program gets to its end by its first statement and then by the others. -/
theorem run_cons_eq_some_iff {w w' : Workspace} {s : Statement} {rest : List Statement}
    {reports : List Report} : w.run (s :: rest) = some (w', reports) ↔ ∃ w₁ report reports₁,
      w.step s = some (w₁, report) ∧ w₁.run rest = some (w', reports₁) ∧
        report :: reports₁ = reports := by
  rw [run]
  constructor
  · intro hr
    split at hr
    · cases hr
    next w₁ report hs =>
      split at hr
      · cases hr
      next w₂ reports₁ hrest =>
        obtain ⟨rfl, hreports⟩ := Prod.mk.inj (Option.some.inj hr)
        exact ⟨w₁, report, reports₁, hs, hrest, hreports⟩
  · rintro ⟨w₁, report, reports₁, hs, hrest, rfl⟩
    rw [hs]
    dsimp only
    rw [hrest]

/-- **What every statement keeps, a program keeps.** -/
theorem run_induction {P : Workspace → Prop} {w w' : Workspace}
    (hstep : ∀ {w w' s report}, P w → w.step s = some (w', report) → P w') (hw : P w)
    {program : List Statement} {reports : List Report}
    (hr : w.run program = some (w', reports)) : P w' := by
  induction program generalizing w reports with
  | nil =>
    obtain ⟨rfl, -⟩ := Prod.mk.inj (Option.some.inj hr)
    exact hw
  | cons s rest ih =>
    obtain ⟨w₁, report, reports₁, hs, hrest, -⟩ := run_cons_eq_some_iff.1 hr
    exact ih (hstep hw hs) hrest

/-- A workspace that a program leads to. -/
def Reachable (w : Workspace) : Prop := ∃ program reports, empty.run program = some (w, reports)

end Workspace

end SharedValue
