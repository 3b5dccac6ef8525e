import SharedValue.Proofs.Table.Pairs
import SharedValue.Proofs.Workspace.Anchored
import SharedValue.Proofs.Workspace.Preparation

/-!
# Values that share nothing

A `Tree` is a value whose arrays are lists of pairs and nothing else: to copy an array is to copy
its pairs, and with them the arrays nested in it. Cells and objects are still named, for what they
hold is shared. A `Forest` has a tree for each register, each cell and each object, and carries out
the operations on arrays, cells and objects in the plainest way: an array is looked up, its list of
pairs is changed, and the changed list is put back where it was (`Forest.put`). Nothing else
changes, for there is nothing that two arrays could share.

A forest says what the operations mean. Nothing is counted, separated or released in it.
-/

namespace SharedValue

/-! ### Trees -/

/-- A value without sharing. -/
inductive Tree
  | undefined
  | null
  | bool (b : Bool)
  | int (n : Int64)
  | double (d : Double)
  | string (b : Bytes)
  | array (pairs : List (Key × Tree))
  | object (o : ObjectId)
  | resource (r : ResourceId)
  | reference (c : CellId)

namespace Tree

/-- The kind of a tree. -/
def kind : Tree → Kind
  | .undefined => .undefined
  | .null => .null
  | .bool _ => .bool
  | .int _ => .int
  | .double _ => .double
  | .string _ => .string
  | .array _ => .array
  | .object _ => .object
  | .resource _ => .resource
  | .reference _ => .reference

/-- What a place that may be undefined shows. -/
def shown : Tree → Tree
  | .undefined => .null
  | S => S

/-- The pairs of an array; other trees have none. -/
def pairs : Tree → Pairs Tree
  | .array ps => ps
  | _ => []

/-- The pairs of an array, or the failure of a tree that is none. -/
def expectArray : Tree → Except ValueError (Pairs Tree)
  | .array ps => .ok ps
  | S => .error (.typeMismatch .array S.kind)

/-- The tree at the end of a path of keys. -/
def peek (S : Tree) : List Key → Tree
  | [] => S
  | k :: path => ((S.pairs.find? k).getD .undefined).peek path

/-- A tree with another one in place of the array or the element at the end of a path. -/
def update (S S' : Tree) : List Key → Tree
  | [] => S'
  | k :: path => .array (S.pairs.put k (((S.pairs.find? k).getD .undefined).update S' path))

theorem peek_append (S : Tree) (path path' : List Key) :
    S.peek (path ++ path') = (S.peek path).peek path' := by
  induction path generalizing S with
  | nil => rfl
  | cons k path ih => exact ih _

theorem update_append (S S' : Tree) (path path' : List Key) :
    S.update S' (path ++ path') = S.update ((S.peek path).update S' path') path := by
  induction path generalizing S with
  | nil => rfl
  | cons k path ih =>
    rw [List.cons_append, update, update, ih]
    rfl

/-- The array of a list. -/
def ofList (Ss : List Tree) : Tree :=
  .array (Ss.zipIdx.map fun p ↦ (.int (Int64.ofNat p.2), p.1))

end Tree

/-- What a statement gives in a forest. -/
inductive View
  | done
  | tree (S : Tree)
  | flag (b : Bool)
  | index (n : Int64)

/-! ### Forests -/

/-- Trees in registers, cells and objects. Of a resource there is the number that it gives as a
key. -/
structure Forest where
  registers : Registry Tree
  cells : List Tree
  objects : List (Pairs Tree)
  resources : List Int64

namespace Forest

/-- The forest without trees. -/
def empty : Forest := ⟨[], [], [], []⟩

/-- The tree at a root. -/
def get (F : Forest) : Root → Tree
  | .register name => (F.registers.get? name).getD .undefined
  | .cell c => (F.cells[c.index]?).getD .undefined
  | .object o => .array ((F.objects[o.index]?).getD [])

/-- Puts a tree at a root. -/
def set (F : Forest) : Root → Tree → Forest
  | .register name, S => { F with registers := F.registers.set name S }
  | .cell c, S => { F with cells := F.cells.set c.index S }
  | .object o, S => { F with objects := F.objects.set o.index S.pairs }

/-- Whether there is room for a tree at a root. -/
def Has (F : Forest) : Root → Prop
  | .register _ => True
  | .cell c => c.index < F.cells.length
  | .object o => o.index < F.objects.length

theorem get_set_self {F : Forest} {root : Root} (hr : F.Has root) {S : Tree}
    (hS : ∀ o, root = .object o → S = .array S.pairs) : (F.set root S).get root = S := by
  cases root with
  | register name =>
    show ((F.registers.set name S).get? name).getD _ = S
    rw [Registry.get?_set, if_pos rfl]
    rfl
  | cell c =>
    show ((F.cells.set c.index S)[c.index]?).getD _ = S
    rw [List.getElem?_set_self hr]
    rfl
  | object o =>
    show Tree.array (((F.objects.set o.index S.pairs)[o.index]?).getD _) = S
    rw [List.getElem?_set_self hr, hS o rfl]
    rfl

theorem get_set_of_ne (F : Forest) {root root' : Root} (hne : root' ≠ root) (S : Tree) :
    (F.set root S).get root' = F.get root' := by
  cases root with
  | register name =>
    cases root' with
    | register other =>
      show ((F.registers.set name S).get? other).getD _ = _
      rw [Registry.get?_set, if_neg fun he ↦ hne (congrArg _ he)]
      rfl
    | _ => rfl
  | cell c =>
    cases root' with
    | cell d =>
      have hindex : c.index ≠ d.index := fun he ↦ hne (by cases c; cases d; simp_all)
      show ((F.cells.set c.index S)[d.index]?).getD _ = _
      rw [List.getElem?_set_ne hindex]
      rfl
    | _ => rfl
  | object o =>
    cases root' with
    | object o' =>
      have hindex : o.index ≠ o'.index := fun he ↦ hne (by cases o; cases o'; simp_all)
      show Tree.array (((F.objects.set o.index S.pairs)[o'.index]?).getD _) = _
      rw [List.getElem?_set_ne hindex]
      rfl
    | _ => rfl

/-- The tree at the end of a path. -/
def peek (F : Forest) (root : Root) (path : List Key) : Tree := (F.get root).peek path

/-- Puts a tree at the end of a path. -/
def put (F : Forest) (root : Root) (path : List Key) (S : Tree) : Forest :=
  F.set root ((F.get root).update S path)

/-- The pairs of the array at the end of a path. -/
def pairs (F : Forest) (root : Root) (path : List Key) : Pairs Tree := (F.peek root path).pairs

/-- What a register holds. -/
def operand (F : Forest) (name : String) : Tree := F.get (.register name)

/-- The root that a register stands for. -/
def rootOf (F : Forest) (name : String) : Root :=
  match F.operand name with
  | .reference c => .cell c
  | _ => .register name

/-! ### Keys -/

/-- The tree at the end of a chain of at most `limit` cells. -/
def chase (F : Forest) : (limit : Nat) → Tree → Option Tree
  | 0, .reference _ => none
  | limit + 1, .reference c => F.chase limit (F.get (.cell c))
  | _, S => some S

/-- The key that a tree stands for. -/
def keyOfTree (F : Forest) : Tree → Except ValueError Key
  | .string b => .ok (Key.text b).normalize
  | .int n => .ok (.int n)
  | .double d => .ok (.int d.toInt64)
  | .bool b => .ok (.int (if b then 1 else 0))
  | .null | .undefined => .ok (.text [])
  | .resource r => .ok (.int ((F.resources[r.index]?).getD 0))
  | S => .error (.illegalKey S.kind)

/-- The key that a tree stands for once its references are followed. -/
def coerceKey (F : Forest) (S : Tree) : Except ValueError Key :=
  match F.chase defaultReferenceDepth S with
  | some S => F.keyOfTree S
  | none => .error (.referenceDepth defaultReferenceDepth)

/-- The key that a statement gives. -/
def keyOf (F : Forest) : KeyTerm → Except ValueError Key
  | .register name => F.coerceKey (F.operand name)
  | .key k => .ok k.normalize

/-! ### Changes of an array -/

/-- Makes a key ready for writing: an absent one is added with null, and one that holds nothing gets
null. -/
def ready (F : Forest) (root : Root) (path : List Key) (k : Key) : Forest :=
  match (F.pairs root path).find? k with
  | none => F.put root path (.array ((F.pairs root path).add k .null))
  | some .undefined => F.put root path (.array ((F.pairs root path).put k .null))
  | some _ => F

/-- Assigns to a key, or to the cell that it refers to. -/
def assign (F : Forest) (root : Root) (path : List Key) (k : Key) (S : Tree) : Forest :=
  match (F.pairs root path).find? k with
  | some (.reference c) => F.set (.cell c) S
  | _ => F.put root path (.array ((F.pairs root path).assign k S))

theorem ready_of_ne_undefined {F : Forest} {root : Root} {path : List Key} {k : Key} {S : Tree}
    (hf : (F.pairs root path).find? k = some S) (hS : S ≠ .undefined) : F.ready root path k = F := by
  rw [ready, hf]
  split
  next he => cases he
  next he => exact absurd (Option.some.inj he) hS
  · rfl

theorem assign_of_ne_reference {F : Forest} {root : Root} {path : List Key} {k : Key}
    (hf : ∀ c, (F.pairs root path).find? k ≠ some (.reference c)) (S : Tree) :
    F.assign root path k S = F.put root path (.array ((F.pairs root path).assign k S)) := by
  rw [assign]
  split
  next c hc => exact absurd hc (hf c)
  · rfl

/-- What is overwritten when a key is assigned to, as readers saw it. -/
def overwritten? (F : Forest) (root : Root) (path : List Key) (k : Key) : Option Tree :=
  match (F.pairs root path).find? k with
  | some (.reference c) => some (F.get (.cell c))
  | some S => some S.shown
  | none => none

theorem overwritten?_of_ne_reference {F : Forest} {root : Root} {path : List Key} {k : Key}
    {S : Tree} (hf : (F.pairs root path).find? k = some S) (hS : ∀ c, S ≠ .reference c) :
    F.overwritten? root path k = some S.shown := by
  rw [overwritten?, hf]
  split
  next c hc => exact absurd (Option.some.inj hc) (hS c)
  next he => rw [Option.some.inj he]
  next he => cases he

/-- Appends a tree and gives the key it got. -/
def push (F : Forest) (root : Root) (path : List Key) (S : Tree) : Forest × Except ValueError Int64 :=
  match nextKey (F.pairs root path).keys with
  | none => (F, .error .slotOccupied)
  | some n => (F.put root path (.array ((F.pairs root path).add (.int n) S)), .ok n)

/-- Takes a key out and tells whether it was there. -/
def unset (F : Forest) (root : Root) (path : List Key) (k : Key) : Forest × Bool :=
  match (F.pairs root path).find? k with
  | none => (F, false)
  | some _ => (F.put root path (.array ((F.pairs root path).remove k)), true)

/-- Whether assigning to a key goes through a reference to the root of its own array. -/
def blocks (F : Forest) (root : Root) (path : List Key) (k : Key) : Bool :=
  match (F.pairs root path).find? k with
  | some (.reference c) => root = .cell c
  | _ => false

theorem blocks_of_ne_reference {F : Forest} {root : Root} {path : List Key} {k : Key}
    (hf : ∀ c, (F.pairs root path).find? k ≠ some (.reference c)) :
    F.blocks root path k = false := by
  rw [blocks]
  split
  next c hc => exact absurd hc (hf c)
  · rfl

/-- Assigns to keys in turn. Gives nothing if one of them is blocked. -/
def extend (F : Forest) (root : Root) (path : List Key) : List (Key × Tree) → Option Forest
  | [] => some F
  | (k, S) :: rest =>
    if F.blocks root path k then none else (F.assign root path k S).extend root path rest

/-- What was there when a tree is replaced: the tree in the cell if it is a reference. -/
def behind (F : Forest) : Tree → Tree
  | .reference c => F.get (.cell c)
  | S => S

/-- Carries out a deed on the element under a key. -/
def act (F : Forest) (root : Root) (path : List Key) (k : Key) :
    Deed Tree → Option (Forest × Except ValueError View)
  | .read => some (F, .ok (.tree (F.peek root (path ++ [k]))))
  | .assign S => if F.blocks root path k then none else some (F.assign root path k S, .ok .done)
  | .replace S =>
    if F.blocks root path k then none
    else some (F.assign root path k S, .ok (.tree (F.behind (F.peek root (path ++ [k])))))
  | .overwrite S => some (F.put root path (.array ((F.pairs root path).put k S)), .ok .done)
  | .push S =>
    match (F.peek root (path ++ [k])).expectArray with
    | .error err => some (F, .error err)
    | .ok _ =>
      let (F, n) := F.push root (path ++ [k]) S
      some (F, n.map .index)

/-- Carries out deeds on the element under a key in turn, up to the first that fails. -/
def perform (F : Forest) (root : Root) (path : List Key) (k : Key) :
    List (Deed Tree) → Option (Forest × Except ValueError (List View))
  | [] => some (F, .ok [])
  | d :: rest =>
    match F.act root path k d with
    | none => none
    | some (F, .error err) => some (F, .error err)
    | some (F, .ok view) => (F.perform root path k rest).map fun (F, r) ↦ (F, r.map (view :: ·))

/-- Changes the array at the end of a path. -/
def edit (F : Forest) (root : Root) (path : List Key) :
    Edit Key Tree → Option (Forest × Except ValueError (List View))
  | .clear => some (F.put root path (.array []), .ok [.done])
  | .insert k S =>
    if F.blocks root path k then none
    else some (F.assign root path k S, .ok ((F.overwritten? root path k).toList.map .tree))
  | .push S =>
    let (F, n) := F.push root path S
    some (F, n.map fun n ↦ [.index n])
  | .unset k =>
    let (F, b) := F.unset root path k
    some (F, .ok [.flag b])
  | .extend pairs => (F.extend root path pairs).map fun F ↦ (F, .ok [.done])
  | .open k deeds => (F.ready root path k).perform root path k deeds
  | .append deeds =>
    match F.push root path .null with
    | (F, .error err) => some (F, .error err)
    | (F, .ok n) => F.perform root path (.int n) deeds

/-- Goes down a path of keys to write: each key on the way is made ready, and has to hold an array
in the end. -/
def enter (F : Forest) (root : Root) (path : List Key) :
    List Key → Forest × Except ValueError (List Key)
  | [] => (F, (F.peek root path).expectArray.map fun _ ↦ path)
  | k :: rest =>
    match (F.peek root path).expectArray with
    | .error err => (F, .error err)
    | .ok _ => (F.ready root path k).enter root (path ++ [k]) rest

/-- The keys and operands of a change and the keys of the path to its array. -/
def changeOf (F : Forest) (path : List KeyTerm) (e : Edit KeyTerm String) :
    Except ValueError (List Key × Edit Key Tree) :=
  match path.mapM F.keyOf with
  | .error err => .error err
  | .ok keys => (e.resolve F.keyOf F.operand).map (keys, ·)

/-- Changes the array that a target names. -/
def editTarget (F : Forest) (target : Target) (e : Edit KeyTerm String) :
    Option (Forest × Except ValueError (List View)) :=
  match F.changeOf target.path e with
  | .error err => some (F, .error err)
  | .ok (keys, e) =>
    match F.enter (F.rootOf target.register) [] keys with
    | (F, .error err) => some (F, .error err)
    | (F', .ok path) => F'.edit (F.rootOf target.register) path e

/-! ### Operations -/

/-- The array at the end of a path of keys, for reading. -/
def follow : Pairs Tree → List Key → Except ValueError (Pairs Tree)
  | ps, [] => .ok ps
  | ps, k :: path =>
    match ((ps.find? k).getD .null).shown.expectArray with
    | .error err => .error err
    | .ok ps => follow ps path

/-- The array that a target names, for reading. -/
def reading (F : Forest) (target : Target) : Except ValueError (Pairs Tree) := do
  let keys ← target.path.mapM F.keyOf
  follow (← (F.get (F.rootOf target.register)).expectArray) keys

/-- What an array shows under a key. -/
def look (ps : Pairs Tree) (k : Key) : Option Tree := (ps.find? k).map Tree.shown

/-- Looks up a key in an array, if there is one. -/
def lookIn (F : Forest) (ps : Except ValueError (Pairs Tree)) (k : KeyTerm) :
    Except ValueError (Option Tree) :=
  match ps with
  | .error e => .error e
  | .ok ps => (F.keyOf k).map (look ps)

/-- The tree of a constant. -/
def construct (F : Forest) : Constant → Forest × Tree
  | .undefined => (F, .undefined)
  | .null => (F, .null)
  | .bool b => (F, .bool b)
  | .int n => (F, .int n)
  | .double d => (F, .double d)
  | .string b => (F, .string b)
  | .resource handle _ =>
    ({ F with resources := F.resources ++ [handle] }, .resource ⟨F.resources.length⟩)

/-- The result of an operation that fails only as values do. -/
def result {α : Type} (views : α → List View) : Except ValueError α → Except Failure (List View)
  | .ok a => .ok (views a)
  | .error e => .error (.value e)

/-- The view of a tree that an operation gives, or of none. -/
def views (S : Option Tree) : List View := S.toList.map .tree

/-- Carries out an operation on arrays, cells and objects. -/
def arrayCommand (F : Forest) : ArrayCommand → Option (Forest × Except Failure (List View))
  | .constant c =>
    let (F, S) := F.construct c
    some (F, .ok [.tree S])
  | .copy name => some (F, .ok [.tree (F.operand name)])
  | .list names =>
    if names.length ≤ 2 ^ 63 then some (F, .ok [.tree (.ofList (names.map F.operand))]) else none
  | .cell name =>
    some ({ F with cells := F.cells ++ [F.operand name] }, .ok [.tree (.reference ⟨F.cells.length⟩)])
  | .object _ name =>
    match F.operand name with
    | .array ps =>
      some ({ F with objects := F.objects ++ [ps] }, .ok [.tree (.object ⟨F.objects.length⟩)])
    | _ => some (F, .error .malformed)
  | .edit target e => (F.editTarget target e).map fun (F, r) ↦ (F, result id r)
  | .get target k => some (F, result views (F.lookIn (F.reading target) k))
  | .contains target k =>
    some (F, result (fun S ↦ [.flag S.isSome]) (F.lookIn (F.reading target) k))
  | .getProperty name k =>
    match F.operand name with
    | .object o => some (F, result views (F.lookIn (.ok (F.pairs (.object o) [])) k))
    | _ => some (F, .error .malformed)
  | .setProperty name k operand =>
    match F.operand name with
    | .object o =>
      match F.keyOf k with
      | .error e => some (F, .error (.value e))
      | .ok k =>
        some (F.assign (.object o) [] k (F.operand operand), .ok (views (F.overwritten? (.object o) [] k)))
    | _ => some (F, .error .malformed)
  | .unsetProperty name k =>
    match F.operand name with
    | .object o =>
      match F.keyOf k with
      | .error e => some (F, .error (.value e))
      | .ok k => some ((F.unset (.object o) [] k).1, .ok [.done])
    | _ => some (F, .error .malformed)
  | .properties name =>
    match F.operand name with
    | .object o => some (F, .ok [.tree (F.get (.object o))])
    | _ => some (F, .error .malformed)
  | .getCell name =>
    match F.operand name with
    | .reference c => some (F, .ok [.tree (F.get (.cell c))])
    | _ => some (F, .error .malformed)
  | .setCell name operand =>
    match F.operand name with
    | .reference c => some (F.set (.cell c) (F.operand operand), .ok [.tree (F.get (.cell c))])
    | _ => some (F, .error .malformed)
  | .drop name =>
    some ({ F with registers := F.registers.erase name }, .ok [.flag (F.registers.get? name).isSome])

/-- The first tree that a result gives. -/
def firstTree? : Except Failure (List View) → Option Tree
  | .error _ => none
  | .ok views => views.findSome? fun
    | .tree S => some S
    | _ => none

/-- Puts the first tree of a result into a register, if one is named. -/
def deliver (F : Forest) (into : Option String) (r : Except Failure (List View)) : Forest :=
  match into, firstTree? r with
  | some name, some S => F.set (.register name) S
  | _, _ => F

/-- Carries out an operation and puts its result into a register. -/
def step (F : Forest) (c : ArrayCommand) (into : Option String) :
    Option (Forest × Except Failure (List View)) :=
  (F.arrayCommand c).map fun (F, r) ↦ (F.deliver into r, r)

/-- Carries out operations in turn. Gives nothing if one of them has no result. -/
def run (F : Forest) :
    List (ArrayCommand × Option String) → Option (Forest × List (Except Failure (List View)))
  | [] => some (F, [])
  | (c, into) :: rest =>
    match F.step c into with
    | none => none
    | some (F, r) => (F.run rest).map fun (F, rs) ↦ (F, r :: rs)

end Forest

end SharedValue
