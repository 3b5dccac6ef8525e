import SharedValue.Array

/-!
# Literals

A literal describes a value to be built: scalars, strings, arrays and objects by their pairs,
new cells, and the values of registers. Everything a literal describes is new, except what a
register holds. The keys of a described array are literals as well and are coerced like any
value that is used as a key, so building can fail; all parts are built before the first pair is
assigned.
-/

namespace SharedValue

/-- A description of a value. -/
inductive Literal
  | undefined
  | null
  | bool (b : Bool)
  | int (n : Int64)
  | double (d : Double)
  | string (b : Bytes)
  | resource (handle : Int64) (kind : Bytes)
  | list (items : List Literal)
  | array (pairs : List (Literal × Literal))
  | object (className : Bytes) (properties : List (Literal × Literal))
  /-- A new cell. -/
  | reference (content : Literal)
  /-- What a register holds. -/
  | register (name : String)

namespace Workspace

/-- A new string in a workspace. -/
def newStr (w : Workspace) (b : Bytes) : Workspace × Str :=
  let (heap, s) := w.heap.newStr b
  ({ w with heap }, s)

/-- A new list in a workspace. -/
def newList (w : Workspace) (vs : List Value) : Workspace × TableId :=
  let (heap, t) := w.heap.newList vs
  ({ w with heap }, t)

/-- A new cell in a workspace. -/
def newCell (w : Workspace) (v : Value) : Workspace × CellId :=
  let (heap, c) := w.heap.newCell v
  ({ w with heap }, c)

/-- A new object in a workspace. -/
def newObject (w : Workspace) (className : Str) (t : TableId) : Workspace × ObjectId :=
  let (heap, o) := w.heap.newObject className t
  ({ w with heap }, o)

mutual

/-- Builds what a literal describes. -/
def construct (w : Workspace) : Literal → Workspace × Except ValueError Value
  | .undefined => (w, .ok .undefined)
  | .null => (w, .ok .null)
  | .bool b => (w, .ok (.bool b))
  | .int n => (w, .ok (.int n))
  | .double d => (w, .ok (.double d))
  | .string b =>
    let (w, s) := w.newStr b
    (w, .ok (.string s))
  | .resource handle kind =>
    let (w, s) := w.newStr kind
    let (heap, r) := w.heap.newResource handle s
    ({ w with heap }, .ok (.resource r))
  | .list items =>
    match w.constructItems items with
    | (w, .error e) => (w, .error e)
    | (w, .ok vs) =>
      let (w, t) := w.newList vs
      (w, .ok (.array t))
  | .array pairs =>
    match w.constructPairs pairs with
    | (w, .error e) => (w, .error e)
    | (w, .ok ps) =>
      match w.newFromPairs ps with
      | (w, .error e) => (w, .error e)
      | (w, .ok t) => (w, .ok (.array t))
  | .object className properties =>
    match w.constructPairs properties with
    | (w, .error e) => (w, .error e)
    | (w, .ok ps) =>
      match w.newFromPairs ps with
      | (w, .error e) => (w, .error e)
      | (w, .ok t) =>
        let (w, s) := w.newStr className
        let (w, o) := w.newObject s t
        (w, .ok (.object o))
  | .reference content =>
    match w.construct content with
    | (w, .error e) => (w, .error e)
    | (w, .ok v) =>
      let (w, c) := w.newCell v
      (w, .ok (.reference c))
  | .register name => (w, .ok (w.valueAt (.register name)))

/-- Builds what literals describe, one after the other. -/
def constructItems (w : Workspace) : List Literal → Workspace × Except ValueError (List Value)
  | [] => (w, .ok [])
  | l :: rest =>
    match w.construct l with
    | (w, .error e) => (w, .error e)
    | (w, .ok v) =>
      match w.constructItems rest with
      | (w, .error e) => (w, .error e)
      | (w, .ok vs) => (w, .ok (v :: vs))

/-- Builds the keys and values of pairs, one pair after the other. -/
def constructPairs (w : Workspace) :
    List (Literal × Literal) → Workspace × Except ValueError (List (KeySource × Value))
  | [] => (w, .ok [])
  | (k, l) :: rest =>
    match w.construct k with
    | (w, .error e) => (w, .error e)
    | (w, .ok key) =>
      match w.construct l with
      | (w, .error e) => (w, .error e)
      | (w, .ok v) =>
        match w.constructPairs rest with
        | (w, .error e) => (w, .error e)
        | (w, .ok ps) => (w, .ok ((.value key, v) :: ps))

end

/-- Builds what a literal describes and holds it until the running command ends. -/
def build (w : Workspace) (l : Literal) : Workspace × Except ValueError Value :=
  match w.construct l with
  | (w, .error e) => (w, .error e)
  | (w, .ok v) => (w.hold [v], .ok v)

end Workspace

end SharedValue
