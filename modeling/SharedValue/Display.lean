import SharedValue.Double.Layout
import SharedValue.Heap.Dereference

/-!
# The texts of values

`Heap.display` is the text that a value has for a user: scalars in their plain form, nothing for
null, and a word for what has no text. `Heap.diagnostic` is the text for whoever inspects the
heap: it names the kind of every value, shows the elements of arrays and the contents of cells,
and stops where it comes back to a cell whose content it is in the middle of showing.
-/

namespace SharedValue.Heap

/-! ### Display -/

/-- The text of a value that is no reference. -/
def displayTarget (h : Heap) : Value → String
  | .undefined | .null | .bool false => ""
  | .bool true => "1"
  | .int n => Decimal.text n.toInt
  | .double d => d.write Double.plain
  | .string s => s.text
  | .array _ => "Array"
  | .object _ => "Object"
  | .resource r => "Resource id #" ++ Decimal.text (h.resourceHandle r).toInt
  | .reference _ => ""

/-- The text of a value. A reference has the text of what it stands for, if its chain of cells
is not too long. -/
def display (h : Heap) (v : Value) : String :=
  match h.chase defaultReferenceDepth v with
  | some target => h.displayTarget target
  | none => "*RECURSION*"

/-! ### Diagnostics -/

/-- The elements of an array, given the texts of their values. -/
def diagnosticPairs (pairs : List (Key × String)) : String :=
  "\x7b" ++ ", ".intercalate (pairs.map fun p ↦ p.1.diagnostic ++ ": " ++ p.2) ++ "\x7d"

/-- The diagnostic text of a value, inside the cells of `path` and while the content of the
cells `borrowed` is being changed and cannot be read. A walk that goes `depth` levels down is
cut there. -/
def diagnosticWithin (h : Heap) (borrowed : List CellId) :
    (depth : Nat) → (path : List CellId) → Value → String
  | _, _, .undefined => "Undefined"
  | _, _, .null => "Null"
  | _, _, .bool b => "Bool(" ++ (if b then "true" else "false") ++ ")"
  | _, _, .int n => "Int(" ++ Decimal.text n.toInt ++ ")"
  | _, _, .double d => "Double(" ++ d.write Double.diagnostic ++ ")"
  | _, _, .string s => "String(" ++ Text.quoted s.text ++ ")"
  | _, _, .object o => "Object(Object(" ++ (h.className o).text ++ "))"
  | _, _, .resource r =>
    "Resource(Resource(#" ++ Decimal.text (h.resourceHandle r).toInt ++ " " ++
      (h.resourceKind r).text ++ "))"
  | 0, _, .array _ | 0, _, .reference _ => "..."
  | depth + 1, path, .array t =>
    let pairs := (h.pairs t).map fun p ↦ (p.1, h.diagnosticWithin borrowed depth path p.2)
    "Array(" ++ diagnosticPairs pairs ++ ")"
  | depth + 1, path, .reference c =>
    let inner :=
      if c ∈ path then "*RECURSION*"
      else if c ∈ borrowed then "&<borrowed>"
      else "&" ++ h.diagnosticWithin borrowed depth (c :: path) (h.cell c)
    "Reference(" ++ inner ++ ")"

/-- The diagnostic text of a value. -/
def diagnostic (h : Heap) (borrowed : List CellId) (v : Value) : String :=
  h.diagnosticWithin borrowed h.extent [] v

/-- The diagnostic text of an array. -/
def diagnosticTable (h : Heap) (borrowed : List CellId) (t : TableId) : String :=
  diagnosticPairs ((h.pairs t).map fun p ↦ (p.1, h.diagnostic borrowed p.2))

/-- The diagnostic text of a cell. -/
def diagnosticCell (h : Heap) (borrowed : List CellId) (c : CellId) : String :=
  if c ∈ borrowed then "&<borrowed>"
  else "&" ++ h.diagnosticWithin borrowed h.extent [c] (h.cell c)

/-- The diagnostic text of an object. -/
def diagnosticObject (h : Heap) (o : ObjectId) : String :=
  "Object(" ++ (h.className o).text ++ ")"

end SharedValue.Heap
