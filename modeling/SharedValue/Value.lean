import SharedValue.Text.Bytes
import SharedValue.Double.Basic

/-!
# Values

A value is a scalar, held in place, or a handle to something shared: the buffer of a string, a
table, an object, a resource or a reference cell. The shared things themselves live in a heap
(`SharedValue.Heap`) under the names introduced here, and a value mentions them by name. Two
values hold the same thing exactly when they mention the same name, so copying a value never
copies what it refers to.

Strings are an exception: they never change, so a string carries its bytes along with the name
of its buffer. The empty string and the strings of one byte have one buffer each, shared by all
their occurrences; every other string that is built has a buffer of its own.
-/

namespace SharedValue

/-! ### Names of shared things -/

/-- The name of a table. -/
structure TableId where
  index : Nat
  deriving DecidableEq

/-- The name of an object. -/
structure ObjectId where
  index : Nat
  deriving DecidableEq

/-- The name of a resource. -/
structure ResourceId where
  index : Nat
  deriving DecidableEq

/-- The name of a reference cell. -/
structure CellId where
  index : Nat
  deriving DecidableEq

/-- The name of a string's buffer. -/
inductive Buffer
  /-- The one buffer of its content, for strings of at most one byte. -/
  | interned
  /-- A buffer made for one string. -/
  | own (index : Nat)
  deriving DecidableEq

/-! ### Strings -/

/-- A string: its bytes and the buffer that holds them. Equality of the type compares both;
`Str.equal` compares the bytes alone. -/
structure Str where
  bytes : Bytes
  buffer : Buffer
  deriving DecidableEq

namespace Str

/-- The empty string. -/
def empty : Str := ⟨[], .interned⟩

/-- Strings of at most one byte share the buffer of their content. -/
def isInternable (b : Bytes) : Bool := b.length ≤ 1

/-- Whether the buffer is one of the interned ones. -/
def isInterned (s : Str) : Bool := s.buffer = .interned

/-- Equality of content, which is how strings are compared. -/
def equal (s t : Str) : Bool := s.bytes = t.bytes

/-- The text shown for a string. -/
def text (s : Str) : String := s.bytes.lossy

end Str

/-! ### Values and their kinds -/

/-- What sort of thing a value is. -/
inductive Kind
  | undefined | null | bool | int | double | string | array | object | resource | reference
  deriving DecidableEq

/-- The name of a kind, as messages give it. -/
def Kind.name : Kind → String
  | .undefined => "undefined"
  | .null => "null"
  | .bool => "bool"
  | .int => "int"
  | .double => "double"
  | .string => "string"
  | .array => "array"
  | .object => "object"
  | .resource => "resource"
  | .reference => "reference"

/-- A value. -/
inductive Value
  /-- The content of a place that was declared and never written. -/
  | undefined
  | null
  | bool (b : Bool)
  | int (n : Int64)
  | double (d : Double)
  | string (s : Str)
  | array (t : TableId)
  | object (o : ObjectId)
  | resource (r : ResourceId)
  /-- An alias of the content of a cell. -/
  | reference (c : CellId)
  deriving DecidableEq

/-- The kind of a value, without following references. -/
def Value.kind : Value → Kind
  | .undefined => .undefined
  | .null => .null
  | .bool _ => .bool
  | .int _ => .int
  | .double _ => .double
  | .string _ => .string
  | .array _ => .array
  | .object _ => .object
  | .resource _ => .resource
  | .reference _ => .reference

/-- What a place that may be undefined shows: null where nothing was written. -/
def Value.shown : Value → Value
  | .undefined => .null
  | v => v

/-! ### Failures -/

/-- Why an operation on values fails. That a key is absent is never a failure. -/
inductive ValueError
  /-- A value of another kind was needed. -/
  | typeMismatch (expected found : Kind)
  /-- A value of this kind cannot be a key. -/
  | illegalKey (found : Kind)
  /-- The next integer key is taken, or there is none left. -/
  | slotOccupied
  /-- A chain of references is longer than the limit, which a cycle is for every limit. -/
  | referenceDepth (limit : Nat)
  deriving DecidableEq

/-- The message of a failure. -/
def ValueError.message : ValueError → String
  | .typeMismatch expected found =>
    "type mismatch: expected " ++ expected.name ++ ", got " ++ found.name
  | .illegalKey found => "illegal offset type: " ++ found.name
  | .slotOccupied =>
    "cannot add element to the array as the next element is already occupied"
  | .referenceDepth limit => "reference chain exceeds " ++ toString limit ++ " levels"

/-- The table of an array, or the failure of a value that is none. -/
def Value.expectArray : Value → Except ValueError TableId
  | .array t => .ok t
  | v => .error (.typeMismatch .array v.kind)

end SharedValue
