import SharedValue.Decimal
import SharedValue.Text.Quoted
import SharedValue.Value

/-!
# Keys

An array has integer keys and text keys. A byte string that is the decimal form of a 64-bit
integer always stands for the integer, so one number has one key however it is spelled.
`Key.normalize` carries this out; a key that it leaves alone is `Key.IsNormal`, and tables store
such keys only (`normalize_isNormal`, `normalize_normalize`).

A `Label` is a key together with the buffer that its text came in. Keys are found and compared
by content, but the buffer of a stored key is held by the table, so labels carry it along.
-/

namespace SharedValue

/-- An array key. -/
inductive Key
  | int (n : Int64)
  | text (bytes : Bytes)
  deriving DecidableEq

namespace Key

/-- The key for a byte string: the integer that it spells, or itself. -/
def ofBytes (b : Bytes) : Key :=
  match Decimal.int64? b with
  | some n => .int n
  | none => .text b

/-- The key under which an entry is stored. -/
def normalize : Key → Key
  | .int n => .int n
  | .text b => ofBytes b

/-- A key whose text, if it is a text, does not spell an integer. -/
def IsNormal : Key → Prop
  | .int _ => True
  | .text b => Decimal.int64? b = none

instance : DecidablePred IsNormal
  | .int _ => .isTrue trivial
  | .text b => inferInstanceAs (Decidable (Decimal.int64? b = none))

/-- The integer of an integer key. -/
def int? : Key → Option Int64
  | .int n => some n
  | .text _ => none

/-- Integer keys come before text keys; integers are ordered as numbers, texts by their
bytes. -/
def order : Key → Key → Ordering
  | .int m, .int n => Ord.compare m.toInt n.toInt
  | .int _, .text _ => .lt
  | .text _, .int _ => .gt
  | .text a, .text b => Ord.compare a b

/-- The text shown for a key. -/
def display : Key → String
  | .int n => Decimal.text n.toInt
  | .text b => b.lossy

/-- The text of a key in diagnostics. -/
def diagnostic : Key → String
  | .int n => Decimal.text n.toInt
  | .text b => Text.quoted b.lossy

theorem ofBytes_isNormal (b : Bytes) : (ofBytes b).IsNormal := by
  unfold ofBytes
  split
  · trivial
  · assumption

theorem normalize_isNormal (k : Key) : k.normalize.IsNormal := by
  cases k with
  | int n => trivial
  | text b => exact ofBytes_isNormal b

theorem normalize_of_isNormal {k : Key} (h : k.IsNormal) : k.normalize = k := by
  cases k with
  | int n => rfl
  | text b =>
    have h : Decimal.int64? b = none := h
    simp [normalize, ofBytes, h]

@[simp]
theorem normalize_normalize (k : Key) : k.normalize.normalize = k.normalize :=
  normalize_of_isNormal k.normalize_isNormal

end Key

/-- A key and the buffer of its text. The buffer of an integer key is of no account and is
`Buffer.interned` throughout. -/
structure Label where
  key : Key
  buffer : Buffer
  deriving DecidableEq

namespace Label

/-- The label of an integer key. -/
def int (n : Int64) : Label := ⟨.int n, .interned⟩

/-- The text key of a string as it stands. -/
def ofStr (s : Str) : Label := ⟨.text s.bytes, s.buffer⟩

/-- The label under which an entry is stored; an integer drops the buffer it was spelled in. -/
def normalize (l : Label) : Label :=
  match l.key.normalize with
  | .int n => int n
  | .text b => ⟨.text b, l.buffer⟩

/-- The string of a text key. -/
def str? (l : Label) : Option Str :=
  match l.key with
  | .int _ => none
  | .text b => some ⟨b, l.buffer⟩

/-- The key as a value. -/
def toValue (l : Label) : Value :=
  match l.key with
  | .int n => .int n
  | .text b => .string ⟨b, l.buffer⟩

@[simp]
theorem key_normalize (l : Label) : l.normalize.key = l.key.normalize := by
  unfold normalize
  split
  next n h => simp [int, h]
  next b h => simp [h]

end Label

end SharedValue
