import SharedValue.Text.Bytes
import SharedValue.Double.Basic

/-!
# Events

A serialized form presents a value as an event: a scalar, an optional, a sequence of events or
a map of pairs of events. Encoding (`SharedValue.Encode`) turns a value into an event and
decoding (`SharedValue.Decode`) an event into a value; a format such as JSON
(`SharedValue.Json`) is a way of writing and reading events as text.

Integers come in four sizes, because a form may present numbers that no value can hold.
-/

namespace SharedValue

/-- What a serialized form presents. -/
inductive Event
  | unit
  /-- An optional that is empty. -/
  | absent
  /-- An optional that is filled. -/
  | present (e : Event)
  /-- A wrapper with a name around one event. -/
  | wrapper (e : Event)
  /-- A variant of an enumeration. -/
  | variant
  | bool (b : Bool)
  /-- A signed integer of at most 64 bits. -/
  | int (n : Int64)
  /-- An unsigned integer of at most 64 bits. -/
  | natural (n : UInt64)
  /-- A signed integer of 128 bits. -/
  | wideInt (n : Int)
  /-- An unsigned integer of 128 bits. -/
  | wideNatural (n : Nat)
  | double (d : Double)
  | char (c : Char)
  | text (s : String)
  | bytes (b : Bytes)
  | sequence (items : List Event)
  | map (pairs : List (Event × Event))

end SharedValue
