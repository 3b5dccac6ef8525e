import SharedValue.Double.Layout
import SharedValue.Event
import SharedValue.Heap.Element

/-!
# Decoding

A value is decoded from an event in the order in which the form presents it. An integer that is
too large becomes the nearest double, texts and bytes become strings, a sequence becomes a list
and a map an array, whose keys are normalized and where a later pair with the same key wins.
Events that no value corresponds to, and map keys that are no texts, are failures; the first one
in the order of the form is reported.

Decoding is called by the framework through which every serialized form presents its events, and
where it says nothing about an event the defaults of that framework apply. They are assumed here as
they are documented:

* an event of a sort that is not asked for is refused with its description and what was wanted
  (`Event.description`, `DecodeError.message`), without a look at what is in it;
* a small integer and a character are passed on as the integer or the text that they widen to;
* a map key is read as an owned text, which takes texts, characters and bytes that are UTF-8, and
  refuses every other event (`Event.keyText`).
-/

namespace SharedValue

/-- What was wanted where an event did not fit. -/
inductive Wanted
  | value
  | key
  deriving DecidableEq

/-- The description of what was wanted. -/
def Wanted.description : Wanted → String
  | .value => "a scalar, sequence or map"
  | .key => "a string"

/-- Why an event has no value. -/
inductive DecodeError
  /-- An event of a sort that does not fit, with its description. -/
  | invalidType (found : String) (wanted : Wanted)
  /-- A map key given as bytes that are no text. -/
  | keyNotText
  /-- An element that cannot be appended. -/
  | element (e : ValueError)
  deriving DecidableEq

/-- The message of a failure. -/
def DecodeError.message : DecodeError → String
  | .invalidType found wanted =>
    "invalid type: " ++ found ++ ", expected " ++ wanted.description
  | .keyNotText => "invalid value: byte array, expected " ++ Wanted.key.description
  | .element e => e.message

/-- Doubles in descriptions of events: never an exponent, and always a point. -/
def Double.described : Double.Layout where
  positional _ := true
  pointZero := true
  plusSign := false
  tie := .away
  nan := "NaN"
  infinity := "inf"

/-- The description of an event in messages. This is how the framework describes what it was given
where nothing was asked for it, by assumption. -/
def Event.description : Event → String
  | .unit => "unit value"
  | .absent | .present _ => "Option value"
  | .wrapper _ => "newtype struct"
  | .variant => "enum"
  | .bool b => "boolean \x60" ++ (if b then "true" else "false") ++ "\x60"
  | .int n => "integer \x60" ++ Decimal.text n.toInt ++ "\x60"
  | .natural n => "integer \x60" ++ Decimal.text n.toNat ++ "\x60"
  | .wideInt n => "integer \x60" ++ Decimal.text n ++ "\x60 as i128"
  | .wideNatural n => "integer \x60" ++ Decimal.text n ++ "\x60 as u128"
  | .double d => "floating point \x60" ++ d.write Double.described ++ "\x60"
  | .char c => "character \x60" ++ c.toString ++ "\x60"
  | .text s => "string " ++ s
  | .bytes _ => "byte array"
  | .sequence _ => "sequence"
  | .map _ => "map"

/-- The text of a map key. This is the framework's own reading of an owned text, by assumption: a
character is one, bytes are one if they are UTF-8, and an integer is none. -/
def Event.keyText : Event → Except DecodeError String
  | .char c => .ok c.toString
  | .text s => .ok s
  | .bytes b =>
    match b.text? with
    | some s => .ok s
    | none => .error .keyNotText
  | e => .error (.invalidType e.description .key)

namespace Heap

/-- A new string with the bytes of a text, as a value. -/
def newText (h : Heap) (b : Bytes) : Heap × Value :=
  let (h, s) := h.newStr b
  (h, .string s)

/-- Appends to a table that was just made. -/
def appendTo (h : Heap) (t : TableId) (v : Value) : Except ValueError Heap :=
  let table := h.table t
  match table.nextFree with
  | none => .error .slotOccupied
  | some n =>
    if table.stores (.int n) then .error .slotOccupied
    else .ok (h.setTable t (table.insertNew (Label.int n) (.value v)))

/-- Assigns under a text key in a table that was just made. -/
def storeText (h : Heap) (t : TableId) (key : String) (v : Value) : Heap :=
  let (h, s) := h.newStr (Bytes.ofText key)
  (h.store t (Label.ofStr s).normalize v).1

mutual

/-- The value of an event. A character goes the way of the text that it makes, and the events that
are refused are those for which the framework's defaults, as they are assumed, have no value. -/
def decode (h : Heap) : Event → Heap × Except DecodeError Value
  | .unit | .absent => (h, .ok .null)
  | .present e => h.decode e
  | .bool b => (h, .ok (.bool b))
  | .int n => (h, .ok (.int n))
  | .natural n =>
    match Decimal.bounded? n.toNat with
    | some k => (h, .ok (.int k))
    | none => (h, .ok (.double (Double.ofNat n.toNat)))
  | .double d => (h, .ok (.double d))
  | .char c =>
    let (h, v) := h.newText (Bytes.ofText c.toString)
    (h, .ok v)
  | .text s =>
    let (h, v) := h.newText (Bytes.ofText s)
    (h, .ok v)
  | .bytes b =>
    let (h, v) := h.newText b
    (h, .ok v)
  | .sequence items =>
    let (h, t) := h.newTable Table.empty
    match h.decodeItems t items with
    | (h, .ok ()) => (h, .ok (.array t))
    | (h, .error e) => (h, .error e)
  | .map pairs =>
    let (h, t) := h.newTable Table.empty
    match h.decodePairs t pairs with
    | (h, .ok ()) => (h, .ok (.array t))
    | (h, .error e) => (h, .error e)
  | .wrapper e => (h, .error (.invalidType (Event.wrapper e).description .value))
  | .variant => (h, .error (.invalidType Event.variant.description .value))
  | .wideInt n => (h, .error (.invalidType (Event.wideInt n).description .value))
  | .wideNatural n => (h, .error (.invalidType (Event.wideNatural n).description .value))

/-- Appends the values of a sequence's events to a table that was just made. -/
def decodeItems (h : Heap) (t : TableId) : List Event → Heap × Except DecodeError Unit
  | [] => (h, .ok ())
  | e :: rest =>
    match h.decode e with
    | (h, .error e) => (h, .error e)
    | (h, .ok v) =>
      match h.appendTo t v with
      | .error e => (h, .error (.element e))
      | .ok h => h.decodeItems t rest

/-- Assigns the pairs of a map's events in a table that was just made. A key is read before its
value. -/
def decodePairs (h : Heap) (t : TableId) : List (Event × Event) → Heap × Except DecodeError Unit
  | [] => (h, .ok ())
  | (k, e) :: rest =>
    match k.keyText with
    | .error e => (h, .error e)
    | .ok key =>
      match h.decode e with
      | (h, .error e) => (h, .error e)
      | (h, .ok v) => (h.storeText t key v).decodePairs t rest

end

end Heap

end SharedValue
