import SharedValue.Double.Layout
import SharedValue.Event

/-!
# Writing JSON

An event as JSON text, without blanks. Strings escape quotation marks, backslashes and control
characters and nothing else. A map key is always a string, so an integer key is written as its
decimal text; a double that is not finite is written as null, the nearest thing the format has.
Events that no value is encoded as are written as what they wrap or come closest to.
-/

namespace SharedValue.Json

/-- A hexadecimal digit in lower case. -/
def hexDigit (n : Nat) : Char := Nat.digitChar (n % 16)

/-- One character inside a JSON string. -/
def escape (c : Char) : List Char :=
  match c with
  | '"' => ['\\', '"']
  | '\\' => ['\\', '\\']
  | '\x08' => ['\\', 'b']
  | '\x0c' => ['\\', 'f']
  | '\n' => ['\\', 'n']
  | '\r' => ['\\', 'r']
  | '\t' => ['\\', 't']
  | c =>
    if c.toNat < 0x20 then ['\\', 'u', '0', '0', hexDigit (c.toNat / 16), hexDigit c.toNat]
    else [c]

/-- A JSON string. -/
def quote (s : String) : String := String.ofList ('"' :: s.toList.flatMap escape ++ ['"'])

/-- A number that is a double. -/
def number (d : Double) : String :=
  if d.isFinite then d.write Double.interchange else "null"

/-- An integer as a map key. -/
def quoteInt (n : Int) : String := quote (Decimal.text n)

mutual

/-- The JSON text of an event. -/
def write : Event → String
  | .unit | .absent => "null"
  | .present e | .wrapper e => write e
  | .variant => "null"
  | .bool b => if b then "true" else "false"
  | .int n => Decimal.text n.toInt
  | .natural n => Decimal.text n.toNat
  | .wideInt n => Decimal.text n
  | .wideNatural n => Decimal.text n
  | .double d => number d
  | .char c => quote c.toString
  | .text s => quote s
  | .bytes b => "[" ++ ",".intercalate (b.map fun x ↦ Decimal.text x.toNat) ++ "]"
  | .sequence items => "[" ++ ",".intercalate (writeItems items) ++ "]"
  | .map pairs => "\x7b" ++ ",".intercalate (writePairs pairs) ++ "\x7d"

/-- The JSON texts of events. -/
def writeItems : List Event → List String
  | [] => []
  | e :: rest => write e :: writeItems rest

/-- The JSON texts of the pairs of a map. -/
def writePairs : List (Event × Event) → List String
  | [] => []
  | (k, e) :: rest => (writeKey k ++ ":" ++ write e) :: writePairs rest

/-- The JSON text of a map key. -/
def writeKey : Event → String
  | .int n => quoteInt n.toInt
  | .natural n => quoteInt n.toNat
  | .bool b => quote (if b then "true" else "false")
  | .char c => quote c.toString
  | .text s => quote s
  | _ => quote ""

end

end SharedValue.Json
