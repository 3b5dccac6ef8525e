import SharedValue.Decimal
import SharedValue.Double.Nearest
import SharedValue.Event
import SharedValue.Text.Scan

/-!
# Reading JSON

JSON text as an event, by the grammar of the standard and nothing beyond it: no trailing text,
no raw control characters in strings, no escape that stands for half a character, no number
beyond the range of doubles. An integer is presented in the smallest size that holds it, and as
the nearest double if none does; every other number, and `-0`, is presented as the nearest
double. Arrays and objects may be nested up to 127 deep.

The readers take what is left of the text and give back what is left after them, or `none` if
the text is malformed. Each consumes characters or descends into a part, and `fuel` counts these
steps; `Json.read` gives them as many as any text can need.
-/

namespace SharedValue.Json

open Text (expect?)

/-- How deep arrays and objects may be nested. -/
def nestingLimit : Nat := 127

/-- Blanks between tokens. -/
def isBlank (c : Char) : Bool := c = ' ' || c = '\t' || c = '\n' || c = '\r'

/-- The text after any blanks. -/
def skipBlanks (cs : List Char) : List Char := cs.dropWhile isBlank

/-! ### Strings -/

/-- The value of a hexadecimal digit in either case. -/
def hexValue? (c : Char) : Option Nat :=
  if '0' ≤ c ∧ c ≤ '9' then some (c.toNat - 48)
  else if 'a' ≤ c ∧ c ≤ 'f' then some (c.toNat - 87)
  else if 'A' ≤ c ∧ c ≤ 'F' then some (c.toNat - 55)
  else none

/-- The value of four hexadecimal digits. -/
def hexWord? : List Char → Option (Nat × List Char)
  | a :: b :: c :: d :: cs => do
    return ((((← hexValue? a) * 16 + (← hexValue? b)) * 16 + (← hexValue? c)) * 16 +
      (← hexValue? d), cs)
  | _ => none

/-- The character of a `u` escape. The two halves of a surrogate pair make one character, and
neither stands alone. -/
def unicodeEscape? (cs : List Char) : Option (Char × List Char) := do
  let (high, cs) ← hexWord? cs
  if 0xD800 ≤ high ∧ high < 0xDC00 then
    let (low, cs) ← expect? ['\\', 'u'] cs >>= hexWord?
    if 0xDC00 ≤ low ∧ low < 0xE000 then
      return (Char.ofNat (0x10000 + (high - 0xD800) * 0x400 + (low - 0xDC00)), cs)
    else none
  else if 0xDC00 ≤ high ∧ high < 0xE000 then none
  else return (Char.ofNat high, cs)

/-- The character of an escape whose backslash was read. -/
def escape? : List Char → Option (Char × List Char)
  | '"' :: cs => some ('"', cs)
  | '\\' :: cs => some ('\\', cs)
  | '/' :: cs => some ('/', cs)
  | 'b' :: cs => some ('\x08', cs)
  | 'f' :: cs => some ('\x0c', cs)
  | 'n' :: cs => some ('\n', cs)
  | 'r' :: cs => some ('\r', cs)
  | 't' :: cs => some ('\t', cs)
  | 'u' :: cs => unicodeEscape? cs
  | _ => none

/-- The rest of a string whose opening quotation mark was read; `read` is what went before, last
character first. -/
def readString (read : List Char) : (fuel : Nat) → List Char → Option (String × List Char)
  | 0, _ => none
  | _ + 1, [] => none
  | _ + 1, '"' :: cs => some (String.ofList read.reverse, cs)
  | fuel + 1, '\\' :: cs => do
    let (c, cs) ← escape? cs
    readString (c :: read) fuel cs
  | fuel + 1, c :: cs => if c.toNat < 0x20 then none else readString (c :: read) fuel cs

/-! ### Numbers -/

/-- The digits that a text begins with, and the text after them. -/
def digits (cs : List Char) : List Char × List Char :=
  (cs.takeWhile Char.isDigit, cs.dropWhile Char.isDigit)

/-- The number that digits spell. -/
def digitsValue (ds : List Char) : Nat := ds.foldl (fun n c ↦ 10 * n + (c.toNat - 48)) 0

/-- The whole part of a number: one zero, or digits that begin with another digit. -/
def wholePart? (cs : List Char) : Option (List Char × List Char) :=
  match digits cs with
  | ([], _) => none
  | ('0' :: _ :: _, _) => none
  | found => some found

/-- The digits after a point, if there is one. At least one digit must follow the point. -/
def fractionPart? : List Char → Option (List Char × List Char)
  | '.' :: cs =>
    match digits cs with
    | ([], _) => none
    | found => some found
  | cs => some ([], cs)

/-- The exponent, if there is one. At least one digit must follow its sign. -/
def exponentPart? (cs : List Char) : Option (Option Int × List Char) :=
  let exponent (negative : Bool) (cs : List Char) : Option (Option Int × List Char) :=
    match digits cs with
    | ([], _) => none
    | (ds, cs) =>
      let n : Int := digitsValue ds
      some (some (if negative then -n else n), cs)
  match cs with
  | 'e' :: '-' :: cs | 'E' :: '-' :: cs => exponent true cs
  | 'e' :: '+' :: cs | 'E' :: '+' :: cs => exponent false cs
  | 'e' :: cs | 'E' :: cs => exponent false cs
  | cs => some (none, cs)

/-- A double as an event, unless it is beyond the finite ones. -/
def finite? (d : Double) : Option Event := if d.isFinite then some (.double d) else none

/-- An integer as an event. The negative zero is a double. -/
def integer? (negative : Bool) (n : Nat) : Option Event :=
  if negative then
    if n = 0 then finite? (Double.ofDecimal true 0 0)
    else
      match Decimal.bounded? (-n) with
      | some k => some (.int k)
      | none => finite? (Double.ofDecimal true n 0)
  else
    match Decimal.bounded? n with
    | some k => some (.int k)
    | none =>
      if n < UInt64.size then some (.natural (UInt64.ofNat n))
      else finite? (Double.ofDecimal false n 0)

/-- A number whose sign was read. -/
def readNumber (negative : Bool) (cs : List Char) : Option (Event × List Char) := do
  let (whole, cs) ← wholePart? cs
  let (fraction, cs) ← fractionPart? cs
  let (exponent, cs) ← exponentPart? cs
  if fraction = [] ∧ exponent = none then
    return (← integer? negative (digitsValue whole), cs)
  else
    let e := exponent.getD 0 - fraction.length
    return (← finite? (Double.ofDecimal negative (digitsValue (whole ++ fraction)) e), cs)

/-! ### Values -/

mutual

/-- A value at the given depth of nesting, blanks before it allowed. -/
def readValue : (fuel depth : Nat) → List Char → Option (Event × List Char)
  | 0, _, _ => none
  | fuel + 1, depth, cs =>
    match skipBlanks cs with
    | 'n' :: cs => do return (.unit, ← expect? ['u', 'l', 'l'] cs)
    | 't' :: cs => do return (.bool true, ← expect? ['r', 'u', 'e'] cs)
    | 'f' :: cs => do return (.bool false, ← expect? ['a', 'l', 's', 'e'] cs)
    | '"' :: cs => do
      let (s, cs) ← readString [] fuel cs
      return (.text s, cs)
    | '[' :: cs =>
      if depth < nestingLimit then do
        let (items, cs) ← readItems fuel (depth + 1) true cs
        return (.sequence items, cs)
      else none
    | '\x7b' :: cs =>
      if depth < nestingLimit then do
        let (pairs, cs) ← readPairs fuel (depth + 1) true cs
        return (.map pairs, cs)
      else none
    | '-' :: cs => readNumber true cs
    | cs => readNumber false cs

/-- The items of an array up to its end. After the first one a comma stands before each. -/
def readItems : (fuel depth : Nat) → (first : Bool) → List Char → Option (List Event × List Char)
  | 0, _, _, _ => none
  | fuel + 1, depth, first, cs =>
    match skipBlanks cs with
    | ']' :: cs => some ([], cs)
    | cs => do
      let cs ← if first then some cs else expect? [','] cs
      let (item, cs) ← readValue fuel depth cs
      let (items, cs) ← readItems fuel depth false cs
      return (item :: items, cs)

/-- The pairs of an object up to its end. After the first one a comma stands before each. -/
def readPairs : (fuel depth : Nat) → (first : Bool) → List Char →
    Option (List (Event × Event) × List Char)
  | 0, _, _, _ => none
  | fuel + 1, depth, first, cs =>
    match skipBlanks cs with
    | '\x7d' :: cs => some ([], cs)
    | cs => do
      let cs ← if first then some cs else expect? [','] cs
      let cs ← expect? ['"'] (skipBlanks cs)
      let (key, cs) ← readString [] fuel cs
      let cs ← expect? [':'] (skipBlanks cs)
      let (value, cs) ← readValue fuel depth cs
      let (pairs, cs) ← readPairs fuel depth false cs
      return ((.text key, value) :: pairs, cs)

end

/-- The event of a JSON text, if it is well-formed. -/
def read (text : String) : Option Event := do
  let cs := text.toList
  let (e, rest) ← readValue (2 * cs.length + 2) 0 cs
  if skipBlanks rest = [] then some e else none

end SharedValue.Json
