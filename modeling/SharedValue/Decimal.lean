import SharedValue.Text.Bytes

/-!
# Integers in decimal

`Decimal.text` writes an integer with a minus sign where needed and without leading zeros.
`Decimal.canonical?` is its reader: it accepts a byte string only in the form that `text`
writes, so that each integer has exactly one spelling, and `Decimal.int64?` bounds it to the
64-bit range. Signs in front of zero, plus signs, leading zeros and blanks are not part of the
form, and neither is the empty string.
-/

namespace SharedValue.Decimal

/-- A natural number in decimal. -/
def naturalText (n : Nat) : String :=
  String.ofList (Nat.toDigits 10 n)

/-- An integer in decimal. -/
def text (n : Int) : String :=
  if n < 0 then "-" ++ naturalText n.natAbs else naturalText n.natAbs

/-- The bytes `0` to `9`. -/
def isDigit (b : UInt8) : Bool :=
  0x30 ≤ b && b ≤ 0x39

/-- The number that a run of digits spells. -/
def value (digits : Bytes) : Nat :=
  digits.foldl (fun n b ↦ 10 * n + (b.toNat - 0x30)) 0

/-- A run of digits that does not begin with a zero, as a number. -/
def positive? : Bytes → Option Nat
  | [] => none
  | first :: rest =>
    if first ≠ 0x30 ∧ (first :: rest).all isDigit then some (value (first :: rest)) else none

/-- Reads the one spelling of an integer: `0`, or an optional minus sign and digits that do not
begin with a zero. -/
def canonical? : Bytes → Option Int
  | [0x30] => some 0
  | 0x2D :: digits => (positive? digits).map fun n ↦ -(n : Int)
  | digits => (positive? digits).map fun n ↦ (n : Int)

/-- An integer as a signed 64-bit word, if one holds it. -/
def bounded? (n : Int) : Option Int64 :=
  if Int64.minValue.toInt ≤ n ∧ n ≤ Int64.maxValue.toInt then some (Int64.ofInt n) else none

/-- The spelling of an integer, read only if a signed 64-bit word holds the number. -/
def int64? (s : Bytes) : Option Int64 := (canonical? s).bind bounded?

example : int64? (Bytes.ofText "-9223372036854775808") = some (-9223372036854775808) := by
  decide +kernel

example : int64? (Bytes.ofText "9223372036854775808") = none ∧ int64? (Bytes.ofText "-0") = none ∧
    int64? (Bytes.ofText "08") = none ∧ int64? (Bytes.ofText "") = none := by
  decide +kernel

end SharedValue.Decimal
