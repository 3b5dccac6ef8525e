import SharedValue.Decimal
import SharedValue.Double.Shortest

/-!
# Written forms of doubles

A `Double.Layout` says how the shortest digits of a double are set out: up to which powers of
ten they are written positionally, whether a whole number keeps a zero after its point, how the
exponent is written otherwise, and the texts of what is not a number. `Double.write` sets a
double out by a layout.
-/

namespace SharedValue.Double

/-- The decisions that a written form makes. -/
structure Layout where
  /-- Which exponents of the leading digit are written without an exponent. -/
  positional : Int → Bool
  /-- Whether a whole number in positional form ends in `.0`. -/
  pointZero : Bool
  /-- Whether a positive exponent has a plus sign. -/
  plusSign : Bool
  /-- Which of two equally near shortest decimals is written. -/
  tie : Tie
  /-- The text of every NaN. -/
  nan : String
  /-- The text of the positive infinity; the negative one has a minus sign in front. -/
  infinity : String

/-- Digits with a point and zeros where the exponent puts them. -/
def Layout.writePositional (l : Layout) (digits : List Char) (exponent : Int) : List Char :=
  if 0 ≤ exponent then
    digits ++ List.replicate exponent.toNat '0' ++ (if l.pointZero then ['.', '0'] else [])
  else
    let places := (-exponent).toNat
    if places < digits.length then
      digits.take (digits.length - places) ++ '.' :: digits.drop (digits.length - places)
    else '0' :: '.' :: List.replicate (places - digits.length) '0' ++ digits

/-- One digit, a point before the others if there are any, and the exponent of the leading
digit. -/
def Layout.writeExponential (l : Layout) (digits : List Char) (leading : Int) : List Char :=
  let mantissa :=
    match digits with
    | first :: second :: rest => first :: '.' :: second :: rest
    | short => short
  let sign := if leading < 0 then ['-'] else if l.plusSign then ['+'] else []
  mantissa ++ 'e' :: sign ++ Nat.toDigits 10 leading.natAbs

/-- The magnitude of a finite double. -/
def Layout.writeMagnitude (l : Layout) (d : Double) : List Char :=
  if d.isZero then l.writePositional ['0'] 0
  else
    let s := d.shortest l.tie
    let digits := Nat.toDigits 10 s.digits
    let leading : Int := s.exponent + (digits.length : Int) - 1
    if l.positional leading then l.writePositional digits s.exponent
    else l.writeExponential digits leading

/-- A double set out by a layout. -/
def write (l : Layout) (d : Double) : String :=
  if d.isNaN then l.nan
  else
    let sign := if d.negative then "-" else ""
    if d.isFinite then sign ++ String.ofList (l.writeMagnitude d) else sign ++ l.infinity

/-! ### The layouts in use -/

/-- The form shown to users: never an exponent, whole numbers without a point. -/
def plain : Layout where
  positional _ := true
  pointZero := false
  plusSign := false
  tie := .away
  nan := "NAN"
  infinity := "INF"

/-- The form in diagnostics: always a point or an exponent, the latter outside `1e-4` to
`1e16`. -/
def diagnostic : Layout where
  positional leading := -4 ≤ leading && leading < 16
  pointZero := true
  plusSign := false
  tie := .away
  nan := "NaN"
  infinity := "inf"

/-- The form in interchange texts, where a positive exponent has its sign and a tie goes to the
even digit. What is not finite has no form of its own there. -/
def interchange : Layout where
  positional leading := -5 ≤ leading && leading ≤ 15
  pointZero := true
  plusSign := true
  tie := .even
  nan := "null"
  infinity := "null"

example : write plain ⟨0x3E7AD7F29ABCAF48⟩ = "0.0000001" ∧ write plain ⟨0x8000000000000000⟩ = "-0" :=
  by decide +kernel

example : write diagnostic ⟨0x4341C37937E08000⟩ = "1e16" ∧
    write interchange ⟨0x4341C37937E08000⟩ = "1e+16" ∧
    write diagnostic ⟨0x3FF0000000000000⟩ = "1.0" := by
  decide +kernel

end SharedValue.Double
