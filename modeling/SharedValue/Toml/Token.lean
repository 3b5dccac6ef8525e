import SharedValue.Decimal
import SharedValue.Double.Nearest
import SharedValue.Text.Scan

/-!
# Tokens of TOML documents

The smallest parts of a document in the configuration language TOML 1.0: blanks, line ends,
comments, strings and numbers. A reader takes what is left of the text and gives back what it
read and what is left after that, or `none` where the text is malformed.

Only integers matter to whoever reads a configuration, so every other scalar is checked and
then forgotten.
-/

namespace SharedValue.Toml

open Text (expect?)

/-- A reader of a part of a document. -/
abbrev Reader (α : Type) := List Char → Option (α × List Char)

/-! ### Blanks, line ends and comments -/

/-- Blanks within a line. -/
def isBlank (c : Char) : Bool := c = ' ' || c = '\t'

/-- The text after any blanks. -/
def skipBlanks (cs : List Char) : List Char := cs.dropWhile isBlank

/-- Characters that may stand in a comment or string: all but control characters, the tab
excepted. -/
def isTextual (c : Char) : Bool := c = '\t' || (0x20 ≤ c.toNat && c.toNat ≠ 0x7F)

/-- The text after a line end. -/
def lineEnd? : List Char → Option (List Char)
  | '\n' :: cs => some cs
  | '\r' :: '\n' :: cs => some cs
  | _ => none

/-- The text after a comment, if one begins here. -/
def skipComment : List Char → List Char
  | '#' :: cs => cs.dropWhile isTextual
  | cs => cs

/-- The text after the end of an expression: blanks, an optional comment and a line end or the
end of the document. -/
def endExpression? (cs : List Char) : Option (List Char) :=
  match skipComment (skipBlanks cs) with
  | [] => some []
  | cs => lineEnd? cs

/-- The text after blanks, line ends and comments, each comment ending its line. -/
def skipTrivia : (fuel : Nat) → List Char → Option (List Char)
  | 0, cs => some cs
  | fuel + 1, cs =>
    match skipBlanks cs with
    | '#' :: rest => lineEnd? (rest.dropWhile isTextual) >>= skipTrivia fuel
    | cs =>
      match lineEnd? cs with
      | some rest => skipTrivia fuel rest
      | none => some cs

/-! ### Digits -/

/-- The value of a digit, letters in either case counting from ten. -/
def digitValue (c : Char) : Nat :=
  if c.isDigit then c.toNat - 48
  else if 'a' ≤ c ∧ c ≤ 'z' then c.toNat - 87
  else if 'A' ≤ c ∧ c ≤ 'Z' then c.toNat - 55
  else 36

/-- Digits of a base, with single underscores allowed between two of them. -/
def digitRun (base : Nat) : List Char → List Char × List Char
  | [] => ([], [])
  | '_' :: c :: cs =>
    if digitValue c < base then
      let (ds, rest) := digitRun base cs
      (c :: ds, rest)
    else ([], '_' :: c :: cs)
  | c :: cs =>
    if digitValue c < base then
      let (ds, rest) := digitRun base cs
      (c :: ds, rest)
    else ([], c :: cs)

/-- At least one digit of a base; an underscore does not come first. -/
def digits? (base : Nat) : Reader (List Char)
  | c :: cs =>
    if digitValue c < base then
      let (ds, rest) := digitRun base cs
      some (c :: ds, rest)
    else none
  | [] => none

/-- The number that digits of a base spell. -/
def digitsValue (base : Nat) (ds : List Char) : Nat :=
  ds.foldl (fun n c ↦ base * n + digitValue c) 0

/-- A number of exactly `count` decimal digits within bounds. -/
def fixed? (count low high : Nat) : Reader Nat := fun cs ↦
  let ds := cs.take count
  let n := digitsValue 10 ds
  if ds.length = count ∧ ds.all Char.isDigit ∧ low ≤ n ∧ n ≤ high then some (n, cs.drop count)
  else none

/-! ### Strings -/

/-- The character with a code point given by `count` hexadecimal digits. -/
def codePoint? (count : Nat) : Reader Char := fun cs ↦
  let ds := cs.take count
  let n := digitsValue 16 ds
  if ds.length = count ∧ ds.all (fun c ↦ digitValue c < 16) ∧ n.isValidChar then
    some (Char.ofNat n, cs.drop count)
  else none

/-- The character of an escape whose backslash was read. -/
def escape? : Reader Char
  | 'b' :: cs => some ('\x08', cs)
  | 't' :: cs => some ('\t', cs)
  | 'n' :: cs => some ('\n', cs)
  | 'f' :: cs => some ('\x0c', cs)
  | 'r' :: cs => some ('\r', cs)
  | '"' :: cs => some ('"', cs)
  | '\\' :: cs => some ('\\', cs)
  | 'u' :: cs => codePoint? 4 cs
  | 'U' :: cs => codePoint? 8 cs
  | _ => none

/-- The rest of a string on one line whose opening quotation mark was read. -/
def basicString : (fuel : Nat) → Reader (List Char)
  | 0, _ => none
  | _ + 1, '"' :: cs => some ([], cs)
  | fuel + 1, '\\' :: cs => do
    let (c, cs) ← escape? cs
    let (s, cs) ← basicString fuel cs
    return (c :: s, cs)
  | fuel + 1, c :: cs =>
    if isTextual c then do
      let (s, cs) ← basicString fuel cs
      return (c :: s, cs)
    else none
  | _ + 1, [] => none

/-- The rest of a string on one line in which a backslash is a character like others. -/
def literalString : Reader (List Char)
  | '\'' :: cs => some ([], cs)
  | c :: cs =>
    if isTextual c then do
      let (s, cs) ← literalString cs
      return (c :: s, cs)
    else none
  | [] => none

/-- The text after the quotation marks that end a string of several lines: three of them, and up
to two before that belong to the string. -/
def closing? (mark : Char) (cs : List Char) : Option (List Char) :=
  let marks := (cs.takeWhile (· = mark)).length
  if 3 ≤ marks then some (cs.drop (min marks 5)) else none

/-- The rest of a string of several lines. Where backslashes escape, one at the end of a line
joins it to the next text. -/
def multilineString (mark : Char) (escapes : Bool) : (fuel : Nat) → List Char →
    Option (List Char)
  | 0, _ => none
  | _ + 1, [] => none
  | fuel + 1, c :: cs =>
    if c = mark then
      match closing? mark (c :: cs) with
      | some rest => some rest
      | none => multilineString mark escapes fuel cs
    else if escapes ∧ c = '\\' then
      match escape? cs with
      | some (_, rest) => multilineString mark escapes fuel rest
      | none =>
        lineEnd? (skipBlanks cs) >>= fun rest ↦
          multilineString mark escapes fuel
            (rest.dropWhile fun c ↦ c = '\n' || isBlank c)
    else if isTextual c ∨ c = '\n' then multilineString mark escapes fuel cs
    else lineEnd? (c :: cs) >>= multilineString mark escapes fuel

/-- The text after a string of any form. -/
def skipString? (cs : List Char) : Option (List Char) :=
  let fuel := cs.length + 1
  match cs with
  | '"' :: '"' :: '"' :: cs => multilineString '"' true fuel cs
  | '\'' :: '\'' :: '\'' :: cs => multilineString '\'' false fuel cs
  | '"' :: cs => (basicString fuel cs).map (·.2)
  | '\'' :: cs => (literalString cs).map (·.2)
  | _ => none

/-! ### Numbers and dates -/

/-- The sign before a number: whether it is a minus, and the text after it. -/
def sign : List Char → Bool × List Char
  | '-' :: cs => (true, cs)
  | '+' :: cs => (false, cs)
  | cs => (false, cs)

/-- The digits of a decimal integer: a zero alone, or digits that begin with another one. -/
def decimalDigits? : Reader (List Char)
  | '0' :: cs => some (['0'], cs)
  | cs => digits? 10 cs

/-- An integer in one of the four bases. -/
def integer? (cs : List Char) : Option (Int64 × List Char) := do
  match cs with
  | '0' :: 'x' :: cs =>
    let (ds, cs) ← digits? 16 cs
    return (← Decimal.bounded? (digitsValue 16 ds), cs)
  | '0' :: 'o' :: cs =>
    let (ds, cs) ← digits? 8 cs
    return (← Decimal.bounded? (digitsValue 8 ds), cs)
  | '0' :: 'b' :: cs =>
    let (ds, cs) ← digits? 2 cs
    return (← Decimal.bounded? (digitsValue 2 ds), cs)
  | cs =>
    let (negative, cs) := sign cs
    let (ds, cs) ← decimalDigits? cs
    let n : Int := digitsValue 10 ds
    return (← Decimal.bounded? (if negative then -n else n), cs)

/-- The exponent of a float. -/
def exponent? (cs : List Char) : Option (Int × List Char) := do
  match cs with
  | 'e' :: cs | 'E' :: cs =>
    let (negative, cs) := sign cs
    let (ds, cs) ← digits? 10 cs
    let n : Int := digitsValue 10 ds
    return (if negative then -n else n, cs)
  | _ => none

/-- The text after a float that has a fraction or an exponent. One that rounds to the positive
infinity is refused. -/
def skipDecimalFloat? (cs : List Char) : Option (List Char) := do
  let (negative, cs) := sign cs
  let (whole, cs) ← decimalDigits? cs
  let (fraction, cs) ←
    match cs with
    | '.' :: cs => digits? 10 cs
    | cs => if (exponent? cs).isSome then some ([], cs) else none
  let (e, cs) := (exponent? cs).getD (0, cs)
  let d := Double.ofDecimal negative (digitsValue 10 (whole ++ fraction)) (e - fraction.length)
  if d = Double.infinity false then none else some cs

/-- The text after a float of any form. -/
def skipFloat? (cs : List Char) : Option (List Char) :=
  match skipDecimalFloat? cs with
  | some rest => some rest
  | none =>
    match (sign cs).2 with
    | 'i' :: 'n' :: 'f' :: rest => some rest
    | 'n' :: 'a' :: 'n' :: rest => some rest
    | _ => none

/-- The number of days in a month. -/
def daysIn (year month : Nat) : Nat :=
  if month = 2 then
    if year % 4 = 0 ∧ (year % 100 ≠ 0 ∨ year % 400 = 0) then 29 else 28
  else if month = 4 ∨ month = 6 ∨ month = 9 ∨ month = 11 then 30
  else 31

/-- The text after a date. -/
def skipDate? (cs : List Char) : Option (List Char) := do
  let (year, cs) ← fixed? 4 0 9999 cs
  let cs ← expect? ['-'] cs
  let (month, cs) ← fixed? 2 1 12 cs
  let cs ← expect? ['-'] cs
  let (_, cs) ← fixed? 2 1 (daysIn year month) cs
  return cs

/-- The text after a time of day; a second may be a leap second. -/
def skipTime? (cs : List Char) : Option (List Char) := do
  let (_, cs) ← fixed? 2 0 23 cs
  let cs ← expect? [':'] cs
  let (_, cs) ← fixed? 2 0 59 cs
  let cs ← expect? [':'] cs
  let (_, cs) ← fixed? 2 0 60 cs
  match cs with
  | '.' :: d :: rest => if d.isDigit then some (rest.dropWhile Char.isDigit) else some cs
  | cs => some cs

/-- The text after the offset of a time, if there is one. -/
def skipOffset (cs : List Char) : List Char :=
  match cs with
  | 'Z' :: rest | 'z' :: rest => rest
  | '+' :: rest | '-' :: rest =>
    let offset := do
      let (_, rest) ← fixed? 2 0 23 rest
      let rest ← expect? [':'] rest
      let (_, rest) ← fixed? 2 0 59 rest
      return rest
    offset.getD cs
  | cs => cs

/-- The text after a date, a time, or both with an optional offset. -/
def skipDateTime? (cs : List Char) : Option (List Char) :=
  match skipDate? cs with
  | none => skipTime? cs
  | some rest =>
    match rest with
    | c :: time =>
      if c = 'T' ∨ c = 't' ∨ c = ' ' then
        match skipTime? time with
        | some rest => some (skipOffset rest)
        | none => some rest
      else some rest
    | [] => some []

/-- A scalar: its value if it is an integer. -/
def scalar? (cs : List Char) : Option (Option Int64 × List Char) :=
  match cs with
  | '"' :: _ | '\'' :: _ => (skipString? cs).map (none, ·)
  | 't' :: 'r' :: 'u' :: 'e' :: rest => some (none, rest)
  | 'f' :: 'a' :: 'l' :: 's' :: 'e' :: rest => some (none, rest)
  | cs =>
    match skipDateTime? cs with
    | some rest => some (none, rest)
    | none =>
      match skipFloat? cs with
      | some rest => some (none, rest)
      | none => (integer? cs).map fun (n, rest) ↦ (some n, rest)

/-! ### Keys -/

/-- Characters of a key without quotation marks. -/
def isKeyChar (c : Char) : Bool :=
  ('a' ≤ c && c ≤ 'z') || ('A' ≤ c && c ≤ 'Z') || c.isDigit || c = '_' || c = '-'

/-- One key, quoted or not. -/
def key? : Reader String
  | '"' :: cs => (basicString (cs.length + 1) cs).map fun (s, rest) ↦ (String.ofList s, rest)
  | '\'' :: cs => (literalString cs).map fun (s, rest) ↦ (String.ofList s, rest)
  | cs =>
    match cs.takeWhile isKeyChar with
    | [] => none
    | s => some (String.ofList s, cs.dropWhile isKeyChar)

/-- Keys with points between, blanks allowed around each. -/
def path? : (fuel : Nat) → Reader (List String)
  | 0, _ => none
  | fuel + 1, cs => do
    let (k, cs) ← key? (skipBlanks cs)
    match skipBlanks cs with
    | '.' :: cs =>
      let (ks, cs) ← path? fuel cs
      return (k :: ks, cs)
    | cs => return ([k], cs)

end SharedValue.Toml
