/-!
# Byte strings and their text

Strings are sequences of bytes that need not be text. `Bytes.text?` reads a byte string as
UTF-8, `Bytes.ofText` writes a text back, and the two are inverse on well-formed input
(`text?_ofText`, `ofText_of_text?`). `Bytes.lossy` gives every byte string a text: a well-formed
one is its own text, and in any other each maximal ill-formed part becomes one U+FFFD, where
the maximal part is the longest run of bytes that begins a well-formed character.
-/

namespace SharedValue

/-- A byte string, first byte first. -/
abbrev Bytes := List UInt8

namespace Bytes

/-- The text that the bytes spell in UTF-8, if they are well-formed. -/
def text? (b : Bytes) : Option String :=
  String.fromUTF8? b.toByteArray

/-- The bytes of a text in UTF-8. -/
def ofText (s : String) : Bytes :=
  s.toByteArray.data.toList

/-! ### Ill-formed bytes -/

/-- The bounds of the byte that may follow the first byte of a character of several bytes, and
how many bytes follow in all. The bounds of the second byte exclude overlong forms, surrogates
and values above U+10FFFF; `none` for a byte that begins no such character. -/
def continuation? (first : UInt8) : Option (UInt8 × UInt8 × Nat) :=
  if 0xC2 ≤ first ∧ first ≤ 0xDF then some (0x80, 0xBF, 1)
  else if first = 0xE0 then some (0xA0, 0xBF, 2)
  else if first = 0xED then some (0x80, 0x9F, 2)
  else if 0xE1 ≤ first ∧ first ≤ 0xEF then some (0x80, 0xBF, 2)
  else if first = 0xF0 then some (0x90, 0xBF, 3)
  else if 0xF1 ≤ first ∧ first ≤ 0xF3 then some (0x80, 0xBF, 3)
  else if first = 0xF4 then some (0x80, 0x8F, 3)
  else none

/-- How many of the bytes after `first` belong to the same character or to the same maximal
ill-formed part, and whether the character is complete. -/
def follow (first : UInt8) (rest : Bytes) : Nat × Bool :=
  if first < 0x80 then (0, true)
  else
    match continuation? first with
    | none => (0, false)
    | some (low, high, count) =>
      match rest with
      | [] => (0, false)
      | second :: tail =>
        if low ≤ second ∧ second ≤ high then
          let more := (tail.take (count - 1)).takeWhile fun b ↦ 0x80 ≤ b ∧ b ≤ 0xBF
          (1 + more.length, more.length = count - 1)
        else (0, false)

/-- The payload of a complete character: the low bits of the first byte, then six bits of each
byte that follows. -/
def scalar (first : UInt8) (tail : Bytes) : Char :=
  let lead : Nat :=
    match tail.length with
    | 0 => first.toNat
    | 1 => first.toNat % 0x20
    | 2 => first.toNat % 0x10
    | _ => first.toNat % 0x08
  Char.ofNat (tail.foldl (fun n b ↦ n * 0x40 + b.toNat % 0x40) lead)

/-- The characters of a byte string, with U+FFFD for each maximal ill-formed part. -/
def repaired : Bytes → List Char
  | [] => []
  | first :: rest =>
    let (count, complete) := follow first rest
    (if complete then scalar first (rest.take count) else '\uFFFD') :: repaired (rest.drop count)
termination_by b => b.length
decreasing_by simp only [List.length_drop, List.length_cons]; omega

/-- A text for every byte string: its own if it has one, and otherwise the text in which each
maximal ill-formed part is replaced by U+FFFD. -/
def lossy (b : Bytes) : String :=
  b.text?.getD (String.ofList (repaired b))

/-! ### The two readings agree with writing -/

@[simp]
theorem toByteArray_ofText (s : String) : (ofText s).toByteArray = s.toByteArray := by
  apply ByteArray.ext
  simp [ofText]

@[simp]
theorem text?_ofText (s : String) : (ofText s).text? = some s := by
  simp [text?, String.fromUTF8?, String.fromUTF8, s.isValidUTF8]

theorem ofText_of_text? {b : Bytes} {s : String} (h : b.text? = some s) : ofText s = b := by
  unfold text? String.fromUTF8? at h
  split at h
  · obtain rfl := Option.some.inj h
    simp [ofText, String.fromUTF8]
  · cases h

theorem lossy_of_text? {b : Bytes} {s : String} (h : b.text? = some s) : b.lossy = s := by
  simp [lossy, h]

end Bytes

end SharedValue
