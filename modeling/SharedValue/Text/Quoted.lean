import SharedValue.Text.Unprintable

/-!
# Quoted text

The written form of a text between quotation marks. A quotation mark and a backslash are
escaped, the usual control characters by a letter, and what would be invisible or would join
its neighbour by its code point in hexadecimal. Everything else stands for itself, so text in
any script stays legible.
-/

namespace SharedValue.Text

/-- The code point of a character in lower-case hexadecimal, without leading zeros. -/
def hexadecimal (c : Char) : List Char :=
  Nat.toDigits 16 c.toNat

/-- The written form of one character inside quotation marks. -/
def escape (c : Char) : List Char :=
  match c with
  | '\x00' => ['\\', '0']
  | '\t' => ['\\', 't']
  | '\r' => ['\\', 'r']
  | '\n' => ['\\', 'n']
  | '"' => ['\\', '"']
  | '\\' => ['\\', '\\']
  | c =>
    if isJoining c || isInvisible c then
      ['\\', 'u', '\x7b'] ++ hexadecimal c ++ ['\x7d']
    else [c]

/-- A text between quotation marks, with its characters escaped where needed. -/
def quoted (s : String) : String :=
  String.ofList ('"' :: s.toList.flatMap escape ++ ['"'])

example : quoted "a\"b\n" = "\"a\\\"b\\n\"" := by decide +kernel

end SharedValue.Text
