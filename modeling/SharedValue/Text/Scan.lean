/-!
# Reading text from the front

Readers of written forms work on what is left of a text, a list of characters, and give back
what is left after the part they read.
-/

namespace SharedValue.Text

/-- The text after a given start, if it begins with that. -/
def expect? : (start : List Char) → List Char → Option (List Char)
  | [], cs => some cs
  | s :: start, c :: cs => if s = c then expect? start cs else none
  | _ :: _, [] => none

/-- The start is all that was read. -/
theorem expect?_eq_some_iff {start cs rest : List Char} :
    expect? start cs = some rest ↔ cs = start ++ rest := by
  induction start generalizing cs with
  | nil => simp [expect?, eq_comm]
  | cons s start ih =>
    cases cs with
    | nil => simp [expect?]
    | cons c cs =>
      by_cases h : s = c
      · simp [expect?, h, ih]
      · simp [expect?, h, Ne.symm h]

end SharedValue.Text
