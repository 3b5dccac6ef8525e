import SharedValue.Array

/-!
# Functions

A function has a name and a handler, which computes a value from an array of arguments. A
handler reads the heap and changes nothing.
-/

namespace SharedValue

/-- A named function of an array of arguments. -/
structure Function where
  name : Str
  handler : Heap → TableId → Except ValueError Value

namespace Function

/-- Calls a function. -/
def call (f : Function) (h : Heap) (args : TableId) : Except ValueError Value := f.handler h args

/-- The diagnostic text of a function. -/
def diagnostic (f : Function) : String := "Function(" ++ f.name.text ++ ")"

/-- An argument by its position, null if it is missing. -/
def argument (h : Heap) (args : TableId) (i : Int64) : Value :=
  (h.get? args (.int i)).getD .null

/-- Counts the elements of its first argument. -/
def count (name : Str) : Function where
  name
  handler h args := do
    let t ← (argument h args 0).expectArray
    return .int (Int64.ofNat (h.len t))

/-- Looks its second argument up in its first; null if it is not there. -/
def lookup (name : Str) : Function where
  name
  handler h args := do
    let t ← (argument h args 0).expectArray
    let l ← h.coerceKey defaultReferenceDepth (argument h args 1)
    return (h.get? t l.key).getD .null

/-- Gives one value whatever its arguments are. -/
def constant (name : Str) (v : Value) : Function where
  name
  handler _ _ := .ok v

end Function

end SharedValue
