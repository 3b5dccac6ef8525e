import SharedValue.Heap

/-!
# Equality of values

Two values are equal when they are of one kind and have the same content. Doubles are compared
as numbers, strings by their bytes, resources by their handles; objects and references are equal
only when they are the same one. Arrays are equal when they show the same keys in the same order
with equal values, and one table is equal to itself without a look at its elements.
-/

namespace SharedValue

namespace Heap

/-- Equality of two values in which arrays are nested at most `depth` deep. -/
def equalWithin (h : Heap) : (depth : Nat) → Value → Value → Bool
  | _, .undefined, .undefined => true
  | _, .null, .null => true
  | _, .bool a, .bool b => a = b
  | _, .int a, .int b => a = b
  | _, .double a, .double b => a.equal b
  | _, .string a, .string b => a.equal b
  | 0, .array a, .array b => a = b
  | depth + 1, .array a, .array b =>
    a = b ||
      h.len a = h.len b &&
        ((h.pairs a).zip (h.pairs b)).all fun (p, q) ↦
          p.1 = q.1 && h.equalWithin depth p.2 q.2
  | _, .object a, .object b => a = b
  | _, .resource a, .resource b => h.resourceHandle a = h.resourceHandle b
  | _, .reference a, .reference b => a = b
  | _, _, _ => false

/-- Equality of two values. No array is nested deeper than there are tables. -/
def equal (h : Heap) (v w : Value) : Bool := h.equalWithin (h.tables.fresh + 1) v w

end Heap

/-- Whether two values mention the same buffer, table, object or cell; `none` unless both are
handles of one of these sorts. -/
def Value.same? : Value → Value → Option Bool
  | .string a, .string b => some (a = b)
  | .array a, .array b => some (a = b)
  | .object a, .object b => some (a = b)
  | .reference a, .reference b => some (a = b)
  | _, _ => none

end SharedValue
