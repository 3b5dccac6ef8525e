/-!
# Registries

A registry keeps things under names, each name at most once and in the order in which the names
first came up. It is what a workspace keeps its registers in and a document its keys.
-/

namespace SharedValue

/-- Things under names. -/
abbrev Registry (α : Type) := List (String × α)

namespace Registry

variable {α : Type}

/-- The thing under a name. -/
def get? (r : Registry α) (name : String) : Option α := (r.find? (·.1 = name)).map (·.2)

/-- Whether there is a thing under a name. -/
def has (r : Registry α) (name : String) : Bool := r.any (·.1 = name)

/-- Puts a thing under a name, in place of the one that was there. -/
def set (r : Registry α) (name : String) (a : α) : Registry α :=
  if r.has name then r.map fun p ↦ if p.1 = name then (name, a) else p else r ++ [(name, a)]

/-- Takes a name out. -/
def erase (r : Registry α) (name : String) : Registry α := r.filter (·.1 ≠ name)

theorem get?_cons (p : String × α) (r : Registry α) (name : String) :
    get? (p :: r) name = if p.1 = name then some p.2 else get? r name := by
  by_cases h : p.1 = name <;> simp [get?, h]

theorem get?_append_singleton (r : Registry α) (name : String) (a : α) (other : String) :
    get? (r ++ [(name, a)]) other =
      (get? r other).or (if name = other then some a else none) := by
  induction r with
  | nil => by_cases h : name = other <;> simp [get?, h]
  | cons p r ih =>
    rw [List.cons_append, get?_cons, get?_cons, ih]
    split <;> simp

theorem get?_eq_none_iff {r : Registry α} {name : String} :
    r.get? name = none ↔ r.has name = false := by
  simp [get?, has]

theorem get?_map_replace (r : Registry α) (name : String) (a : α) (other : String) :
    get? (r.map fun p ↦ if p.1 = name then (name, a) else p) other =
      if other = name then (get? r other).map fun _ ↦ a else get? r other := by
  induction r with
  | nil => simp [get?]
  | cons p r ih =>
    rw [List.map_cons, get?_cons, get?_cons, ih]
    by_cases h : p.1 = name <;> by_cases h' : other = name <;> grind

/-- A name that was set has what was put there, and every other name has what it had. -/
theorem get?_set (r : Registry α) (name : String) (a : α) (other : String) :
    (r.set name a).get? other = if other = name then some a else r.get? other := by
  unfold set
  split
  next h =>
    rw [get?_map_replace]
    split
    next e =>
      subst e
      cases hg : r.get? other with
      | none => rw [get?_eq_none_iff.1 hg] at h; cases h
      | some b => rfl
    · rfl
  next h =>
    rw [get?_append_singleton]
    by_cases e : other = name
    · subst e
      rw [get?_eq_none_iff.2 (by simpa using h)]
      simp
    · rw [if_neg e, if_neg (Ne.symm e)]
      simp

end Registry

end SharedValue
