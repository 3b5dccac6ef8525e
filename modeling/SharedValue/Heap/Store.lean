/-!
# Stores

A `Store` holds things under consecutive numbers. A new thing gets the next number, a thing that
is released leaves its number behind, and no number is given out twice, so a name that outlives
its thing can never come to mean another one.
-/

namespace SharedValue

/-- Things under the numbers `0`, `1`, ..., with gaps where things were released. -/
structure Store (α : Type) where
  items : Array (Option α)

namespace Store

variable {α : Type}

/-- The store without things. -/
def empty : Store α := ⟨#[]⟩

/-- The number that the next thing gets. -/
def fresh (s : Store α) : Nat := s.items.size

/-- The thing under a number. -/
def get? (s : Store α) (i : Nat) : Option α := s.items[i]?.join

/-- Adds a thing under the number `s.fresh`. -/
def add (s : Store α) (a : α) : Store α := ⟨s.items.push (some a)⟩

/-- Replaces the thing under a number that was given out. -/
def set (s : Store α) (i : Nat) (a : α) : Store α := ⟨s.items.setIfInBounds i (some a)⟩

/-- Releases the things whose numbers fail a test. -/
def keep (s : Store α) (p : Nat → Bool) : Store α :=
  ⟨s.items.mapIdx fun i a ↦ a.filter fun _ ↦ p i⟩

/-- The things that are there, in the order of their numbers. -/
def toList (s : Store α) : List α := s.items.toList.filterMap id

theorem get?_of_fresh_le {s : Store α} {i : Nat} (h : s.fresh ≤ i) : s.get? i = none := by
  have h : s.items.size ≤ i := h
  simp [get?, h]

theorem get?_add (s : Store α) (a : α) (i : Nat) :
    (s.add a).get? i = if i = s.fresh then some a else s.get? i := by
  by_cases h : i = s.items.size <;> simp [get?, add, fresh, Array.getElem?_push, h]

theorem get?_set_self {s : Store α} {i : Nat} (h : i < s.fresh) (a : α) :
    (s.set i a).get? i = some a := by
  have h : i < s.items.size := h
  simp [get?, set, h]

theorem get?_set_ne (s : Store α) {i j : Nat} (h : j ≠ i) (a : α) :
    (s.set i a).get? j = s.get? j := by
  simp [get?, set, Ne.symm h]

@[simp]
theorem fresh_set (s : Store α) (i : Nat) (a : α) : (s.set i a).fresh = s.fresh := by
  simp [fresh, set]

@[simp]
theorem fresh_add (s : Store α) (a : α) : (s.add a).fresh = s.fresh + 1 := by
  simp [fresh, add]

@[simp]
theorem fresh_keep (s : Store α) (p : Nat → Bool) : (s.keep p).fresh = s.fresh := by
  simp [fresh, keep]

theorem get?_keep (s : Store α) (p : Nat → Bool) (i : Nat) :
    (s.keep p).get? i = if p i then s.get? i else none := by
  simp only [get?, keep, Array.getElem?_mapIdx]
  cases s.items[i]? with
  | none => simp
  | some a => cases a <;> by_cases hp : p i <;> simp [hp]

end Store

end SharedValue
