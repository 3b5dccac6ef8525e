import SharedValue.Value

/-!
# What a step that may fail has given

An operation that may fail is made of steps, and the first one that fails ends it. What it gives
therefore comes of what every step has given: after a plain function (`Except.map_eq_ok_iff`) and
after a step that may fail itself (`Except.bind_eq_ok_iff`).
-/

namespace SharedValue

variable {ε α β : Type} {r : Except ε α} {b : β}

/-- A result that is mapped is one if it was. -/
theorem Except.map_eq_ok_iff {f : α → β} : r.map f = .ok b ↔ ∃ a, r = .ok a ∧ f a = b := by
  cases r with
  | error e => exact iff_of_false (fun h ↦ nomatch h) fun ⟨_, h, _⟩ ↦ nomatch h
  | ok a =>
    constructor
    · exact fun h ↦ ⟨a, rfl, Except.ok.inj h⟩
    · rintro ⟨a', ha, rfl⟩
      rw [Except.ok.inj ha]
      rfl

/-- Two steps have a result if the first has one and the second has one from there. -/
theorem Except.bind_eq_ok_iff {f : α → Except ε β} :
    r >>= f = .ok b ↔ ∃ a, r = .ok a ∧ f a = .ok b := by
  cases r with
  | error e => exact iff_of_false (fun h ↦ nomatch h) fun ⟨_, h, _⟩ ↦ nomatch h
  | ok a =>
    constructor
    · exact fun h ↦ ⟨a, rfl, h⟩
    · rintro ⟨a', ha, h⟩
      rw [Except.ok.inj ha]
      exact h

end SharedValue
