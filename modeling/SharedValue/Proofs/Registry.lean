import SharedValue.Registry

/-!
# Registries

What is under a name after a change of a registry, as a matter of its pairs. A registry is used with
distinct names; then its pairs and what `Registry.get?` finds are the same thing
(`get?_eq_some_iff`). -/

namespace SharedValue.Registry

variable {α : Type} {r : Registry α} {name : String} {a : α} {p : String × α}

/-- What is found under a name is a pair. -/
theorem mem_of_get? (h : r.get? name = some a) : (name, a) ∈ r := by
  obtain ⟨p, hp, rfl⟩ := Option.map_eq_some_iff.1 h
  have hname : p.1 = name := by simpa using List.find?_some hp
  rw [← hname]
  exact List.mem_of_find?_eq_some hp

/-- A pair is found if names are distinct. -/
theorem get?_of_mem (hnd : (r.map (·.1)).Nodup) (h : (name, a) ∈ r) : r.get? name = some a := by
  induction r with
  | nil => cases h
  | cons p rest ih =>
    rw [List.map_cons, List.nodup_cons] at hnd
    rw [get?_cons]
    rcases List.mem_cons.1 h with rfl | h
    · rw [if_pos rfl]
    · have hne : p.1 ≠ name := fun he ↦ hnd.1 (he ▸ List.mem_map_of_mem h)
      rw [if_neg hne]
      exact ih hnd.2 h

theorem get?_eq_some_iff (hnd : (r.map (·.1)).Nodup) : r.get? name = some a ↔ (name, a) ∈ r :=
  ⟨mem_of_get?, get?_of_mem hnd⟩

/-- A name is there if it is one of those in the pairs. -/
theorem has_iff_mem : r.has name = true ↔ name ∈ r.map (·.1) := by
  simp [has]

/-- After setting a name, the pairs are the other ones and the new one. -/
theorem mem_set (h : p ∈ r.set name a) : p ∈ r ∧ p.1 ≠ name ∨ p = (name, a) := by
  unfold set at h
  split at h
  · obtain ⟨q, hq, rfl⟩ := List.mem_map.1 h
    split
    · exact .inr rfl
    next hne => exact .inl ⟨hq, hne⟩
  next hhas =>
    rcases List.mem_append.1 h with h | h
    · refine .inl ⟨h, fun he ↦ hhas ?_⟩
      rw [has_iff_mem, ← he]
      exact List.mem_map_of_mem h
    · exact .inr (List.mem_singleton.1 h)

/-- Setting a name leaves the pairs of all others. -/
theorem mem_set_iff_of_ne {other : String} {b : α} (hne : other ≠ name) :
    (other, b) ∈ r.set name a ↔ (other, b) ∈ r := by
  refine ⟨fun h ↦ (mem_set h).elim (·.1) fun he ↦ absurd (Prod.mk.inj he).1 hne, fun h ↦ ?_⟩
  rw [set]
  split
  · exact List.mem_map.2 ⟨_, h, if_neg hne⟩
  · exact List.mem_append_left _ h

/-- Setting a name keeps names distinct. -/
theorem map_fst_set_nodup (hnd : (r.map (·.1)).Nodup) (name : String) (a : α) :
    ((r.set name a).map (·.1)).Nodup := by
  unfold set
  split
  · have hsame : (r.map fun p ↦ if p.1 = name then (name, a) else p).map (·.1) = r.map (·.1) := by
      rw [List.map_map]
      refine List.map_congr_left fun p _ ↦ ?_
      by_cases hp : p.1 = name <;> simp [hp]
    rwa [hsame]
  next hhas =>
    rw [List.map_append, List.nodup_append]
    refine ⟨hnd, by simp, fun x hx y hy hxy ↦ hhas ?_⟩
    obtain rfl : y = name := by simpa using hy
    exact has_iff_mem.2 (hxy ▸ hx)

/-- After erasing a name, the pairs are the other ones. -/
theorem mem_erase (h : p ∈ r.erase name) : p ∈ r ∧ p.1 ≠ name := by
  simpa [erase] using h

theorem erase_cons (p : String × α) (r : Registry α) (name : String) :
    erase (p :: r) name = if p.1 = name then erase r name else p :: erase r name := by
  by_cases hp : p.1 = name <;> simp [erase, hp]

/-- And nothing is found under it. -/
theorem get?_erase (r : Registry α) (name other : String) :
    (erase r name).get? other = if other = name then none else r.get? other := by
  induction r with
  | nil => simp [erase, get?]
  | cons p rest ih =>
    rw [erase_cons, get?_cons]
    by_cases hp : p.1 = name
    · rw [if_pos hp, ih]
      split
      · rfl
      next hne => rw [if_neg fun he ↦ hne (he.symm.trans hp)]
    · rw [if_neg hp, get?_cons, ih]
      by_cases ho : p.1 = other
      · rw [if_pos ho, if_pos ho, if_neg fun he ↦ hp (ho.trans he)]
      · rw [if_neg ho, if_neg ho]

end SharedValue.Registry
