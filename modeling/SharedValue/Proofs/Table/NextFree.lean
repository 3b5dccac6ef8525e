import SharedValue.Table

/-!
# The next free key

`IsNextFree keys next` says which next free key belongs to a list of stored keys, by the integers in
the list alone and without a look at how the key was found: one past the largest integer that is not
negative, zero if there is none, and nothing once the largest integer is stored. There is exactly
one such key for a list (`IsNextFree.unique`, `isNextFree_nextFreeOf`).

A table carries its next free key along instead of looking for it, and repairs it in three places.
Each has its lemma here:

* a key is added (`IsNextFree.noteKey`);
* a key that is not the highest is taken out (`IsNextFree.erase`), in which case nothing is done;
* the key is found anew (`isNextFree_nextFreeOf`).

All bounds are stated on the integers that the words stand for, so that the limits of the words
enter only through `successor?`. -/

namespace SharedValue

/-! ### One more than an integer -/

/-- Below the largest integer adding one does not wrap. -/
theorem toInt_add_one {n : Int64} (h : n ≠ Int64.maxValue) : (n + 1).toInt = n.toInt + 1 := by
  have hlt := n.toInt_lt
  have hle := n.le_toInt
  have hne : n.toInt ≠ Int64.maxValue.toInt := fun e ↦ h (Int64.toInt_inj.1 e)
  rw [Int64.toInt_maxValue] at hne
  rw [Int64.toInt_add, Int64.toInt_one]
  rw [Int.bmod_eq_of_le] <;> omega

/-- The successor is one more. -/
theorem successor?_eq_some_iff {n next : Int64} :
    successor? n = some next ↔ next.toInt = n.toInt + 1 := by
  unfold successor?
  split
  next h =>
    have hlt := next.toInt_lt
    have hmax : n.toInt = 2 ^ 63 - 1 := by rw [h, Int64.toInt_maxValue]
    simp only [reduceCtorEq, false_iff]
    omega
  next h =>
    rw [Option.some.injEq, ← Int64.toInt_inj, toInt_add_one h]
    exact eq_comm

/-- Only the largest integer has none. -/
theorem successor?_eq_none_iff {n : Int64} : successor? n = none ↔ n = Int64.maxValue := by
  unfold successor?
  split <;> simp_all

theorem le_maxValue (n : Int64) : n.toInt ≤ Int64.maxValue.toInt := by
  have hlt := n.toInt_lt
  rw [Int64.toInt_maxValue]
  omega

namespace Table

/-! ### Which key is the next free one -/

/-- The next free key of a list of stored keys. -/
def IsNextFree (keys : List Key) : Option Int64 → Prop
  | none => .int Int64.maxValue ∈ keys
  | some next =>
    0 ≤ next.toInt ∧ (∀ m : Int64, .int m ∈ keys → m.toInt < next.toInt) ∧
      (next.toInt ≠ 0 → ∃ m : Int64, .int m ∈ keys ∧ m.toInt + 1 = next.toInt)

/-- Without keys the next free one is zero. -/
theorem isNextFree_nil : IsNextFree [] (some 0) := by
  refine ⟨?_, fun m hm ↦ ?_, fun h ↦ ?_⟩
  · simp
  · cases hm
  · simp at h

/-- Only the integers among the keys matter. -/
theorem IsNextFree.congr {keys keys' : List Key} {next : Option Int64}
    (h : IsNextFree keys next) (hmem : ∀ m : Int64, .int m ∈ keys' ↔ .int m ∈ keys) :
    IsNextFree keys' next := by
  cases next with
  | none => exact (hmem _).2 h
  | some next =>
    obtain ⟨hpos, hlt, hex⟩ := h
    refine ⟨hpos, fun m hm ↦ hlt m ((hmem m).1 hm), fun hne ↦ ?_⟩
    obtain ⟨m, hm, he⟩ := hex hne
    exact ⟨m, (hmem m).2 hm, he⟩

/-- **A list of keys has at most one next free key.** -/
theorem IsNextFree.unique {keys : List Key} {a b : Option Int64} (ha : IsNextFree keys a)
    (hb : IsNextFree keys b) : a = b := by
  cases a with
  | none =>
    cases b with
    | none => rfl
    | some b =>
      have hlt := hb.2.1 _ ha
      have hle := le_maxValue b
      omega
  | some a =>
    cases b with
    | none =>
      have hlt := ha.2.1 _ hb
      have hle := le_maxValue a
      omega
    | some b =>
      obtain ⟨hapos, halt, haex⟩ := ha
      obtain ⟨hbpos, hblt, hbex⟩ := hb
      -- the greater of the two would have its witness above the other
      have hle : ¬ a.toInt < b.toInt := by
        intro hab
        obtain ⟨m, hm, he⟩ := hbex (by omega)
        have := halt m hm
        omega
      have hge : ¬ b.toInt < a.toInt := by
        intro hba
        obtain ⟨m, hm, he⟩ := haex (by omega)
        have := hblt m hm
        omega
      rw [Option.some.injEq, ← Int64.toInt_inj]
      omega

/-! ### The three repairs -/

/-- A text leaves the next free key. -/
private theorem isNextFree_append_text {keys : List Key} {next : Option Int64}
    (h : IsNextFree keys next) (b : Bytes) : IsNextFree (keys ++ [.text b]) next :=
  h.congr fun m ↦ by simp

/-- An integer that is not below the next free key moves it on. -/
private theorem isNextFree_append_int {keys : List Key} {next : Int64}
    (h : IsNextFree keys (some next)) {n : Int64} (hn : next.toInt ≤ n.toInt) :
    IsNextFree (keys ++ [.int n]) (successor? n) := by
  obtain ⟨hpos, hlt, -⟩ := h
  cases hs : successor? n with
  | none =>
    rw [successor?_eq_none_iff] at hs
    simp [IsNextFree, hs]
  | some k =>
    rw [successor?_eq_some_iff] at hs
    refine ⟨by omega, fun m hm ↦ ?_, fun _ ↦ ⟨n, by simp, hs.symm⟩⟩
    rcases List.mem_append.1 hm with hm | hm
    · have := hlt m hm
      omega
    · obtain rfl : m = n := by simpa using hm
      omega

/-- Adding a key. -/
theorem IsNextFree.noteKey {keys : List Key} {next : Option Int64} (h : IsNextFree keys next)
    (k : Key) : IsNextFree (keys ++ [k]) (noteKey next k) := by
  cases k with
  | text b => exact isNextFree_append_text h b
  | int n =>
    simp only [Table.noteKey, Int64.lt_iff_toInt_lt, Int64.toInt_zero, Int64.le_iff_toInt_le]
    cases next with
    | none =>
      have hmem : Key.int Int64.maxValue ∈ keys ++ [.int n] := List.mem_append_left _ h
      split <;> exact hmem
    | some next =>
      have hpos := h.1
      dsimp only
      by_cases hn : next.toInt ≤ n.toInt
      · rw [if_neg (by omega), if_pos hn]
        exact isNextFree_append_int h hn
      · -- a key below the next free one changes nothing, be it negative or not
        have hkeep : IsNextFree (keys ++ [.int n]) (some next) := by
          obtain ⟨-, hlt, hex⟩ := h
          refine ⟨hpos, fun m hm ↦ ?_, fun hne ↦ ?_⟩
          · rcases List.mem_append.1 hm with hm | hm
            · exact hlt m hm
            · obtain rfl : m = n := by simpa using hm
              omega
          · obtain ⟨m, hm, he⟩ := hex hne
            exact ⟨m, List.mem_append_left _ hm, he⟩
        rw [if_neg hn]
        split <;> exact hkeep

/-- Taking out a key that is not the highest. -/
theorem IsNextFree.erase {keys : List Key} {next : Option Int64} (h : IsNextFree keys next)
    {k : Key} (hk : isHighest next k = false) : IsNextFree (keys.erase k) next := by
  cases next with
  | none =>
    have hne : Key.int Int64.maxValue ≠ k := by
      rintro rfl
      simp [isHighest] at hk
    exact (List.mem_erase_of_ne hne).2 h
  | some next =>
    obtain ⟨hpos, hlt, hex⟩ := h
    refine ⟨hpos, fun m hm ↦ hlt m (List.mem_of_mem_erase hm), fun hne ↦ ?_⟩
    obtain ⟨m, hm, he⟩ := hex hne
    have hmk : Key.int m ≠ k := by
      rintro rfl
      have hs : successor? m = some next := successor?_eq_some_iff.2 he.symm
      have hm0 : (0 : Int64) ≤ m := by
        rw [Int64.le_iff_toInt_le, Int64.toInt_zero]
        omega
      simp [isHighest, hs, hm0] at hk
    exact ⟨m, (List.mem_erase_of_ne hmk).2 hm, he⟩

/-- Finding the key anew. -/
theorem isNextFree_nextFreeOf (entries : List Entry) :
    IsNextFree (entries.map (·.key)) (nextFreeOf entries) := by
  suffices h : ∀ (keys : List Key) (next : Option Int64), IsNextFree keys next →
      IsNextFree (keys ++ entries.map (·.key))
        (entries.foldl (fun next e ↦ Table.noteKey next e.key) next) from
    h [] (some 0) isNextFree_nil
  induction entries with
  | nil => simp
  | cons e entries ih =>
    intro keys next h
    simpa using ih _ _ (h.noteKey e.key)

end Table

end SharedValue
