import SharedValue.Proofs.Workspace.Commands

/-!
# What holds of every table

A table carries along two facts about its entries, the next free key and the number of bound slots,
and repairs them piecemeal. The invariant says that they are never out of step, in terms of the keys
that are stored and nothing else; keys of vacant entries are stored like all others.

It holds of every table of every workspace that a program leads to (`Reachable.table_invariant`):
tables are well formed at the start and every change keeps them so.
-/

namespace SharedValue

namespace Table.IsNextFree

variable {keys : List Key} {next : Option Int64}

/-- The next free key is zero if no integer key is zero or more. -/
theorem eq_zero (h : IsNextFree keys next) (hneg : ∀ m : Int64, .int m ∈ keys → m < 0) :
    next = some 0 := by
  have hzero : IsNextFree keys (some 0) := by
    refine ⟨by simp, fun m hm ↦ ?_, fun hne ↦ absurd Int64.toInt_zero hne⟩
    exact Int64.lt_iff_toInt_lt.1 (hneg m hm)
  exact h.unique hzero

/-- It follows the largest integer key that is zero or more. -/
theorem eq_successor (h : IsNextFree keys next) {m : Int64} (hm : .int m ∈ keys)
    (hmax : ∀ n : Int64, .int n ∈ keys → n ≤ m) (hpos : 0 ≤ m) (hlt : m < Int64.maxValue) :
    next = some (m + 1) := by
  have hne : m ≠ Int64.maxValue := fun he ↦ Int64.lt_irrefl (he ▸ hlt)
  have hsucc := toInt_add_one hne
  rw [Int64.le_iff_toInt_le, Int64.toInt_zero] at hpos
  have hmem : IsNextFree keys (some (m + 1)) := by
    refine ⟨by omega, fun n hn ↦ ?_, fun _ ↦ ⟨m, hm, hsucc.symm⟩⟩
    have := Int64.le_iff_toInt_le.1 (hmax n hn)
    omega
  exact h.unique hmem

/-- There is none after the largest integer. -/
theorem eq_none (h : IsNextFree keys next) (hmax : .int Int64.maxValue ∈ keys) : next = none :=
  h.unique (show IsNextFree keys none from hmax)

end Table.IsNextFree

namespace Workspace

variable {w : Workspace}

/-- **The keys of a table are distinct and normal, its bound slots are counted, and its next free
key is one past the largest integer among its keys**: zero if none of them is an integer that is not
negative, and nothing once the largest integer of all is stored. In particular there is always a
binding to take off the count when a bound slot goes. -/
theorem Reachable.table_invariant (hw : w.Reachable) {i : Nat} {T : Table}
    (hT : w.heap.tables.get? i = some T) :
    T.storedKeys.Nodup ∧
    (∀ b, .text b ∈ T.storedKeys → Decimal.int64? b = none) ∧
    T.bindings = T.entries.countP (·.slot.isBinding) ∧
    (∀ k c, T.find? k = some (.binding c) → 0 < T.bindings) ∧
    ((∀ m : Int64, .int m ∈ T.storedKeys → m < 0) → T.nextFree = some 0) ∧
    (∀ m : Int64, .int m ∈ T.storedKeys → (∀ n : Int64, .int n ∈ T.storedKeys → n ≤ m) →
      0 ≤ m → m < Int64.maxValue → T.nextFree = some (m + 1)) ∧
    (.int Int64.maxValue ∈ T.storedKeys → T.nextFree = none) := by
  have hwf : T.WellFormed := hw.valid.heap.wellFormed hT
  have hnext := hwf.nextFree_isNextFree
  refine ⟨hwf.keys_nodup, fun b hb ↦ hwf.keys_normal _ hb, hwf.bindings_eq,
    fun k c hf ↦ hwf.bindings_pos hf, hnext.eq_zero, fun m hm hmax hpos hlt ↦ ?_, hnext.eq_none⟩
  exact hnext.eq_successor hm hmax hpos hlt

/-- A program that sets one name, declares another, and copies the table of variables. The copy
leaves the vacant entry out, and appends under the key after the one that is left. -/
def copyingProgram : List Statement :=
  [⟨.symbols "s" (.create {}), none⟩,
    ⟨.array (.constant (.int 7)), some "x"⟩,
    ⟨.symbols "s" (.set (.key (.int 2)) "x"), none⟩,
    ⟨.symbols "s" (.declare (.key (.int 5))), some "c"⟩,
    ⟨.symbols "s" .copy, some "a"⟩,
    ⟨.array (.edit ⟨"a", []⟩ (.push "x")), none⟩]

/-- Where that program ends. -/
def copyingEnd : Workspace := ((empty.run copyingProgram).map (·.1)).getD empty

/-- A copy of a table of variables with a vacant entry is come to. -/
theorem reachable_copyingEnd : copyingEnd.Reachable := ⟨copyingProgram, _, rfl⟩

/-- The copy has two entries with distinct keys, and its greatest key is the one that was appended.
-/
theorem Reachable.table_invariant_copyingEnd :
    copyingEnd.Reachable ∧ copyingEnd.heap.tables.get? 1 = some (copyingEnd.heap.table ⟨1⟩) ∧
      (copyingEnd.heap.table ⟨1⟩).storedKeys.Nodup ∧
      (copyingEnd.heap.table ⟨1⟩).nextFree = some (3 + 1) := by
  have hT : copyingEnd.heap.tables.get? 1 = some (copyingEnd.heap.table ⟨1⟩) := rfl
  have hkeys : (copyingEnd.heap.table ⟨1⟩).storedKeys = [.int 2, .int 3] := rfl
  obtain ⟨hnd, -, -, -, -, hnext, -⟩ := reachable_copyingEnd.table_invariant hT
  refine ⟨reachable_copyingEnd, hT, hnd, hnext 3 ?_ ?_ (by decide) (by decide)⟩
  · rw [hkeys]
    decide
  · rw [hkeys]
    intro n hn
    simp only [List.mem_cons, Key.int.injEq, List.not_mem_nil, or_false] at hn
    rcases hn with rfl | rfl <;> decide

end Workspace

end SharedValue
