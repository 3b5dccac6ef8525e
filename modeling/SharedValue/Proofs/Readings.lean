import SharedValue.Proofs.RoundTrip.Keys

/-!
# The readings of an array agree

A slot is read in four ways: counting asks whether it is vacant, looking a key up asks that and then
loads it, an iteration observes it, and where no slot is bound counting does not look at the slots
at all. The readings of an array are told apart by nothing but the keys: each of them follows from
the pairs that an iteration gives (`Reachable.readings_agree`), for the array behind a table of
variables as for any other, and whatever the cells of its bound slots hold. -/

namespace SharedValue

namespace Heap

variable {h : Heap} {t : TableId} {k : Key} {v : Value}

/-- Looking a key up gives what its normal form shows. -/
theorem Valid.get?_eq_some_iff (hv : h.Valid) :
    h.get? t k = some v ↔ (k.normalize, v) ∈ h.pairs t := by
  rw [get?, Table.get?_eq_bind, pairs, Table.mem_pairs_iff (hv.table_wellFormed t).keys_nodup]

/-- A key gives a value exactly if it is among the keys. -/
theorem Valid.isSome_get?_iff (hv : h.Valid) :
    (h.get? t k).isSome ↔ k.normalize ∈ (h.table t).keys h.cell := by
  rw [get?, Table.get?_eq_bind, Table.mem_keys_iff (hv.table_wellFormed t).keys_nodup]

/-- And exactly if it is contained. -/
theorem contains_iff : h.contains t k = true ↔ (h.get? t k).isSome := by
  rw [contains, Table.contains_eq_isSome, get?]

/-- The length is the number of pairs. -/
theorem Valid.len_eq (hv : h.Valid) (t : TableId) : h.len t = (h.pairs t).length :=
  (hv.table_wellFormed t).len_eq h.cell

/-- There are as many values as keys. -/
theorem length_values (h : Heap) (t : TableId) :
    (h.values t).length = ((h.pairs t).map (·.1)).length := by
  rw [List.length_map]
  exact List.length_map _

/-- An array is empty if it has no pairs. -/
theorem Valid.isEmpty_iff (hv : h.Valid) : h.isEmpty t = true ↔ h.pairs t = [] := by
  rw [isEmpty, Table.isEmpty, decide_eq_true_iff, ← List.length_eq_zero_iff]
  exact Eq.congr_left (hv.len_eq t)

/-- No element is shown as undefined. -/
theorem ne_undefined_of_mem_pairs {p : Key × Value} (hp : p ∈ h.pairs t) : p.2 ≠ .undefined := by
  rw [pairs, Table.pairs_eq_shownBy, Table.shownBy] at hp
  obtain ⟨e, -, hload⟩ := List.mem_filterMap.1 hp
  obtain ⟨v, hl, rfl⟩ := Option.map_eq_some_iff.1 hload
  exact fun hv ↦ Slot.load_ne_undefined h.cell e.slot (hl.trans (congrArg some hv))

end Heap

namespace Workspace

variable {w : Workspace}

/-- **An iteration that nothing disturbs gives what the entries show.** -/
theorem iterateWriting_nil (w : Workspace) (entries : List Entry) :
    w.iterateWriting [] entries = (w, Table.shownBy w.heap.cell entries) := by
  induction hlen : entries.length using Nat.strongRecOn generalizing entries with
  | ind n ih =>
    have hall := Table.shownBy_eq_nextShown w.heap.cell entries
    rw [iterateWriting]
    split
    next hn =>
      rw [hn] at hall
      rw [hall]
    next shown rest hn =>
      have hlt := Table.length_lt_of_nextShown hn
      have hrest : (w.writeCells []).iterateWriting [] rest = (w, Table.shownBy w.heap.cell rest) :=
        ih rest.length (hlen ▸ hlt) rest rfl
      rw [hn] at hall
      rw [hall]
      dsimp only
      rw [hrest]

/-- **The readings of an array agree.** In every workspace that a program leads to, and for every
array and table of variables there, a key is contained exactly if looking it up gives something,
exactly if its normal form is one of the keys shown, and then it gives what the iteration gives for
that key. No key is shown twice, the length is the number of pairs, an array is empty exactly if
there is none, going through the entries one by one gives the pairs, and nothing that is read is
undefined. -/
theorem Reachable.readings_agree (hw : w.Reachable) (t : TableId) :
    (∀ k, (w.heap.contains t k = true ↔ (w.heap.get? t k).isSome) ∧
      ((w.heap.get? t k).isSome ↔ k.normalize ∈ (w.heap.table t).keys w.heap.cell) ∧
      (∀ v, w.heap.get? t k = some v ↔ (k.normalize, v) ∈ w.heap.pairs t) ∧
      w.heap.get? t k ≠ some .undefined) ∧
    ((w.heap.table t).keys w.heap.cell).Nodup ∧
    w.heap.len t = (w.heap.pairs t).length ∧
    (w.heap.isEmpty t = true ↔ w.heap.pairs t = []) ∧
    w.iterateWriting [] (w.heap.table t).entries = (w, w.heap.pairs t) ∧
    ∀ p ∈ w.heap.pairs t, p.2 ≠ .undefined := by
  have hv := hw.valid.heap
  have hpairs : w.iterateWriting [] (w.heap.table t).entries = (w, w.heap.pairs t) := by
    rw [iterateWriting_nil, Heap.pairs, Table.pairs_eq_shownBy]
  refine ⟨fun k ↦ ⟨Heap.contains_iff, hv.isSome_get?_iff, fun v ↦ hv.get?_eq_some_iff, ?_⟩,
    hv.nodup_keys t, hv.len_eq t, hv.isEmpty_iff, hpairs, fun p ↦ Heap.ne_undefined_of_mem_pairs⟩
  exact fun hget ↦ Heap.ne_undefined_of_mem_pairs (hv.get?_eq_some_iff.1 hget) rfl

/-- A program that makes a table of variables with a slot that was never written, a plain one, a
bound one and one whose binding was emptied. -/
def mixingProgram : List Statement :=
  [⟨.symbols "s" (.create {}), none⟩,
    ⟨.array (.constant .undefined), some "u"⟩,
    ⟨.array (.constant (.int 7)), some "x"⟩,
    ⟨.symbols "s" (.set (.key (.text [117])) "u"), none⟩,
    ⟨.symbols "s" (.set (.key (.int 1)) "x"), none⟩,
    ⟨.symbols "s" (.declare (.key (.int 2))), some "c"⟩,
    ⟨.array (.setCell "c" "x"), none⟩,
    ⟨.symbols "s" (.declare (.key (.int 3))), some "d"⟩,
    ⟨.array (.setCell "d" "x"), none⟩,
    ⟨.symbols "s" (.unset (.key (.int 3))), none⟩]

/-- Where that program ends. -/
def mixingEnd : Workspace := ((empty.run mixingProgram).map (·.1)).getD empty

/-- A table of variables with entries of all four kinds is come to. -/
theorem reachable_mixingEnd : mixingEnd.Reachable := ⟨mixingProgram, _, rfl⟩

/-- Four entries are stored, of which three are seen: the emptied one is not, and the one that was
never written shows null. -/
theorem Reachable.readings_agree_mixingEnd :
    mixingEnd.Reachable ∧ (mixingEnd.heap.table ⟨0⟩).entries.length = 4 ∧
      mixingEnd.heap.len ⟨0⟩ = 3 ∧ mixingEnd.heap.get? ⟨0⟩ (.text [50]) = some (.int 7) ∧
      mixingEnd.heap.contains ⟨0⟩ (.int 3) = false ∧
      mixingEnd.heap.get? ⟨0⟩ (.text [117]) = some .null := by
  obtain ⟨hkey, -, hlen, -⟩ := reachable_mixingEnd.readings_agree ⟨0⟩
  have hpairs : mixingEnd.heap.pairs ⟨0⟩ =
      [(.text [117], .null), (.int 1, .int 7), (.int 2, .int 7)] := rfl
  have hkeys : (mixingEnd.heap.table ⟨0⟩).keys mixingEnd.heap.cell =
      [.text [117], .int 1, .int 2] := rfl
  refine ⟨reachable_mixingEnd, rfl, by rw [hlen, hpairs]; rfl, ?_, ?_, ?_⟩
  · rw [(hkey _).2.2.1, hpairs]
    decide
  · rw [← Bool.not_eq_true, (hkey _).1, (hkey _).2.1, hkeys]
    decide
  · rw [(hkey _).2.2.1, hpairs]
    decide

end Workspace

end SharedValue
