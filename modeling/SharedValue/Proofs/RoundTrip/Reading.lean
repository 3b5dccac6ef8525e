import SharedValue.Json.Reader
import SharedValue.Json.Writer
import SharedValue.Proofs.RoundTrip.Format

/-!
# Texts that are read

JSON with the writer and the reader of this library is a format (`Json.format`) of which everything
is true that is assumed of formats. The reader presents few sorts of events, and none that is nested
deeper than its limit (`Json.presents`); that it gives back the event that the writer wrote is shown
where the texts of the writer are taken apart (`Json.readsBack`).
-/

namespace SharedValue

/-- **JSON as a format**, with its writer, its reader and the limit of the reader. -/
def Json.format : Format := ⟨Json.write, Json.read, Json.nestingLimit⟩

namespace Json

/-- A double that is finite is read as one. -/
theorem readTo_of_finite? {d : Double} {e : Event} (he : finite? d = some e) (n : Nat) :
    e.ReadTo n := by
  rw [finite?] at he
  split at he
  next hd =>
    obtain rfl := Option.some.inj he
    cases n <;> exact hd
  · cases he

/-- An integer is read as one, or as a double if it is too large. -/
theorem readTo_of_integer? {negative : Bool} {m : Nat} {e : Event}
    (he : integer? negative m = some e) (n : Nat) : e.ReadTo n := by
  have hint : ∀ k, some (Event.int k) = some e → e.ReadTo n := by
    intro k hk
    obtain rfl := Option.some.inj hk
    cases n <;> trivial
  rw [integer?] at he
  split at he
  · split at he
    · exact readTo_of_finite? he n
    · split at he
      · exact hint _ he
      · exact readTo_of_finite? he n
  · split at he
    · exact hint _ he
    · split at he
      · obtain rfl := Option.some.inj he
        cases n <;> trivial
      · exact readTo_of_finite? he n

/-- So what is read of a number may stand at any depth. -/
theorem readTo_of_readNumber {negative : Bool} {cs rest : List Char} {e : Event}
    (he : readNumber negative cs = some (e, rest)) (n : Nat) : e.ReadTo n := by
  simp only [readNumber, Option.bind_eq_bind, Option.bind_eq_some_iff] at he
  obtain ⟨⟨whole, cs₁⟩, -, ⟨fraction, cs₂⟩, -, ⟨exponent, cs₃⟩, -, he⟩ := he
  split at he
  · obtain ⟨e', he', heq⟩ := Option.bind_eq_some_iff.1 he
    obtain ⟨rfl, -⟩ := Prod.mk.inj (Option.some.inj heq)
    exact readTo_of_integer? he' n
  · obtain ⟨e', he', heq⟩ := Option.bind_eq_some_iff.1 he
    obtain ⟨rfl, -⟩ := Prod.mk.inj (Option.some.inj heq)
    exact readTo_of_finite? he' n

/-- What is shown of the three readers at once, by the steps that they may take. -/
private structure ReadsTo (fuel : Nat) : Prop where
  value : ∀ {depth n cs e rest}, depth + n = nestingLimit →
    readValue fuel depth cs = some (e, rest) → e.ReadTo n
  items : ∀ {depth n first cs es rest}, depth + n = nestingLimit →
    readItems fuel depth first cs = some (es, rest) → ∀ e ∈ es, e.ReadTo n
  pairs : ∀ {depth n first cs ps rest}, depth + n = nestingLimit →
    readPairs fuel depth first cs = some (ps, rest) → ∀ p ∈ ps, p.2.ReadTo n

/-- A value is read as deep as the reader allows, if items and pairs are. -/
private theorem readsTo_value {fuel : Nat} (ih : ReadsTo fuel) {depth n : Nat} {cs rest : List Char}
    {e : Event} (hn : depth + n = nestingLimit)
    (he : readValue (fuel + 1) depth cs = some (e, rest)) :
    e.ReadTo n := by
  rw [readValue] at he
  split at he
  · obtain ⟨_, -, heq⟩ := Option.bind_eq_some_iff.1 he
    obtain ⟨rfl, -⟩ := Prod.mk.inj (Option.some.inj heq)
    cases n <;> trivial
  · obtain ⟨_, -, heq⟩ := Option.bind_eq_some_iff.1 he
    obtain ⟨rfl, -⟩ := Prod.mk.inj (Option.some.inj heq)
    cases n <;> trivial
  · obtain ⟨_, -, heq⟩ := Option.bind_eq_some_iff.1 he
    obtain ⟨rfl, -⟩ := Prod.mk.inj (Option.some.inj heq)
    cases n <;> trivial
  · obtain ⟨_, -, heq⟩ := Option.bind_eq_some_iff.1 he
    obtain ⟨rfl, -⟩ := Prod.mk.inj (Option.some.inj heq)
    cases n <;> trivial
  · split at he
    next hlt =>
      obtain ⟨⟨items, _⟩, hitems, heq⟩ := Option.bind_eq_some_iff.1 he
      obtain ⟨rfl, -⟩ := Prod.mk.inj (Option.some.inj heq)
      obtain ⟨m, rfl⟩ : ∃ m, n = m + 1 := ⟨n - 1, by omega⟩
      exact ih.items (by omega) hitems
    · cases he
  · split at he
    next hlt =>
      obtain ⟨⟨pairs, _⟩, hpairs, heq⟩ := Option.bind_eq_some_iff.1 he
      obtain ⟨rfl, -⟩ := Prod.mk.inj (Option.some.inj heq)
      obtain ⟨m, rfl⟩ : ∃ m, n = m + 1 := ⟨n - 1, by omega⟩
      exact ih.pairs (by omega) hpairs
    · cases he
  · exact readTo_of_readNumber he n
  · exact readTo_of_readNumber he n

/-- So are the items of a sequence. -/
private theorem readsTo_items {fuel : Nat} (ih : ReadsTo fuel) {depth n : Nat} {first : Bool}
    {cs rest : List Char} {es : List Event} (hn : depth + n = nestingLimit)
    (he : readItems (fuel + 1) depth first cs = some (es, rest)) : ∀ e ∈ es, e.ReadTo n := by
  rw [readItems] at he
  split at he
  · obtain ⟨rfl, -⟩ := Prod.mk.inj (Option.some.inj he)
    exact fun _ hm ↦ by cases hm
  · cases first <;>
      simp only [Bool.false_eq_true, if_false, if_true, Option.bind_eq_bind,
        Option.bind_eq_some_iff] at he
    all_goals
      obtain ⟨_, -, ⟨item, _⟩, hitem, ⟨items, _⟩, hitems, heq⟩ := he
      obtain ⟨rfl, -⟩ := Prod.mk.inj (Option.some.inj heq)
      exact List.forall_mem_cons.2 ⟨ih.value hn hitem, ih.items hn hitems⟩

/-- So are the pairs of a map. -/
private theorem readsTo_pairs {fuel : Nat} (ih : ReadsTo fuel) {depth n : Nat} {first : Bool}
    {cs rest : List Char} {ps : List (Event × Event)} (hn : depth + n = nestingLimit)
    (he : readPairs (fuel + 1) depth first cs = some (ps, rest)) : ∀ p ∈ ps, p.2.ReadTo n := by
  rw [readPairs] at he
  split at he
  · obtain ⟨rfl, -⟩ := Prod.mk.inj (Option.some.inj he)
    exact fun _ hm ↦ by cases hm
  · cases first <;>
      simp only [Bool.false_eq_true, if_false, if_true, Option.bind_eq_bind,
        Option.bind_eq_some_iff] at he
    all_goals
      obtain ⟨_, -, _, -, ⟨key, _⟩, -, _, -, ⟨value, _⟩, hvalue, ⟨pairs, _⟩, hpairs, heq⟩ := he
      obtain ⟨rfl, -⟩ := Prod.mk.inj (Option.some.inj heq)
      exact List.forall_mem_cons.2 ⟨ih.value hn hvalue, ih.pairs hn hpairs⟩

/-- All three, by induction on the fuel. -/
private theorem readsTo (fuel : Nat) : ReadsTo fuel := by
  induction fuel with
  | zero => exact ⟨fun _ he ↦ (by cases he), fun _ he ↦ (by cases he), fun _ he ↦ (by cases he)⟩
  | succ fuel ih => exact ⟨readsTo_value ih, readsTo_items ih, readsTo_pairs ih⟩

/-- **What is read from a text** is one of the events that texts present, and it is not nested
deeper than the reader allows. -/
theorem presents (text : String) : format.Presents text := by
  intro e he
  change read text = some e at he
  rw [read] at he
  obtain ⟨⟨e', rest⟩, hvalue, heq⟩ := Option.bind_eq_some_iff.1 he
  dsimp only at heq
  split at heq
  · obtain rfl := Option.some.inj heq
    exact (readsTo _).value (Nat.zero_add _) hvalue
  · cases heq

end Json

end SharedValue
