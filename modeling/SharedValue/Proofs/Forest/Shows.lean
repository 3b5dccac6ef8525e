import SharedValue.Proofs.Forest.Basic

/-!
# What a value shows

`Shows h v S` says that a value of a heap shows a tree: an array has the keys of the tree in the
same order, with slots that show what is under them, and any other value is the tree itself. What a
value shows is a matter of the tables inside it (`Shows.congr`), so a change of a table is seen in
the values that lead to it and in no other. -/

namespace SharedValue

/-! ### Trees -/

/-- The tree of a value that is no array. -/
def Value.flat? : Value → Option Tree
  | .undefined => some .undefined
  | .null => some .null
  | .bool b => some (.bool b)
  | .int n => some (.int n)
  | .double d => some (.double d)
  | .string s => some (.string s.bytes)
  | .array _ => none
  | .object o => some (.object o)
  | .resource r => some (.resource r)
  | .reference c => some (.reference c)

/-- What holds of every tree that is no array, and of an array if it holds of all that is under its
keys, holds of every tree. -/
theorem Tree.induction {motive : Tree → Prop}
    (array : ∀ ps : List (Key × Tree), (∀ p ∈ ps, motive p.2) → motive (.array ps))
    (flat : ∀ S, (∀ ps, S ≠ .array ps) → motive S) : ∀ S, motive S
  | .array ps => array ps fun p _ ↦ Tree.induction array flat p.2
  | .undefined => flat _ fun _ he ↦ nomatch he
  | .null => flat _ fun _ he ↦ nomatch he
  | .bool _ => flat _ fun _ he ↦ nomatch he
  | .int _ => flat _ fun _ he ↦ nomatch he
  | .double _ => flat _ fun _ he ↦ nomatch he
  | .string _ => flat _ fun _ he ↦ nomatch he
  | .object _ => flat _ fun _ he ↦ nomatch he
  | .resource _ => flat _ fun _ he ↦ nomatch he
  | .reference _ => flat _ fun _ he ↦ nomatch he
termination_by S => sizeOf S
decreasing_by
  rename_i hp
  have h₁ := List.sizeOf_lt_of_mem hp
  have h₂ : sizeOf p = 1 + sizeOf p.1 + sizeOf p.2 := by cases p; rfl
  simp only [Tree.array.sizeOf_spec]
  omega

mutual

/-- Whether a value shows a tree. -/
def Heap.Shows (h : Heap) : Value → Tree → Prop
  | v, .array ps => ∃ t, v = .array t ∧ h.ShowsAll (h.table t).entries ps
  | v, S => v.flat? = some S

/-- Whether entries of a table show pairs, one by one. -/
def Heap.ShowsAll (h : Heap) : List Entry → List (Key × Tree) → Prop
  | es, [] => es = []
  | es, (k, S) :: ps =>
    ∃ e rest, es = e :: rest ∧ e.key = k ∧ (∃ v, e.slot = .value v ∧ h.Shows v S) ∧
      h.ShowsAll rest ps

end

namespace Heap

variable {h h' : Heap} {t : TableId} {v : Value} {S : Tree} {ps : Pairs Tree}

/-- Whether a slot that is not bound shows a tree. -/
def SlotShows (h : Heap) (s : Slot) (S : Tree) : Prop := ∃ v, s = .value v ∧ h.Shows v S

/-- Entries show pairs if each shows its own. -/
theorem showsAll_iff {es : List Entry} : h.ShowsAll es ps ↔
    List.Forall₂ (fun e p ↦ e.key = p.1 ∧ h.SlotShows e.slot p.2) es ps := by
  induction ps generalizing es with
  | nil =>
    rw [ShowsAll, List.forall₂_nil_right_iff]
  | cons p ps ih =>
    obtain ⟨k, S⟩ := p
    rw [ShowsAll, List.forall₂_cons_right_iff]
    constructor
    · rintro ⟨e, rest, rfl, hk, hs, hrest⟩
      exact ⟨e, rest, ⟨hk, hs⟩, ih.1 hrest, rfl⟩
    · rintro ⟨e, rest, ⟨hk, hs⟩, hrest, rfl⟩
      exact ⟨e, rest, rfl, hk, hs, ih.2 hrest⟩

/-- An array shows its pairs. -/
theorem shows_array_iff : h.Shows v (.array ps) ↔
    ∃ t, v = .array t ∧ (h.table t).Matches h.SlotShows ps := by
  rw [Shows]
  exact exists_congr fun t ↦ and_congr_right fun _ ↦ showsAll_iff

/-- Any other value shows the tree that it is. -/
theorem shows_flat_iff (hS : ∀ ps, S ≠ .array ps) : h.Shows v S ↔ v.flat? = some S := by
  cases S with
  | array ps => exact absurd rfl (hS ps)
  | _ =>
    rw [Shows]
    exact hS

/-- What an array shows has pairs that its table matches. -/
theorem Shows.exists_matches (hs : h.Shows (.array t) S) :
    ∃ ps : Pairs Tree, S = .array ps ∧ (h.table t).Matches h.SlotShows ps := by
  by_cases hS : ∃ ps, S = .array ps
  · obtain ⟨ps, rfl⟩ := hS
    obtain ⟨u, hu, hm⟩ := shows_array_iff.1 hs
    obtain rfl := Value.array.inj hu
    exact ⟨ps, rfl, hm⟩
  · have hflat := (shows_flat_iff fun ps he ↦ hS ⟨ps, he⟩).1 hs
    cases hflat

/-- The table matches the pairs. -/
theorem Shows.matches_table (hs : h.Shows (.array t) (.array ps)) :
    (h.table t).Matches h.SlotShows ps := by
  obtain ⟨qs, he, hm⟩ := hs.exists_matches
  rwa [Tree.array.inj he]

/-- And then the array shows them. -/
theorem shows_of_matches (hm : (h.table t).Matches h.SlotShows ps) :
    h.Shows (.array t) (.array ps) :=
  shows_array_iff.2 ⟨t, rfl, hm⟩

/-- A value without tables shows its own tree. -/
theorem shows_of_flat (hv : v.flat? = some S) : h.Shows v S := by
  refine (shows_flat_iff fun ps he ↦ ?_).2 hv
  cases v <;> simp [Value.flat?, he] at hv

/-- A value that is no array shows one tree. -/
theorem Shows.eq_of_flat {S' : Tree} (hs : h.Shows v S) (hv : v.flat? = some S') : S = S' := by
  by_cases hS : ∃ ps, S = .array ps
  · obtain ⟨ps, rfl⟩ := hS
    obtain ⟨t, rfl, -⟩ := shows_array_iff.1 hs
    cases hv
  · rw [shows_flat_iff fun ps he ↦ hS ⟨ps, he⟩, hv] at hs
    exact (Option.some.inj hs).symm

/-- **What a value shows is a matter of the tables inside it.** -/
theorem Shows.congr (hs : h.Shows v S) (hv : h.Valid)
    (ht : ∀ {t}, h.Within t v → h'.table t = h.table t) : h'.Shows v S := by
  induction S using Tree.induction generalizing v with
  | flat S hS => exact (shows_flat_iff hS).2 ((shows_flat_iff hS).1 hs)
  | array ps ih =>
    obtain ⟨t, rfl, hm⟩ := shows_array_iff.1 hs
    refine shows_array_iff.2 ⟨t, rfl, ?_⟩
    rw [ht (within_array_iff.2 .refl)]
    refine hm.imp fun {e p} he hp ↦ ?_
    rintro ⟨u, hslot, hu⟩
    refine ⟨u, hslot, ih p hp hu fun {x} hx ↦ ht ?_⟩
    -- what is inside an element is inside the array
    obtain ⟨y, rfl, hb⟩ := hx
    have hf := Table.find?_of_mem (hv.table_wellFormed t).keys_nodup he
    rw [hslot] at hf
    exact within_array_iff.2 (.head ⟨e.key, hf⟩ hb)

/-! ### The tree of a value -/

theorem Shows.flat?_eq_some_iff (hs : h.Shows v S) (S' : Tree) (hS' : ∀ ps, S' ≠ .array ps) :
    v.flat? = some S' ↔ S = S' := by
  refine ⟨hs.eq_of_flat, ?_⟩
  rintro rfl
  exact (shows_flat_iff hS').1 hs

/-- Only undefined shows undefined. -/
theorem Shows.undefined_iff (hs : h.Shows v S) : v = .undefined ↔ S = .undefined := by
  rw [← hs.flat?_eq_some_iff Tree.undefined fun _ he ↦ nomatch he]
  cases v <;> simp [Value.flat?]

/-- Only a reference shows a reference. -/
theorem Shows.reference_iff {c : CellId} (hs : h.Shows v S) :
    v = .reference c ↔ S = .reference c := by
  rw [← hs.flat?_eq_some_iff (Tree.reference c) fun _ he ↦ nomatch he]
  cases v <;> simp [Value.flat?]

/-- Only an array shows an array. -/
theorem Shows.array_iff (hs : h.Shows v S) : (∃ t, v = .array t) ↔ ∃ ps, S = .array ps := by
  constructor
  · rintro ⟨t, rfl⟩
    obtain ⟨ps, hps, -⟩ := hs.exists_matches
    exact ⟨ps, hps⟩
  · rintro ⟨ps, rfl⟩
    obtain ⟨t, ht, -⟩ := shows_array_iff.1 hs
    exact ⟨t, ht⟩

/-- A value has the kind of its tree. -/
theorem Shows.kind_eq (hs : h.Shows v S) : v.kind = S.kind := by
  cases v with
  | array t =>
    obtain ⟨ps, rfl, -⟩ := hs.exists_matches
    rfl
  | _ =>
    rw [hs.eq_of_flat rfl]
    rfl

/-- What is read of a value shows what is read of its tree. -/
theorem Shows.shown (hs : h.Shows v S) : h.Shows v.shown S.shown := by
  cases v with
  | array t =>
    obtain ⟨ps, rfl, -⟩ := hs.exists_matches
    exact hs
  | undefined =>
    rw [hs.eq_of_flat rfl]
    exact shows_of_flat rfl
  | _ =>
    obtain rfl := hs.eq_of_flat rfl
    exact hs

/-- What is under a key of a table that shows pairs. -/
theorem find?_cases {T : Table} (hm : T.Matches h.SlotShows ps) (k : Key) :
    T.find? k = none ∧ ps.find? k = none ∨
      ∃ v S, T.find? k = some (.value v) ∧ ps.find? k = some S ∧ h.Shows v S := by
  cases hf : T.find? k with
  | none => exact .inl ⟨rfl, hm.find?_eq_none_iff.1 hf⟩
  | some s =>
    obtain ⟨S, hS, v, rfl, hs⟩ := hm.exists_of_find? hf
    exact .inr ⟨v, S, rfl, hS, hs⟩

end Heap

end SharedValue
