import Mathlib.Data.List.Forall2
import SharedValue.Proofs.Table.WellFormed

/-!
# Lists of pairs

An array, seen from outside, is a list of pairs in the order in which the keys were first stored.
`Pairs` has the changes of such lists: a key that is there keeps its position when what is under it
is replaced, a new key is put last, and taking a key out leaves the others in their order. The key
that the next appended element gets is a matter of the keys alone (`nextKey`).

A table *matches* a list of pairs when it has the same keys in the same order and its slots are
related to what is under them. `Table.Matches` is stated for any such relation, and the changes of
tables and of lists of pairs keep it. -/

namespace SharedValue

/-- Keys, each with something under it, in order. -/
abbrev Pairs (α : Type) := List (Key × α)

namespace Pairs

variable {α : Type}

/-- The keys in order. -/
def keys (ps : Pairs α) : List Key := ps.map (·.1)

/-- What is under a key. -/
def find? (ps : Pairs α) (k : Key) : Option α := (List.find? (fun p ↦ p.1 = k) ps).map (·.2)

/-- Replaces what is under a key that is there. -/
def put (ps : Pairs α) (k : Key) (a : α) : Pairs α := ps.map fun p ↦ if p.1 = k then (k, a) else p

/-- Puts a new key last. -/
def add (ps : Pairs α) (k : Key) (a : α) : Pairs α := ps ++ [(k, a)]

/-- Takes a key out. -/
def remove (ps : Pairs α) (k : Key) : Pairs α := ps.filter fun p ↦ p.1 ≠ k

/-- Puts something under a key, which may be new. -/
def assign (ps : Pairs α) (k : Key) (a : α) : Pairs α :=
  match ps.find? k with
  | none => ps.add k a
  | some _ => ps.put k a

theorem find?_cons (p : Key × α) (ps : Pairs α) (k : Key) :
    find? (p :: ps) k = if p.1 = k then some p.2 else find? ps k := by
  by_cases hp : p.1 = k <;> simp [find?, hp]

theorem find?_eq_none_iff {ps : Pairs α} {k : Key} : ps.find? k = none ↔ k ∉ ps.keys := by
  induction ps with
  | nil => exact iff_of_true rfl List.not_mem_nil
  | cons p ps ih =>
    rw [find?_cons, keys, List.map_cons, List.mem_cons, not_or, ← keys, ← ih]
    split
    next hp => exact iff_of_false (fun hf ↦ nomatch hf) fun hf ↦ hf.1 hp.symm
    next hp => exact ⟨fun hf ↦ ⟨fun he ↦ hp he.symm, hf⟩, And.right⟩

theorem remove_cons (p : Key × α) (ps : Pairs α) (k : Key) :
    remove (p :: ps) k = if p.1 = k then remove ps k else p :: remove ps k := by
  by_cases hp : p.1 = k <;> simp [remove, hp]

theorem remove_of_notMem {ps : Pairs α} {k : Key} (hk : k ∉ ps.keys) : ps.remove k = ps :=
  List.filter_eq_self.2 fun _ hp ↦ decide_eq_true fun he ↦ hk (he ▸ List.mem_map_of_mem hp)

theorem put_of_notMem {ps : Pairs α} {k : Key} (hk : k ∉ ps.keys) (a : α) : ps.put k a = ps := by
  have hsame : ∀ p ∈ ps, (if p.1 = k then (k, a) else p) = p := by
    intro p hp
    exact if_neg fun he : p.1 = k ↦ hk (he ▸ List.mem_map_of_mem hp)
  rw [put, List.map_congr_left hsame, List.map_id']

/-- Putting back what is there. -/
theorem put_of_find? {ps : Pairs α} (hnd : ps.keys.Nodup) {k : Key} {a : α}
    (hf : ps.find? k = some a) : ps.put k a = ps := by
  induction ps with
  | nil => rfl
  | cons p ps ih =>
    rw [keys, List.map_cons, List.nodup_cons] at hnd
    rw [find?_cons] at hf
    rw [put, List.map_cons, ← put]
    split at hf
    next hp =>
      rw [if_pos hp, ← Option.some.inj hf, ← hp, put_of_notMem hnd.1]
    next hp =>
      rw [if_neg hp, ih hnd.2 hf]

theorem find?_add_self {ps : Pairs α} {k : Key} (hk : ps.find? k = none) (a : α) :
    (ps.add k a).find? k = some a := by
  rw [find?, Option.map_eq_none_iff] at hk
  rw [find?, add, List.find?_append, hk]
  simp

theorem find?_put_self {ps : Pairs α} {k : Key} (hk : ps.find? k ≠ none) (a : α) :
    (ps.put k a).find? k = some a := by
  induction ps with
  | nil => exact absurd rfl hk
  | cons p ps ih =>
    rw [find?_cons] at hk
    rw [put, List.map_cons, ← put, find?_cons]
    by_cases hp : p.1 = k
    · rw [if_pos hp, if_pos rfl]
    · rw [if_neg hp] at hk ⊢
      rw [if_neg hp]
      exact ih hk

theorem find?_remove_self (ps : Pairs α) (k : Key) : (ps.remove k).find? k = none := by
  simp [find?, remove]

/-- A key that was taken out and is assigned again is last. -/
theorem assign_remove (ps : Pairs α) (k : Key) (a : α) :
    (ps.remove k).assign k a = (ps.remove k).add k a := by
  rw [assign, find?_remove_self]

end Pairs

/-! ### The next key -/

/-- The largest integer among keys that is not negative, and `-1` if there is none. -/
def largestKey : List Key → Int
  | [] => -1
  | .int n :: rest => max n.toInt (largestKey rest)
  | .text _ :: rest => largestKey rest

/-- One past the largest integer among keys, unless that is the last integer there is. -/
def nextKey (keys : List Key) : Option Int64 :=
  if largestKey keys = Int64.maxValue.toInt then none else some (.ofInt (largestKey keys + 1))

theorem neg_one_le_largestKey (keys : List Key) : -1 ≤ largestKey keys := by
  induction keys with
  | nil => exact Int.le_refl _
  | cons k rest ih =>
    cases k with
    | int n => exact Int.le_trans ih (Int.le_max_right _ _)
    | text b => exact ih

theorem le_largestKey {keys : List Key} {n : Int64} (hn : .int n ∈ keys) :
    n.toInt ≤ largestKey keys := by
  induction keys with
  | nil => cases hn
  | cons k rest ih =>
    cases k with
    | text b =>
      have hn : .int n ∈ rest := by simpa using hn
      exact ih hn
    | int m =>
      rcases List.mem_cons.1 hn with he | hn
      · rw [Key.int.inj he]
        exact Int.le_max_left _ _
      · exact Int.le_trans (ih hn) (Int.le_max_right _ _)

theorem largestKey_concat (keys : List Key) (n : Int64) :
    largestKey (keys ++ [.int n]) = max (largestKey keys) n.toInt := by
  induction keys with
  | nil =>
    have hlow : largestKey [.int n] = max n.toInt (-1) := rfl
    rw [List.nil_append, hlow, Int.max_comm]
    rfl
  | cons k keys ih =>
    cases k with
    | text b => exact ih
    | int m =>
      show max m.toInt (largestKey (keys ++ _)) = max (max m.toInt (largestKey keys)) n.toInt
      rw [ih, Int.max_assoc]

/-- The largest key is one of the keys. -/
theorem exists_mem_of_largestKey_ne {keys : List Key} (hne : largestKey keys ≠ -1) :
    ∃ n : Int64, .int n ∈ keys ∧ n.toInt = largestKey keys := by
  induction keys with
  | nil => exact absurd rfl hne
  | cons k rest ih =>
    cases k with
    | text b =>
      obtain ⟨n, hn, he⟩ := ih hne
      exact ⟨n, List.mem_cons_of_mem _ hn, he⟩
    | int m =>
      show ∃ n : Int64, _ ∧ n.toInt = max m.toInt (largestKey rest)
      by_cases hm : largestKey rest ≤ m.toInt
      · exact ⟨m, List.mem_cons_self, (Int.max_eq_left hm).symm⟩
      · have hlt : m.toInt < largestKey rest := Int.not_le.1 hm
        have hmax : max m.toInt (largestKey rest) = largestKey rest :=
          Int.max_eq_right (Int.le_of_lt hlt)
        have hrest : largestKey rest ≠ -1 := by
          rw [← hmax]
          exact hne
        obtain ⟨n, hn, he⟩ := ih hrest
        exact ⟨n, List.mem_cons_of_mem _ hn, he.trans hmax.symm⟩

/-- The next free key of a table is one past the largest of its keys. -/
theorem isNextFree_nextKey (keys : List Key) : Table.IsNextFree keys (nextKey keys) := by
  have hlow := neg_one_le_largestKey keys
  rw [nextKey]
  split
  next hmax =>
    have hne : largestKey keys ≠ -1 := by
      rw [hmax, Int64.toInt_maxValue]
      decide
    obtain ⟨n, hn, he⟩ := exists_mem_of_largestKey_ne hne
    rw [hmax, Int64.toInt_inj] at he
    show Key.int Int64.maxValue ∈ keys
    rw [← he]
    exact hn
  next hmax =>
    have hhigh : largestKey keys < Int64.maxValue.toInt := by
      by_cases hne : largestKey keys = -1
      · rw [hne, Int64.toInt_maxValue]
        decide
      · obtain ⟨n, -, he⟩ := exists_mem_of_largestKey_ne hne
        have := le_maxValue n
        omega
    rw [Int64.toInt_maxValue] at hhigh
    have hto : (Int64.ofInt (largestKey keys + 1)).toInt = largestKey keys + 1 :=
      Int64.toInt_ofInt_of_le (by omega) (by omega)
    refine ⟨by omega, fun m hm ↦ ?_, fun hne ↦ ?_⟩
    · have := le_largestKey hm
      omega
    · have hstored : largestKey keys ≠ -1 := by omega
      obtain ⟨n, hn, he⟩ := exists_mem_of_largestKey_ne hstored
      exact ⟨n, hn, by omega⟩

/-- The next key is none of the keys. -/
theorem notMem_of_nextKey {keys : List Key} {n : Int64} (hn : nextKey keys = some n) :
    .int n ∉ keys := by
  have hfree := isNextFree_nextKey keys
  rw [hn] at hfree
  exact fun hmem ↦ Int.lt_irrefl _ (hfree.2.1 n hmem)

/-! ### Making a key ready and assigning to it -/

namespace Table

variable {t : Table} {l : Label}

/-- A table in which a key is ready for writing. -/
def ready (t : Table) (l : Label) : Table :=
  match t.find? l.key with
  | none => t.insertNew l (.value .null)
  | some (.value .undefined) => t.put l.key (.value .null)
  | some _ => t

/-- A table in which a key holds a value. -/
def assign (t : Table) (l : Label) (v : Value) : Table :=
  match t.find? l.key with
  | none => t.insertNew l (.value v)
  | some _ => t.put l.key (.value v)

theorem put_put (t : Table) (k : Key) (s s' : Slot) : (t.put k s).put k s' = t.put k s' := by
  rw [put, put, put, List.map_map]
  congr 1
  refine List.map_congr_left fun e _ ↦ ?_
  by_cases he : e.key = k <;> simp [he]

theorem put_insertNew (hf : t.find? l.key = none) (v v' : Value) :
    (t.insertNew l (.value v)).put l.key (.value v') = t.insertNew l (.value v') := by
  have hsame : (t.entries.map fun e ↦ if e.key = l.key then { e with slot := .value v' } else e) =
      t.entries := by
    rw [List.map_congr_left fun e he ↦ if_neg fun hk ↦ ?_, List.map_id']
    exact find?_eq_none_iff_notMem.1 hf (hk ▸ List.mem_map_of_mem he)
  rw [put, insertNew, insertNew, List.map_append, hsame]
  simp [Slot.isBinding]

/-- Making a key ready first makes no difference to what is assigned to it. -/
theorem put_ready (t : Table) (l : Label) (v : Value) :
    (t.ready l).put l.key (.value v) = t.assign l v := by
  rw [ready, assign]
  cases hf : t.find? l.key with
  | none => exact put_insertNew hf .null v
  | some s =>
    split
    next he => cases he
    · exact put_put t l.key _ _
    · rfl

theorem find?_ready (t : Table) (l : Label) : (t.ready l).find? l.key =
    match t.find? l.key with
    | none | some (.value .undefined) => some (.value .null)
    | some s => some s := by
  rw [ready]
  split
  next hf => rw [find?_insertNew hf, if_pos rfl]
  next hf => rw [find?_put, if_pos rfl, hf]; rfl
  next hne hne' s hf => rw [hf]

end Table

namespace Table

variable {α : Type} {R R' : Slot → α → Prop} {t : Table} {ps : Pairs α} {k : Key} {s : Slot} {a : α}
  {v : Value}

theorem WellFormed.nextFree_eq_nextKey (h : t.WellFormed) : t.nextFree = nextKey t.storedKeys :=
  h.nextFree_isNextFree.unique (isNextFree_nextKey _)

/-! ### Tables and pairs -/

/-- Whether a table has the keys of a list of pairs, with related things under them. -/
def Matches (R : Slot → α → Prop) (t : Table) (ps : Pairs α) : Prop :=
  List.Forall₂ (fun e p ↦ e.key = p.1 ∧ R e.slot p.2) t.entries ps

/-- What is stored under the keys of a table. -/
def slots (t : Table) : Pairs Slot := t.entries.map fun e ↦ (e.key, e.slot)

theorem matches_slots (t : Table) : t.Matches Eq t.slots := by
  rw [Matches, slots, List.forall₂_map_right_iff, List.forall₂_same]
  exact fun _ _ ↦ ⟨rfl, rfl⟩

theorem Matches.slots_eq {ps : Pairs Slot} (h : t.Matches Eq ps) : t.slots = ps := by
  rw [Matches] at h
  rw [slots]
  generalize t.entries = entries at h
  induction h with
  | nil => rfl
  | cons hp _ ih => rw [List.map_cons, ih, hp.1, hp.2]

/-- What a table shows is what its slots show. -/
theorem pairs_eq_slots (t : Table) (content : CellId → Value) :
    t.pairs content = t.slots.filterMap fun p ↦ (p.2.load content).map (p.1, ·) := by
  rw [pairs, labelled, slots, List.map_filterMap, List.filterMap_map]
  refine List.filterMap_congr fun e _ ↦ ?_
  rw [Option.map_map]
  rfl

theorem find?_slots (t : Table) (k : Key) : t.slots.find? k = t.find? k := by
  rw [Pairs.find?, slots, find?, List.find?_map, Option.map_map]
  rfl

theorem Matches.imp (h : t.Matches R ps)
    (himp : ∀ {e p}, e ∈ t.entries → p ∈ ps → R e.slot p.2 → R' e.slot p.2) : t.Matches R' ps := by
  rw [Matches] at h ⊢
  generalize t.entries = entries at h himp
  induction h with
  | nil => exact .nil
  | cons hp _ ih =>
    refine .cons ⟨hp.1, himp List.mem_cons_self List.mem_cons_self hp.2⟩ (ih fun he hq ↦ ?_)
    exact himp (List.mem_cons_of_mem _ he) (List.mem_cons_of_mem _ hq)

theorem Matches.keys_eq (h : t.Matches R ps) : t.storedKeys = ps.keys := by
  rw [Matches] at h
  rw [storedKeys, Pairs.keys]
  generalize t.entries = entries at h
  induction h with
  | nil => rfl
  | cons hp _ ih => rw [List.map_cons, List.map_cons, ih, hp.1]

theorem Matches.length_eq (h : t.Matches R ps) : t.entries.length = ps.length :=
  List.Forall₂.length_eq h

theorem Matches.find?_eq_none_iff (h : t.Matches R ps) : t.find? k = none ↔ ps.find? k = none := by
  rw [find?_eq_none_iff_notMem, Pairs.find?_eq_none_iff, h.keys_eq]

/-- What is found under a key is related to what is under it in the list. -/
theorem Matches.exists_of_find? (h : t.Matches R ps) (hf : t.find? k = some s) :
    ∃ a, ps.find? k = some a ∧ R s a := by
  rw [Matches] at h
  rw [find?] at hf
  generalize t.entries = entries at h hf
  induction h with
  | nil => cases hf
  | @cons e p _ _ hp _ ih =>
    rw [Pairs.find?_cons, ← hp.1]
    rw [List.find?_cons] at hf
    by_cases hk : e.key = k
    · rw [if_pos hk]
      simp only [hk, decide_true, Option.map_some, Option.some.injEq] at hf
      exact ⟨p.2, rfl, hf ▸ hp.2⟩
    · rw [if_neg hk]
      simp only [hk, decide_false] at hf
      exact ih hf

/-- The rest of a list of pairs stays related when a slot is replaced. -/
theorem Matches.put_of_ne (h : t.Matches R ps) (hne : ∀ {e b}, e ∈ t.entries → e.key ≠ k →
    R e.slot b → R' e.slot b) (hr : R' s a) : (t.put k s).Matches R' (ps.put k a) := by
  rw [Matches] at h
  rw [Matches, Table.put, Pairs.put]
  generalize t.entries = entries at h hne
  induction h with
  | nil => exact .nil
  | @cons e p _ _ hp _ ih =>
    refine .cons ?_ (ih fun he ↦ hne (List.mem_cons_of_mem _ he))
    obtain ⟨hkey, hslot⟩ := hp
    by_cases hk : e.key = k
    · simp only [← hkey, hk, if_true]
      exact ⟨trivial, hr⟩
    · simp only [← hkey, hk, if_false]
      exact ⟨trivial, hne List.mem_cons_self hk hslot⟩

/-- Something else put under a key of the list, for a table that stays as it is. -/
theorem Matches.put_right (h : t.Matches R ps)
    (hne : ∀ {e b}, e ∈ t.entries → e.key ≠ k → R e.slot b → R' e.slot b)
    (heq : ∀ {e}, e ∈ t.entries → e.key = k → R' e.slot a) : t.Matches R' (ps.put k a) := by
  rw [Matches] at h ⊢
  rw [Pairs.put]
  generalize t.entries = entries at h hne heq
  induction h with
  | nil => exact .nil
  | @cons e p _ _ hp _ ih =>
    refine .cons ?_ (ih (fun he ↦ hne (List.mem_cons_of_mem _ he))
      fun he ↦ heq (List.mem_cons_of_mem _ he))
    obtain ⟨hkey, hslot⟩ := hp
    by_cases hk : e.key = k
    · simp only [← hkey, hk, if_true]
      exact ⟨trivial, heq List.mem_cons_self hk⟩
    · simp only [← hkey, hk, if_false]
      exact ⟨trivial, hne List.mem_cons_self hk hslot⟩

theorem Matches.put (h : t.Matches R ps) (hr : R s a) (k : Key) :
    (t.put k s).Matches R (ps.put k a) :=
  h.put_of_ne (fun _ _ ↦ id) hr

theorem Matches.insertNew (h : t.Matches R ps) (hr : R s a) (l : Label) :
    (t.insertNew l s).Matches R (ps.add l.key a) :=
  List.rel_append h (List.Forall₂.cons ⟨rfl, hr⟩ .nil)

/-- A new entry is put last. -/
theorem slots_insertNew (t : Table) (l : Label) (s : Slot) :
    (t.insertNew l s).slots = t.slots.add l.key s :=
  (t.matches_slots.insertNew rfl l).slots_eq

/-- A new entry with a value is shown last. -/
theorem pairs_insertNew (t : Table) (l : Label) (v : Value) (content : CellId → Value) :
    (t.insertNew l (.value v)).pairs content = t.pairs content ++ [(l.key, v.shown)] := by
  rw [pairs_eq_slots, slots_insertNew, Pairs.add, List.filterMap_append, ← pairs_eq_slots]
  rfl

theorem Matches.assign (h : t.Matches R ps) (hr : R (.value v) a) (l : Label) :
    (t.assign l v).Matches R (ps.assign l.key a) := by
  rw [Table.assign, Pairs.assign]
  cases hf : t.find? l.key with
  | none =>
    rw [h.find?_eq_none_iff.1 hf]
    exact h.insertNew hr l
  | some s =>
    obtain ⟨b, hb, -⟩ := h.exists_of_find? hf
    rw [hb]
    exact h.put hr l.key

theorem matches_empty : empty.Matches R [] := List.Forall₂.nil

/-- An entry taken out, of keys that are all different. -/
theorem Matches.remove (h : t.Matches R ps) (hnd : t.storedKeys.Nodup) (k : Key) :
    (t.remove k).Matches R (ps.remove k) := by
  rw [Table.remove]
  cases hf : t.find? k with
  | none =>
    rw [h.find?_eq_none_iff, Pairs.find?_eq_none_iff] at hf
    rw [Pairs.remove_of_notMem hf]
    exact h
  | some s =>
    have hkeys := h.keys_eq
    rw [Matches] at h
    rw [storedKeys] at hnd hkeys
    show List.Forall₂ _ (t.entries.eraseP fun e ↦ e.key = k) (ps.remove k)
    generalize t.entries = entries at h hnd hkeys
    induction h with
    | nil => exact .nil
    | @cons e p rest qs hp hrest ih =>
      rw [Pairs.keys, List.map_cons, List.map_cons, List.cons.injEq] at hkeys
      rw [List.map_cons, List.nodup_cons, hkeys.2] at hnd
      rw [Pairs.remove_cons, ← hp.1, List.eraseP_cons]
      by_cases hk : e.key = k
      · -- no other entry has the key
        rw [hk] at hnd
        rw [if_pos hk, decide_eq_true hk, Pairs.remove_of_notMem hnd.1]
        exact hrest
      · rw [if_neg hk, decide_eq_false hk]
        exact .cons hp (ih (hkeys.2 ▸ hnd.2) hkeys.2)

end Table

end SharedValue
