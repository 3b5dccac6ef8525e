import Mathlib.Data.Finset.Card
import Mathlib.Data.List.Induction
import SharedValue.Proofs.Table.Pairs

/-!
# Pairs that are assigned in turn

Assigning the pairs of a list one after the other leaves every key where it came first, with what
came with it last (`Pairs.assignAll_nil`).
-/

namespace SharedValue.Pairs

variable {α : Type} {ps : Pairs α} {k j : Key} {a : α}

/-- Pairs with others assigned in turn. -/
def assignAll (ps qs : Pairs α) : Pairs α := qs.foldl (fun ps p ↦ ps.assign p.1 p.2) ps

/-- The keys of a list of pairs in the order in which they come first, each with what comes with it
last. -/
def latest (ps : Pairs α) : Pairs α :=
  ps.keys.eraseDups.filterMap fun k ↦ (find? ps.reverse k).map (k, ·)

theorem keys_reverse (ps : Pairs α) : keys ps.reverse = ps.keys.reverse := List.map_reverse

/-- Every key comes with something last. -/
theorem exists_find?_reverse (hk : k ∈ ps.keys) : ∃ a, find? ps.reverse k = some a := by
  rw [← Option.ne_none_iff_exists']
  exact fun hn ↦ find?_eq_none_iff.1 hn (by rwa [keys_reverse, List.mem_reverse])

/-- The keys of the latest pairs are the distinct ones. -/
theorem keys_latest (ps : Pairs α) : ps.latest.keys = ps.keys.eraseDups := by
  rw [latest, keys, List.map_filterMap]
  refine (List.filterMap_congr fun k hk ↦ ?_).trans List.filterMap_some
  obtain ⟨a, ha⟩ := exists_find?_reverse (List.mem_eraseDups.1 hk)
  rw [ha]
  rfl

/-- One more element is kept if it is new. -/
theorem eraseDups_concat {β : Type} [DecidableEq β] (l : List β) (b : β) :
    (l ++ [b]).eraseDups = if b ∈ l then l.eraseDups else l.eraseDups ++ [b] := by
  rw [List.eraseDups_append]
  split
  next hb =>
    have hremoved : [b].removeAll l = [] := by simp [List.removeAll, hb]
    rw [hremoved, List.eraseDups_nil, List.append_nil]
  next hb =>
    have hremoved : [b].removeAll l = [b] := by simp [List.removeAll, hb]
    rw [hremoved]
    simp [List.eraseDups_cons]

theorem nodup_eraseDups {β : Type} [DecidableEq β] (l : List β) : l.eraseDups.Nodup := by
  induction l using List.reverseRecOn with
  | nil => exact List.nodup_nil
  | append_singleton l b ih =>
    rw [eraseDups_concat]
    split
    · exact ih
    next hb =>
      refine List.nodup_append.2 ⟨ih, List.nodup_singleton b, fun c hc d hd he ↦ hb ?_⟩
      rw [← List.mem_singleton.1 hd, ← he]
      exact List.mem_eraseDups.1 hc

/-- There are as many pairs as there are different keys. -/
theorem length_latest (ps : Pairs α) : ps.latest.length = ps.keys.toFinset.card := by
  have hset : ps.keys.toFinset = ps.keys.eraseDups.toFinset := by
    ext k
    rw [List.mem_toFinset, List.mem_toFinset, List.mem_eraseDups]
  rw [hset, List.toFinset_card_of_nodup (nodup_eraseDups _), ← keys_latest, keys, List.length_map]

/-- The latest pairs are among the pairs. -/
theorem mem_latest {p : Key × α} (hp : p ∈ ps.latest) : p ∈ ps := by
  obtain ⟨k, -, hk⟩ := List.mem_filterMap.1 hp
  obtain ⟨a, ha, rfl⟩ := Option.map_eq_some_iff.1 hk
  obtain ⟨q, hq, rfl⟩ := Option.map_eq_some_iff.1 ha
  have hkey : q.1 = k := by simpa using List.find?_some hq
  subst hkey
  exact List.mem_reverse.1 (List.mem_of_find?_eq_some hq)

/-- One more pair is assigned. -/
theorem latest_concat (ps : Pairs α) (k : Key) (a : α) :
    latest (ps ++ [(k, a)]) = ps.latest.assign k a := by
  have hkeys : keys (ps ++ [(k, a)]) = ps.keys ++ [k] := List.map_append
  have hfind : ∀ j, find? (ps ++ [(k, a)]).reverse j =
      if k = j then some a else find? ps.reverse j := by
    intro j
    rw [List.reverse_append, List.reverse_singleton, List.singleton_append, find?_cons]
  rw [assign, latest, hkeys, eraseDups_concat]
  simp only [hfind]
  by_cases hk : k ∈ ps.keys
  · have hsome : find? ps.latest k ≠ none := fun hn ↦
      find?_eq_none_iff.1 hn (by rwa [keys_latest, List.mem_eraseDups])
    obtain ⟨b, hb⟩ := Option.ne_none_iff_exists'.1 hsome
    rw [if_pos hk, hb]
    dsimp only
    rw [put, latest, List.map_filterMap]
    refine List.filterMap_congr fun j hj ↦ ?_
    obtain ⟨c, hc⟩ := exists_find?_reverse (List.mem_eraseDups.1 hj)
    rw [hc]
    by_cases hkj : k = j
    · simp [hkj]
    · simp [hkj, Ne.symm hkj]
  · have hnone : find? ps.latest k = none :=
      find?_eq_none_iff.2 (by rwa [keys_latest, List.mem_eraseDups])
    rw [if_neg hk, hnone, add, List.filterMap_append]
    refine congrArg₂ (· ++ ·) (List.filterMap_congr fun j hj ↦ ?_) (by simp)
    rw [if_neg fun he : k = j ↦ hk (he ▸ List.mem_eraseDups.1 hj)]

/-- **Pairs that are assigned in turn** leave every key where it came first, with what came with it
last. -/
theorem assignAll_nil (ps : Pairs α) : assignAll [] ps = ps.latest := by
  induction ps using List.reverseRecOn with
  | nil => rfl
  | append_singleton ps p ih => rw [assignAll, List.foldl_concat, ← assignAll, ih, latest_concat]

end SharedValue.Pairs
