import Mathlib.Data.Fintype.Pigeonhole
import Mathlib.Logic.Relation
import SharedValue.Heap.Dereference
import SharedValue.Proofs.Heap.Quiet

/-!
# Chains of cells

A reference leads through a chain of cells to a value that is none (`Heap.Chain`), or its cells form
a circle (`Heap.Circular`); there is nothing else, since a chain that had no end would come through
some cell twice (`exists_chain_or_circular`). Following references to a limit gives the end of the
chain exactly if the chain has one and is not longer than the limit (`dereference_eq_error_iff`),
and a key is coerced from the end of its chain (`coerceKey_eq_error_iff`).
-/

namespace SharedValue.Heap

variable {h : Heap} {u v : Value} {c d : CellId} {n m limit : Nat} {err : ValueError}

/-! ### Chains and circles -/

/-- Whether a value leads through so many cells to a value that is no reference. -/
inductive Chain (h : Heap) : Value → Nat → Value → Prop
  | stop {v : Value} (hv : ∀ c, v ≠ .reference c) : Chain h v 0 v
  | step {c : CellId} {n : Nat} {v : Value} (hc : Chain h (h.cell c) n v) :
      Chain h (.reference c) (n + 1) v

/-- Whether the first cell holds a reference to the second. -/
def Refers (h : Heap) (c d : CellId) : Prop := h.cell c = .reference d

/-- Whether a value is a reference that leads into a circle of cells. -/
def Circular (h : Heap) (v : Value) : Prop :=
  ∃ c d, v = .reference c ∧ Relation.ReflTransGen h.Refers c d ∧ Relation.TransGen h.Refers d d

/-- A chain ends with what is no reference. -/
theorem Chain.ne_reference (hc : h.Chain v n u) (c : CellId) : u ≠ .reference c := by
  induction hc with
  | stop hv => exact hv c
  | step _ ih => exact ih

/-- A value leads through one number of cells to one end. -/
theorem Chain.unique {u' : Value} (hc : h.Chain v n u) (hc' : h.Chain v m u') :
    n = m ∧ u = u' := by
  induction hc generalizing m u' with
  | stop hv =>
    cases hc' with
    | stop _ => exact ⟨rfl, rfl⟩
    | step _ => exact absurd rfl (hv _)
  | step _ ih =>
    cases hc' with
    | stop hv => exact absurd rfl (hv _)
    | step hc' =>
      obtain ⟨rfl, rfl⟩ := ih hc'
      exact ⟨rfl, rfl⟩

/-! ### There is a chain or a circle -/

/-- The rest of a chain is one. -/
theorem Chain.exists_of_refers (hc : h.Chain (.reference c) n u) (hr : h.Refers c d) :
    ∃ m < n, h.Chain (.reference d) m u := by
  cases hc with
  | stop hv => exact absurd rfl (hv c)
  | step hc =>
    rw [show h.cell c = .reference d from hr] at hc
    exact ⟨_, Nat.lt_succ_self _, hc⟩

/-- And so is what is left from any of its cells on. -/
private theorem Chain.exists_of_reflTransGen (hr : Relation.ReflTransGen h.Refers c d)
    (hc : h.Chain (.reference c) n u) : ∃ m ≤ n, h.Chain (.reference d) m u := by
  induction hr with
  | refl => exact ⟨n, Nat.le_refl n, hc⟩
  | tail _ hr ih =>
    obtain ⟨m, hle, hm⟩ := ih
    obtain ⟨k, hlt, hk⟩ := hm.exists_of_refers hr
    exact ⟨k, (Nat.le_of_lt hlt).trans hle, hk⟩

/-- A chain that has an end does not lead into a circle. -/
theorem Chain.not_circular (hc : h.Chain v n u) : ¬ h.Circular v := by
  rintro ⟨c, d, rfl, hcd, hdd⟩
  obtain ⟨m, -, hm⟩ := hc.exists_of_reflTransGen hcd
  obtain ⟨b, hdb, hbd⟩ := Relation.TransGen.head'_iff.1 hdd
  -- once round the circle the chain would be shorter
  obtain ⟨k, hlt, hk⟩ := hm.exists_of_refers hdb
  obtain ⟨j, hle, hj⟩ := hk.exists_of_reflTransGen hbd
  have hmj := (hm.unique hj).1
  omega

/-- The value that one cell further along is. -/
def next (h : Heap) : Value → Value
  | .reference c => h.cell c
  | v => v

/-- A chain from the next value is one from here. -/
private theorem exists_chain_next (hc : ∃ m u, h.Chain (h.next v) m u) :
    ∃ m u, h.Chain v m u := by
  obtain ⟨m, u, hc⟩ := hc
  cases v with
  | reference c => exact ⟨m + 1, u, .step hc⟩
  | _ => exact ⟨m, u, hc⟩

/-- If following ends after some number of cells, there is a chain. -/
private theorem exists_chain_of_iterate (hn : ∃ n, ∀ c, h.next^[n] v ≠ .reference c) :
    ∃ m u, h.Chain v m u := by
  obtain ⟨n, hn⟩ := hn
  induction n generalizing v with
  | zero => exact ⟨0, v, .stop hn⟩
  | succ n ih =>
    rw [Function.iterate_succ_apply] at hn
    exact exists_chain_next (ih hn)

/-- A cell that holds a reference is there. -/
private theorem lt_fresh_of_refers (hr : h.Refers c d) : c.index < h.cells.fresh := by
  by_contra hlt
  rw [Refers, cell, Store.get?_of_fresh_le (Nat.le_of_not_lt hlt)] at hr
  cases hr

/-- **A value leads to an end or into a circle.** -/
theorem exists_chain_or_circular (h : Heap) (v : Value) :
    (∃ n u, h.Chain v n u) ∨ h.Circular v := by
  by_cases hend : ∃ n, ∀ c, h.next^[n] v ≠ .reference c
  · exact .inl (exists_chain_of_iterate hend)
  · right
    push Not at hend
    choose c hc using hend
    have hrefers : ∀ n, h.Refers (c n) (c (n + 1)) := by
      intro n
      rw [Refers, ← hc (n + 1), Function.iterate_succ_apply', hc n]
      rfl
    have hreach : ∀ i k, Relation.ReflTransGen h.Refers (c i) (c (i + k)) := by
      intro i k
      induction k with
      | zero => exact .refl
      | succ k ih => exact ih.tail (hrefers (i + k))
    -- there are more steps than cells, so one cell comes twice
    let f : Nat → Fin h.cells.fresh := fun n ↦ ⟨(c n).index, lt_fresh_of_refers (hrefers n)⟩
    obtain ⟨i, j, hlt, hij⟩ : ∃ i j, i < j ∧ c i = c j := by
      obtain ⟨i, j, hne, hf⟩ := Finite.exists_ne_map_eq_of_infinite f
      have hcij : c i = c j := by
        have hidx : (c i).index = (c j).index := Fin.mk.inj hf
        cases hci : c i
        cases hcj : c j
        rw [hci, hcj] at hidx
        exact congrArg CellId.mk hidx
      rcases Nat.lt_or_gt_of_ne hne with hlt | hlt
      · exact ⟨i, j, hlt, hcij⟩
      · exact ⟨j, i, hlt, hcij.symm⟩
    refine ⟨c 0, c i, hc 0, ?_, ?_⟩
    · have hi := hreach 0 i
      rwa [Nat.zero_add] at hi
    · have hround := hreach (i + 1) (j - (i + 1))
      rw [Nat.add_sub_cancel' hlt, ← hij] at hround
      exact .head' (hrefers i) hround

/-! ### Following to a limit -/

/-- **Following references gives the end of a chain** that is not longer than the limit. -/
theorem chase_eq_some_iff : h.chase limit v = some u ↔ ∃ n ≤ limit, h.Chain v n u := by
  induction limit generalizing v with
  | zero =>
    cases v with
    | reference c =>
      refine iff_of_false (fun he ↦ by cases he) ?_
      rintro ⟨n, hle, hc⟩
      cases hc with
      | stop hv => exact absurd rfl (hv c)
      | step hc => cases hle
    | _ =>
      refine ⟨fun he ↦ ⟨0, Nat.le_refl 0, Option.some.inj he ▸ .stop fun _ hr ↦ by cases hr⟩, ?_⟩
      rintro ⟨n, -, hc⟩
      cases hc
      rfl
  | succ limit ih =>
    cases v with
    | reference c =>
      rw [chase, ih]
      constructor
      · rintro ⟨n, hle, hc⟩
        exact ⟨n + 1, Nat.succ_le_succ hle, .step hc⟩
      · rintro ⟨n, hle, hc⟩
        cases hc with
        | stop hv => exact absurd rfl (hv c)
        | step hc => exact ⟨_, Nat.le_of_succ_le_succ hle, hc⟩
    | _ =>
      refine ⟨fun he ↦ ⟨0, Nat.zero_le _, Option.some.inj he ▸ .stop fun _ hr ↦ by cases hr⟩, ?_⟩
      rintro ⟨n, -, hc⟩
      cases hc
      rfl

/-- Whether a value leads into a circle, or through more cells than a limit allows. -/
def Overlong (h : Heap) (limit : Nat) (v : Value) : Prop :=
  h.Circular v ∨ ∃ n u, h.Chain v n u ∧ limit < n

theorem chase_eq_none_iff : h.chase limit v = none ↔ h.Overlong limit v := by
  rw [Option.eq_none_iff_forall_ne_some]
  constructor
  · intro hnone
    rcases h.exists_chain_or_circular v with ⟨n, u, hc⟩ | hcirc
    · refine .inr ⟨n, u, hc, Nat.lt_of_not_le fun hle ↦ ?_⟩
      exact hnone u (chase_eq_some_iff.2 ⟨n, hle, hc⟩)
    · exact .inl hcirc
  · rintro hover u hu
    obtain ⟨n, hle, hc⟩ := chase_eq_some_iff.1 hu
    rcases hover with hcirc | ⟨m, u', hc', hlt⟩
    · exact hc.not_circular hcirc
    · have hnm := (hc.unique hc').1
      omega

/-- **Following references fails exactly on circles and on chains that are too long.** -/
theorem dereference_eq_error_iff :
    h.dereference limit v = .error err ↔ err = .referenceDepth limit ∧ h.Overlong limit v := by
  rw [dereference, ← chase_eq_none_iff]
  cases h.chase limit v with
  | none => exact ⟨fun he ↦ ⟨(Except.error.inj he).symm, rfl⟩, fun he ↦ by rw [he.1]⟩
  | some u => exact iff_of_false (fun he ↦ by cases he) fun he ↦ by cases he.2

/-! ### Coercing keys -/

/-- How coercing a value to a key fails, and when. -/
inductive KeyFailure (h : Heap) (limit : Nat) (v : Value) : ValueError → Prop
  /-- The cells of the value form a circle, or there are more of them than the limit. -/
  | depth (hv : h.Overlong limit v) : KeyFailure h limit v (.referenceDepth limit)
  /-- At the end of the chain there is an array. -/
  | array {n : Nat} {t : TableId} (hc : h.Chain v n (.array t)) (hn : n ≤ limit) :
      KeyFailure h limit v (.illegalKey .array)
  /-- At the end of the chain there is an object. -/
  | object {n : Nat} {o : ObjectId} (hc : h.Chain v n (.object o)) (hn : n ≤ limit) :
      KeyFailure h limit v (.illegalKey .object)

/-- Only arrays and objects are no keys. -/
private theorem keyOfValue_eq_error_iff (hu : ∀ c, u ≠ .reference c) :
    h.keyOfValue u = .error err ↔
      (∃ t, u = .array t) ∧ err = .illegalKey .array ∨
        (∃ o, u = .object o) ∧ err = .illegalKey .object := by
  cases u with
  | reference c => exact absurd rfl (hu c)
  | array t =>
    refine ⟨fun he ↦ .inl ⟨⟨t, rfl⟩, (Except.error.inj he).symm⟩, ?_⟩
    rintro (⟨-, rfl⟩ | ⟨⟨o, ho⟩, -⟩)
    · rfl
    · cases ho
  | object o =>
    refine ⟨fun he ↦ .inr ⟨⟨o, rfl⟩, (Except.error.inj he).symm⟩, ?_⟩
    rintro (⟨⟨t, ht⟩, -⟩ | ⟨-, rfl⟩)
    · cases ht
    · rfl
  | _ =>
    refine iff_of_false (fun he ↦ by cases he) ?_
    rintro (⟨⟨t, ht⟩, -⟩ | ⟨⟨o, ho⟩, -⟩)
    · cases ht
    · cases ho

/-- **Coercing a key fails exactly as `KeyFailure` says.** -/
theorem coerceKey_eq_error_iff : h.coerceKey limit v = .error err ↔ h.KeyFailure limit v err := by
  have hbind : h.coerceKey limit v = (h.dereference limit v).bind h.keyOfValue := rfl
  rw [hbind]
  cases hd : h.dereference limit v with
  | error e =>
    obtain ⟨rfl, hover⟩ := dereference_eq_error_iff.1 hd
    have hno : ∀ {n u}, h.Chain v n u → n ≤ limit → False := fun hc hle ↦ by
      have hs := chase_eq_some_iff.2 ⟨_, hle, hc⟩
      rw [chase_eq_none_iff.2 hover] at hs
      cases hs
    refine ⟨fun he ↦ Except.error.inj he ▸ .depth hover, fun hk ↦ ?_⟩
    cases hk with
    | depth _ => rfl
    | array hc hle => exact (hno hc hle).elim
    | object hc hle => exact (hno hc hle).elim
  | ok u =>
    obtain ⟨n, hle, hc⟩ : ∃ n ≤ limit, h.Chain v n u := by
      refine chase_eq_some_iff.1 ?_
      rw [dereference] at hd
      cases hch : h.chase limit v with
      | none =>
        rw [hch] at hd
        cases hd
      | some w =>
        rw [hch] at hd
        rw [Except.ok.inj hd]
    have hnot : ¬ h.Overlong limit v := fun hover ↦ by
      rw [dereference_eq_error_iff.2 ⟨rfl, hover⟩] at hd
      cases hd
    refine (keyOfValue_eq_error_iff hc.ne_reference).trans ⟨?_, fun hk ↦ ?_⟩
    · rintro (⟨⟨t, rfl⟩, rfl⟩ | ⟨⟨o, rfl⟩, rfl⟩)
      · exact .array hc hle
      · exact .object hc hle
    · cases hk with
      | depth hover => exact absurd hover hnot
      | array hc' _ => exact .inl ⟨⟨_, (hc.unique hc').2⟩, rfl⟩
      | object hc' _ => exact .inr ⟨⟨_, (hc.unique hc').2⟩, rfl⟩

end SharedValue.Heap
