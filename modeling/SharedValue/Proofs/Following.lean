import SharedValue.Proofs.Failures

/-!
# Following references

What following a value to a limit gives is settled by the chain of cells that the value leads
through (`Heap.Chain`), or by the circle that it leads into: the end of the chain if its length is
at most the limit, and otherwise a failure (`Heap.FollowsExactly`).

Following looks at no more cells than the limit (`Heap.inspected`), and at no others: a heap that
agrees on these gives the same (`dereference_congr`). A counter that counts them in words of any
width never leaves its words, since it stops at the limit, which is one of them (`follow_eq`).
-/

namespace SharedValue

namespace Heap

variable {h h' : Heap} {u v : Value} {n limit limit' depth : Nat} {width : Nat}

/-! ### The end of a chain -/

/-- **The end of a chain is given** if the chain is not longer than the limit. -/
theorem dereference_of_chain (hc : h.Chain v n u) (limit : Nat) : h.dereference limit v =
    if n ≤ limit then .ok u else .error (.referenceDepth limit) := by
  split
  next hle => rw [dereference, chase_eq_some_iff.2 ⟨n, hle, hc⟩]
  next hlt => exact dereference_eq_error_iff.2 ⟨rfl, .inr ⟨n, u, hc, Nat.lt_of_not_le hlt⟩⟩

/-- A circle has no end for any limit. -/
theorem dereference_of_circular (hc : h.Circular v) (limit : Nat) :
    h.dereference limit v = .error (.referenceDepth limit) :=
  dereference_eq_error_iff.2 ⟨rfl, .inl hc⟩

/-- Following ends with a value exactly if a chain is no longer than the limit. -/
theorem dereference_eq_ok_iff : h.dereference limit v = .ok u ↔ ∃ n ≤ limit, h.Chain v n u := by
  rw [← chase_eq_some_iff, dereference]
  cases h.chase limit v with
  | none => exact iff_of_false (fun he ↦ by cases he) fun he ↦ by cases he
  | some w =>
    exact ⟨fun he ↦ congrArg some (Except.ok.inj he), fun he ↦ congrArg _ (Option.some.inj he)⟩

/-- What is given for a limit is given for every larger one. -/
theorem dereference_mono (hle : limit ≤ limit') (hu : h.dereference limit v = .ok u) :
    h.dereference limit' v = .ok u := by
  obtain ⟨n, hn, hc⟩ := dereference_eq_ok_iff.1 hu
  exact dereference_eq_ok_iff.2 ⟨n, hn.trans hle, hc⟩

/-- There is nothing to follow in a value that is no reference. -/
theorem chase_of_ne (hv : ∀ c, v ≠ .reference c) (limit : Nat) : h.chase limit v = some v :=
  chase_eq_some_iff.2 ⟨0, Nat.zero_le limit, .stop hv⟩

/-! ### The cells that are looked at -/

theorem inspected_of_ne (hv : ∀ c, v ≠ .reference c) (limit : Nat) : h.inspected limit v = [] := by
  cases limit with
  | zero => rfl
  | succ limit =>
    cases v with
    | reference c => exact absurd rfl (hv c)
    | _ => rfl

/-- At most as many cells are inspected as the limit says. -/
theorem length_inspected_le (h : Heap) (limit : Nat) (v : Value) :
    (h.inspected limit v).length ≤ limit := by
  induction limit generalizing v with
  | zero => exact Nat.le_refl 0
  | succ limit ih =>
    cases v with
    | reference c => exact Nat.succ_le_succ (ih (h.cell c))
    | _ => exact Nat.zero_le _

/-- Of a chain all cells are looked at, up to the limit. -/
theorem length_inspected_of_chain (hc : h.Chain v n u) (limit : Nat) :
    (h.inspected limit v).length = min n limit := by
  induction hc generalizing limit with
  | stop hv => rw [inspected_of_ne hv, List.length_nil, Nat.zero_min]
  | @step c n v _ ih =>
    cases limit with
    | zero => rfl
    | succ limit => rw [inspected, List.length_cons, ih, Nat.succ_min_succ]

/-- Only the cells that are inspected matter. -/
private theorem chase_congr (hagree : ∀ c ∈ h.inspected limit v, h'.cell c = h.cell c) :
    h'.chase limit v = h.chase limit v := by
  induction limit generalizing v with
  | zero => cases v <;> rfl
  | succ limit ih =>
    cases v with
    | reference c =>
      obtain ⟨hc, hrest⟩ := List.forall_mem_cons.1 hagree
      rw [chase, chase, hc, ih hrest]
    | _ => rfl

/-- **No other cell is looked at.** -/
theorem dereference_congr (hagree : ∀ c ∈ h.inspected limit v, h'.cell c = h.cell c) :
    h'.dereference limit v = h.dereference limit v := by
  rw [dereference, dereference, chase_congr hagree]

/-! ### Counting in words -/

/-- One more, if the word does not overflow. -/
def increment? (depth : BitVec width) : Option (BitVec width) :=
  if depth.toNat + 1 < 2 ^ width then some (depth + 1) else none

/-- Below a word there is room for one more. -/
theorem increment?_of_lt {depth limit : BitVec width} (hlt : depth < limit) :
    ∃ next, increment? depth = some next ∧ next.toNat = depth.toNat + 1 := by
  have hlimit := limit.isLt
  have hlt : depth.toNat < limit.toNat := BitVec.lt_def.1 hlt
  have hfits : depth.toNat + 1 < 2 ^ width := by omega
  refine ⟨depth + 1, if_pos hfits, ?_⟩
  rw [BitVec.toNat_add, BitVec.ofNat_eq_ofNat, BitVec.toNat_ofNat, Nat.add_mod_mod,
    Nat.mod_eq_of_lt hfits]

/-- Follows references with a counter, in words of some width, of the cells that were followed.
Gives nothing if the counter overflows. -/
def follow (h : Heap) (limit depth : BitVec width) : Value → Option (Except ValueError Value)
  | .reference c =>
    if depth < limit then
      match _hnext : increment? depth with
      | none => none
      | some next => h.follow limit next (h.cell c)
    else some (.error (.referenceDepth limit.toNat))
  | v => some (.ok v)
termination_by limit.toNat - depth.toNat
decreasing_by
  next hlt =>
  obtain ⟨next', hnext', hnat⟩ := increment?_of_lt hlt
  obtain rfl := Option.some.inj (hnext'.symm.trans _hnext)
  have hlt := BitVec.lt_def.1 hlt
  omega

private theorem follow_of_ne (hv : ∀ c, v ≠ .reference c) (limit depth : BitVec width) :
    h.follow limit depth v = some (.ok v) := by
  cases v with
  | reference c => exact absurd rfl (hv c)
  | _ => rw [follow]; exact hv

/-- After some cells, as many more are followed as the limit leaves. -/
private theorem follow_eq_chase (h : Heap) (limit depth : BitVec width) (v : Value) :
    h.follow limit depth v = some
      (match h.chase (limit.toNat - depth.toNat) v with
      | some u => .ok u
      | none => .error (.referenceDepth limit.toNat)) := by
  generalize hr : limit.toNat - depth.toNat = rest
  induction rest generalizing depth v with
  | zero =>
    by_cases hv : ∃ c, v = .reference c
    · obtain ⟨c, rfl⟩ := hv
      have hnot : ¬ depth < limit := fun hlt ↦ by
        have hlt := BitVec.lt_def.1 hlt
        omega
      rw [follow, if_neg hnot, chase]
    · rw [follow_of_ne fun c hc ↦ hv ⟨c, hc⟩, chase_of_ne fun c hc ↦ hv ⟨c, hc⟩]
  | succ rest ih =>
    by_cases hv : ∃ c, v = .reference c
    · obtain ⟨c, rfl⟩ := hv
      have hlt : depth < limit := BitVec.lt_def.2 (by omega)
      obtain ⟨next, hnext, hnat⟩ := increment?_of_lt hlt
      rw [follow, if_pos hlt, chase]
      split
      next he =>
        rw [hnext] at he
        cases he
      next he =>
        obtain rfl := Option.some.inj (hnext.symm.trans he)
        exact ih next (h.cell c) (by omega)
    · rw [follow_of_ne fun c hc ↦ hv ⟨c, hc⟩, chase_of_ne fun c hc ↦ hv ⟨c, hc⟩]

/-- **The counter never overflows**, and counting comes to the same as following. -/
theorem follow_eq (h : Heap) (limit : BitVec width) (v : Value) :
    h.follow limit 0 v = some (h.dereference limit.toNat v) := by
  rw [follow_eq_chase]
  rfl

/-! ### Keys -/

/-- **Coercing a key fails for its depth** exactly where following it does. -/
theorem coerceKey_eq_depth_iff : h.coerceKey limit v = .error (.referenceDepth depth) ↔
    h.dereference limit v = .error (.referenceDepth depth) := by
  rw [coerceKey_eq_error_iff, dereference_eq_error_iff]
  constructor
  · intro hk
    cases hk with
    | depth hover => exact ⟨rfl, hover⟩
  · rintro ⟨hdepth, hover⟩
    rw [hdepth]
    exact .depth hover

/-- What following the references of a value comes to, whatever the limit. -/
structure FollowsExactly (h : Heap) (v : Value) : Prop where
  /-- The value leads through some cells to an end, or into a circle. -/
  chain_or_circular : (∃ n u, h.Chain v n u) ∨ h.Circular v
  /-- The end is given if there are not more cells than the limit. -/
  of_chain : ∀ {n u}, h.Chain v n u → ∀ limit, h.dereference limit v =
    if n ≤ limit then .ok u else .error (.referenceDepth limit)
  of_circular : h.Circular v → ∀ limit, h.dereference limit v = .error (.referenceDepth limit)
  /-- No more cells than the limit are looked at. -/
  length_inspected_le : ∀ limit, (h.inspected limit v).length ≤ limit
  /-- Of a chain all cells are looked at, up to the limit. -/
  length_inspected_of_chain : ∀ {n u}, h.Chain v n u → ∀ limit,
    (h.inspected limit v).length = min n limit
  /-- What other cells hold makes no difference. -/
  congr : ∀ limit {h' : Heap}, (∀ c ∈ h.inspected limit v, h'.cell c = h.cell c) →
    h'.dereference limit v = h.dereference limit v
  /-- A counter of the cells does not overflow. -/
  follow_eq : ∀ {width} (limit : BitVec width),
    h.follow limit 0 v = some (h.dereference limit.toNat v)
  mono : ∀ {limit limit' u}, limit ≤ limit' → h.dereference limit v = .ok u →
    h.dereference limit' v = .ok u
  coerceKey_iff : ∀ limit depth, h.coerceKey limit v = .error (.referenceDepth depth) ↔
    h.dereference limit v = .error (.referenceDepth depth)

/-- **Following references comes to the end of the chain**, or fails with the limit. -/
theorem followsExactly (h : Heap) (v : Value) : h.FollowsExactly v where
  chain_or_circular := h.exists_chain_or_circular v
  of_chain := dereference_of_chain
  of_circular := dereference_of_circular
  length_inspected_le limit := h.length_inspected_le limit v
  length_inspected_of_chain := length_inspected_of_chain
  congr _ _ := dereference_congr
  follow_eq limit := h.follow_eq limit v
  mono := dereference_mono
  coerceKey_iff _ _ := coerceKey_eq_depth_iff

end Heap

namespace Workspace

variable {w : Workspace} {s : String} {k : KeySource} {v : Value} {depth : Nat}

/-- The key of a variable fails for its depth where following it does. -/
theorem symbolLabel_eq_depth_iff : w.symbolLabel s k = .error (.referenceDepth depth) ↔
    ∃ key, k = .value key ∧
      w.heap.dereference (w.configOf s).maxReferenceDepth key = .error (.referenceDepth depth) := by
  rw [symbolLabel]
  cases k with
  | value key =>
    refine Heap.coerceKey_eq_depth_iff.trans ⟨fun he ↦ ⟨key, rfl, he⟩, ?_⟩
    rintro ⟨_, hkey, he⟩
    rwa [KeySource.value.inj hkey]
  | label l =>
    refine iff_of_false (fun he ↦ by cases he) ?_
    rintro ⟨key, hkey, -⟩
    cases hkey

/-- **Reading a variable fails for its depth** exactly where following its name does, or following
what is found under it. -/
theorem getSymbol_eq_depth_iff : w.getSymbol s k = .error (.referenceDepth depth) ↔
    (∃ key, k = .value key ∧
      w.heap.dereference (w.configOf s).maxReferenceDepth key = .error (.referenceDepth depth)) ∨
      ∃ l u, w.symbolLabel s k = .ok l ∧ w.heap.get? (w.tableAt (.symbols s)) l.key = some u ∧
        w.heap.dereference (w.configOf s).maxReferenceDepth u = .error (.referenceDepth depth) := by
  have hattempt : w.getSymbol s k = .error (.referenceDepth depth) ↔
      ((KeyOperation.getSymbol s).attempt w k).2 = some (.referenceDepth depth) :=
    KeyOperation.failure?_eq_some_iff.symm
  rw [hattempt, ← symbolLabel_eq_depth_iff]
  cases hl : w.symbolLabel s k with
  | error err =>
    rw [KeyOperation.attempt_of_error (.getSymbol s) hl]
    refine ⟨fun he ↦ .inl (congrArg _ (Option.some.inj he)), ?_⟩
    rintro (he | ⟨l, u, hok, -⟩)
    · exact congrArg some (Except.error.inj he)
    · cases hok
  | ok l =>
    rw [KeyOperation.attempt_getSymbol_eq_some_iff hl]
    constructor
    · rintro ⟨hdepth, l', u, hl', hu, hover⟩
      exact .inr ⟨l', u, hl.symm.trans hl', hu, Heap.dereference_eq_error_iff.2 ⟨hdepth, hover⟩⟩
    · rintro (he | ⟨l', u, hl', hu, he⟩)
      · cases he
      · obtain ⟨hdepth, hover⟩ := Heap.dereference_eq_error_iff.1 he
        exact ⟨hdepth, l', u, hl.trans hl', hu, hover⟩

/-- **Following references is exact.** A value that leads through `n` cells to an end is followed to
that end with every limit from `n` on, and fails with every smaller one; a value that leads into a
circle fails with every limit. No more cells than the limit are looked at, and a counter of them
does not overflow. Coercing a key fails for its depth exactly where following it does, and so does
reading a variable, for its name and for what is found under it. -/
theorem following_exact (w : Workspace) (v : Value) :
    w.heap.FollowsExactly v ∧
      ∀ s k depth, w.getSymbol s k = .error (.referenceDepth depth) ↔
        (∃ key, k = .value key ∧ w.heap.dereference (w.configOf s).maxReferenceDepth key =
          .error (.referenceDepth depth)) ∨
          ∃ l u, w.symbolLabel s k = .ok l ∧ w.heap.get? (w.tableAt (.symbols s)) l.key = some u ∧
            w.heap.dereference (w.configOf s).maxReferenceDepth u =
              .error (.referenceDepth depth) :=
  ⟨w.heap.followsExactly v, fun _ _ _ ↦ getSymbol_eq_depth_iff⟩

/-- A program that makes a chain of two cells, and a cell with a reference to one that holds a
reference to itself. -/
def chaining : List Statement :=
  [⟨.array (.constant (.int 7)), some "n"⟩, ⟨.array (.cell "n"), some "a"⟩,
    ⟨.array (.cell "a"), some "b"⟩, ⟨.array (.cell "n"), some "c"⟩,
    ⟨.array (.setCell "c" "c"), none⟩, ⟨.array (.cell "c"), some "d"⟩]

/-- Where that program ends. -/
def chainingEnd : Workspace := ((empty.run chaining).map (·.1)).getD empty

/-- Two cells are followed with the limit two and not with one, a circle with no limit. -/
theorem following_exact_chainingEnd :
    chainingEnd.Reachable ∧ chainingEnd.heap.dereference 2 (.reference ⟨1⟩) = .ok (.int 7) ∧
      chainingEnd.heap.dereference 1 (.reference ⟨1⟩) = .error (.referenceDepth 1) ∧
        ∀ limit, chainingEnd.heap.dereference limit (.reference ⟨3⟩) =
          .error (.referenceDepth limit) := by
  have hchain : chainingEnd.heap.Chain (.reference ⟨1⟩) 2 (.int 7) :=
    .step (.step (.stop fun _ he ↦ by cases he))
  have hcircle : chainingEnd.heap.Circular (.reference ⟨3⟩) :=
    ⟨⟨3⟩, ⟨2⟩, rfl, .single rfl, .single rfl⟩
  obtain ⟨hexact, -⟩ := chainingEnd.following_exact (.reference ⟨1⟩)
  obtain ⟨hcircular, -⟩ := chainingEnd.following_exact (.reference ⟨3⟩)
  exact ⟨⟨chaining, _, rfl⟩, hexact.of_chain hchain 2, hexact.of_chain hchain 1,
    hcircular.of_circular hcircle⟩

end Workspace

end SharedValue
