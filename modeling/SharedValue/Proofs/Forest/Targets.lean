import SharedValue.Proofs.Forest.Changes
import SharedValue.Proofs.Table.Readings

/-!
# Keys, paths and targets in step

What a statement gives as a key is a matter of values that registers and cells show, so a forest
finds the same key (`Represents.keyOf_eq`). Going down a path of keys finds an array in the forest
where it finds one in the workspace, for reading (`Shows.alike_followReading`) and for writing
(`Reached.inStep_followWriting`), and so a statement that changes the array of a target goes in step
with the change in the forest (`Represents.inStep_editTarget`). -/

namespace SharedValue

namespace Workspace

variable {w w' : Workspace} {F F' : Forest} {root : Root} {path : List Key} {p : Place}
  {t : TableId} {k : Key} {v : Value} {S : Tree} {ps : Pairs Tree}

/-! ### Keys -/

/-- The end of a chain of cells. -/
theorem Represents.chase_rel (hr : w.Represents F) (hv : w.Valid) (hS : w.heap.Shows v S)
    (ha : w.heap.Admits v) (limit : Nat) :
    Option.Rel (fun v S ↦ w.heap.Shows v S ∧ w.heap.Admits v) (w.heap.chase limit v)
      (F.chase limit S) := by
  induction limit generalizing v S with
  | zero =>
    cases v with
    | reference c =>
      obtain rfl := hS.eq_of_flat rfl
      exact .none
    | array t =>
      obtain ⟨ps, rfl, -⟩ := hS.exists_matches
      exact .some ⟨hS, ha⟩
    | _ =>
      obtain rfl := hS.eq_of_flat rfl
      exact .some ⟨hS, ha⟩
  | succ limit ih =>
    cases v with
    | reference c =>
      obtain rfl := hS.eq_of_flat rfl
      have hsound := Heap.admits_reference_iff.1 ha
      exact ih (hr.shows_cell hsound) (hv.heap.admits_cell c)
    | array t =>
      obtain ⟨ps, rfl, -⟩ := hS.exists_matches
      exact .some ⟨hS, ha⟩
    | _ =>
      obtain rfl := hS.eq_of_flat rfl
      exact .some ⟨hS, ha⟩

/-- A tree is the same key as the value that shows it. -/
theorem Represents.keyOfTree_eq (hr : w.Represents F) (hS : w.heap.Shows v S)
    (ha : w.heap.Admits v) : F.keyOfTree S = (w.heap.keyOfValue v).map (·.key) := by
  cases v with
  | array t =>
    obtain ⟨ps, rfl, -⟩ := hS.exists_matches
    rfl
  | string s =>
    obtain rfl := hS.eq_of_flat rfl
    show Except.ok (Key.text s.bytes).normalize = .ok (Label.ofStr s).normalize.key
    rw [Label.key_normalize]
    rfl
  | resource r =>
    obtain rfl := hS.eq_of_flat rfl
    obtain ⟨record, hrecord⟩ := ha (.resource r) rfl
    show Except.ok (Key.int ((F.resources[r.index]?).getD 0)) = .ok (.int (w.heap.resourceHandle r))
    rw [hr.tallies.resource hrecord, Heap.resourceHandle, hrecord]
    rfl
  | _ =>
    obtain rfl := hS.eq_of_flat rfl
    rfl

/-- **A forest finds the same keys.** -/
theorem Represents.keyOf_eq (hr : w.Represents F) (hv : w.Valid) : F.keyOf = w.keyOf := by
  funext k
  cases k with
  | key k => rfl
  | register name =>
    rw [Forest.keyOf, Workspace.keyOf, Forest.coerceKey, Heap.coerceKey, Heap.dereference]
    have hchase := hr.chase_rel hv (hr.shows_operand name) (admits_operand hv name)
      defaultReferenceDepth
    generalize w.heap.chase defaultReferenceDepth (w.operand name) = x at hchase
    generalize F.chase defaultReferenceDepth (F.operand name) = y at hchase
    cases hchase with
    | none => rfl
    | some h => exact hr.keyOfTree_eq h.1 h.2

/-- What a statement finds before it makes its change. -/
theorem Represents.alike_changeOf (hr : w.Represents F) (hv : w.Valid) (path : List KeyTerm)
    (e : Edit KeyTerm String) :
    Alike (fun c c' ↦ c.1 = c'.1 ∧ Edit.Rel Eq w.heap.Shows c.2 c'.2) (w.changeOf path e)
      (F.changeOf path e) := by
  rw [Workspace.changeOf, Forest.changeOf, hr.keyOf_eq hv]
  cases path.mapM w.keyOf with
  | error err => exact .error err
  | ok keys =>
    have halike := Edit.alike_resolve w.keyOf hr.shows_operand e
    generalize e.resolve w.keyOf w.operand = x at halike
    generalize e.resolve w.keyOf F.operand = y at halike
    cases halike with
    | error err => exact .error err
    | ok h => exact .ok ⟨rfl, h⟩

/-! ### Roots -/

/-- A register stands for the same root in the forest. -/
theorem Represents.rootOf_eq (hr : w.Represents F) (name : String) :
    F.rootOf name = w.rootOf name := by
  have hS := hr.shows_operand name
  have hop : w.valueAt (.register name) = w.operand name := rfl
  rw [Forest.rootOf, Workspace.rootOf, hop]
  generalize w.operand name = v at hS
  cases v with
  | array t =>
    obtain ⟨ps, he, -⟩ := hS.exists_matches
    rw [he]
  | _ => rw [hS.eq_of_flat rfl]

/-- That root is there. -/
theorem present_rootOf (hv : w.Valid) (name : String) : w.Present (w.rootOf name) := by
  cases hroot : w.rootOf name with
  | register n => trivial
  | object o => exact absurd hroot (rootOf_ne_object w name o)
  | cell c => exact sound_of_operand_reference hv (rootOf_eq_cell_iff.1 hroot)

/-- The borrowed cell is the root of the register. -/
theorem mem_borrowedBy_iff {name : String} {c : CellId} :
    c ∈ w.borrowedBy name ↔ w.rootOf name = .cell c := by
  refine ⟨fun hmem ↦ rootOf_eq_cell_iff.2 ?_, mem_borrowedBy⟩
  rw [borrowedBy] at hmem
  split at hmem
  next d hd => rwa [List.mem_singleton.1 hmem]
  · cases hmem

/-! ### Writing -/

/-- **Going down a path of keys to write goes in step**: it fails in both, or leads to the same
array. -/
theorem Reached.inStep_followWriting {labels : List Label} (hreach : w.Reached root.place path p)
    (hp : w.Present root) (hr : w.Represents F) (hv : w.Valid)
    (hnormal : ∀ l ∈ labels, l.key.IsNormal) : ∃ w' F' r r',
      w.followWriting p (labels.map Label.toValue) = (w', r) ∧
        F.enter root path (labels.map (·.key)) = (F', r') ∧ Follows w w' F' ∧
          Alike (fun q path' ↦ ∃ t, w'.Arrives root path' q t) r r' := by
  induction labels generalizing w F p path with
  | nil =>
    have hS := hreach.shows hr hv hp
    rw [List.map_nil, List.map_nil, followWriting, Forest.enter, expectArrayAt]
    by_cases harray : ∃ t, w.valueAt p = .array t
    · obtain ⟨t, hval⟩ := harray
      obtain ⟨ps, hps⟩ := hS.array_iff.1 ⟨t, hval⟩
      rw [hval, hps]
      exact ⟨w, F, .ok p, .ok path, rfl, rfl, hr.follows hv, .ok ⟨t, hreach, hp, hval⟩⟩
    · rw [Value.expectArray_of_ne harray, Tree.expectArray_of_ne fun h ↦ harray (hS.array_iff.2 h),
        hS.kind_eq]
      exact ⟨w, F, _, _, rfl, rfl, hr.follows hv, .error _⟩
  | cons l rest ih =>
    have hS := hreach.shows hr hv hp
    rw [List.map_cons, List.map_cons, followWriting, Forest.enter, expectArrayAt]
    by_cases harray : ∃ t, w.valueAt p = .array t
    · obtain ⟨t, hval⟩ := harray
      obtain ⟨ps, hps⟩ := hS.array_iff.1 ⟨t, hval⟩
      have hl := hnormal l List.mem_cons_self
      obtain ⟨l', hl', hkey⟩ := exists_coerceKey_toValue w.heap l hl
      have hlabel : KeySource.label? w.heap defaultReferenceDepth (.value l.toValue) = .ok l' := hl'
      have hnormal' : l'.normalize.key = l.key := by
        rw [Label.key_normalize_of_isNormal (hkey ▸ hl), hkey]
      have harrives : w.Arrives root path p t := ⟨hreach, hp, hval⟩
      obtain ⟨w₁, t₁, hopen, hf, ho⟩ := harrives.follows_openElement hr hv l'
      rw [hnormal'] at hopen hf ho
      rw [hval, hps, openAt, hlabel]
      dsimp only [Value.expectArray, Tree.expectArray]
      rw [hopen]
      obtain ⟨w', F', r, r', hw, hF, hf', halike⟩ := ih (.element ho.anchored l.key)
        ho.anchored.present hf.represents hf.valid fun l hmem ↦
          hnormal l (List.mem_cons_of_mem _ hmem)
      exact ⟨w', F', r, r', hw, hF, hf.trans hf', halike⟩
    · rw [Value.expectArray_of_ne harray, Tree.expectArray_of_ne fun h ↦ harray (hS.array_iff.2 h),
        hS.kind_eq]
      exact ⟨w, F, _, _, rfl, rfl, hr.follows hv, .error _⟩

/-- A change is looked up if its path and its keys are. -/
theorem exists_of_changeOf {path : List KeyTerm} {e : Edit KeyTerm String} {keys : List Key}
    {e' : Edit Key Value} (h : w.changeOf path e = .ok (keys, e')) :
    path.mapM w.keyOf = .ok keys ∧ e.resolve w.keyOf w.operand = .ok e' := by
  rw [changeOf] at h
  cases hks : path.mapM w.keyOf with
  | error err =>
    rw [hks] at h
    cases h
  | ok ks =>
    rw [hks] at h
    obtain ⟨e'', he, heq⟩ := Except.map_eq_ok_iff.1 h
    obtain ⟨rfl, rfl⟩ := Prod.mk.inj heq
    exact ⟨rfl, he⟩

/-- The change of an array at the end of a path. -/
theorem Represents.inStep_editFrom (hr : w.Represents F) (hv : w.Valid) {name : String}
    {labels : List Label} (hnormal : ∀ l ∈ labels, l.key.IsNormal) {e : Edit Label Value}
    {e' : Edit Key Tree} (he : Edit.Rel (fun l k ↦ l.normalize.key = k) w.Offers e e') :
    InStep w (w.editFrom (w.placeOf name) labels (w.borrowedBy name) e)
      (match F.enter (F.rootOf name) [] (labels.map (·.key)) with
        | (F, .error err) => some (F, .error err)
        | (F', .ok path) => F'.edit (F.rootOf name) path e') := by
  have hreach : w.Reached (w.rootOf name).place [] (w.rootOf name).place :=
    .root (Root.isOutside_place _)
  obtain ⟨w₁, F₁, r, r', hw, hF, hf, halike⟩ :=
    hreach.inStep_followWriting (present_rootOf hv name) hr hv hnormal
  rw [editFrom, placeOf_eq, hw, hr.rootOf_eq, hF]
  cases halike with
  | error err => exact .some hf (.error err)
  | ok harrives =>
    obtain ⟨t, ha⟩ := harrives
    exact hf.inStep (ha.inStep_edit hf.represents hf.valid (fun c ↦ mem_borrowedBy_iff)
      (he.imp hf.offers))

/-- **A statement that changes an array goes in step.** -/
theorem Represents.inStep_editTarget (hr : w.Represents F) (hv : w.Valid) (target : Target)
    (e : Edit KeyTerm String) : InStep w (w.editTarget target e) (F.editTarget target e) := by
  have halike := hr.alike_changeOf hv target.path e
  have hadmits := (quietly_prepare hv target.path e).2
  rw [Workspace.editTarget, Forest.editTarget]
  rcases w.prepare_eq target.path e with ⟨n, err, heq, hc⟩ | ⟨n, ls, e', heq, hc⟩
  · rw [hc] at halike
    rw [heq]
    generalize F.changeOf target.path e = y at halike
    cases halike
    exact .some (hr.follows_withBuffers hv n) (.error err)
  · obtain ⟨hkeys, hresolve⟩ := exists_of_changeOf hc
    rw [hc] at halike
    rw [heq] at hadmits ⊢
    generalize F.changeOf target.path e = y at halike
    cases halike with
    | @ok _ c h =>
      obtain ⟨keys, e''⟩ := c
      obtain ⟨rfl, hrel⟩ := h
      -- the operands are held now, and the keys are normal
      have hf₁ := hr.follows_withBuffers hv n
      have hf₂ : Follows (w.withBuffers n) ((w.withBuffers n).hold e'.operands) F :=
        hf₁.represents.follows_hold hf₁.valid (hadmits ls e' rfl)
      have hnormal := mapKeys_normalize_of_resolve hresolve
      rw [Edit.mapKeys_mapKeys] at hnormal
      rw [← hnormal] at hrel
      have hoffers : Edit.Rel (fun l k ↦ l.normalize.key = k)
          ((w.withBuffers n).hold e'.operands).Offers e' e'' := by
        have hkey : (fun l : Label ↦ l.key.normalize) = fun l ↦ l.normalize.key :=
          funext fun l ↦ l.key_normalize.symm
        rw [hkey] at hrel
        exact hrel.of_mapKeys.imp fun hv' ↦
          ⟨List.mem_append_right _ hv'.1, hv'.2.congr hv.heap fun _ ↦ rfl⟩
      exact (hf₁.trans hf₂).inStep (hf₂.represents.inStep_editFrom hf₂.valid
        (isNormal_of_map_key (map_normalize_of_mapM hkeys).symm) hoffers)

end Workspace

end SharedValue
