import SharedValue.Proofs.Forest.Targets

/-!
# Operations in step

Every operation on arrays, cells and objects goes in step with the operation of the same name in a
forest (`Represents.inStep_arrayCommand`). Readings change nothing but the number of buffers, and
look keys up in arrays that show the same pairs; what is new gets the same name in both; and what is
given is held, so that it shows its tree until the statement ends. -/

namespace SharedValue

/-! ### Reading an array -/

namespace Heap

variable {h : Heap} {t : TableId} {ps : Pairs Tree}

/-- Looking up a key. -/
theorem get?_rel (hS : h.Shows (.array t) (.array ps)) (k : Key) :
    Option.Rel h.Shows (h.get? t k) (Forest.look ps k.normalize) := by
  rw [get?, Table.get?_eq_bind, Forest.look]
  rcases find?_cases hS.matches_table k.normalize with ⟨hf, hps⟩ | ⟨v, S, hf, hps, hS⟩
  · rw [hf, hps]
    exact .none
  · rw [hf, hps]
    exact .some hS.shown

theorem contains_eq (hS : h.Shows (.array t) (.array ps)) (k : Key) :
    h.contains t k = (Forest.look ps k.normalize).isSome := by
  have hrel := get?_rel hS k
  rw [contains, Table.contains_eq_isSome]
  show (h.get? t k).isSome = _
  generalize h.get? t k = x at hrel
  generalize Forest.look ps k.normalize = y at hrel
  cases hrel <;> rfl

end Heap

namespace Workspace

variable {w w' w₁ : Workspace} {F F' F₁ : Forest} {root : Root} {t : TableId} {k : Key} {v : Value}
  {S : Tree} {ps : Pairs Tree} {ε : Type}

theorem alike_followReading {labels : List Label} (hS : w.heap.Shows (.array t) (.array ps))
    (hnormal : ∀ l ∈ labels, l.key.IsNormal) :
    Alike (fun t ps ↦ w.heap.Shows (.array t) (.array ps))
      (w.followReading t (labels.map Label.toValue)) (Forest.follow ps (labels.map (·.key))) := by
  induction labels generalizing t ps with
  | nil => exact .ok hS
  | cons l rest ih =>
    have hl := hnormal l List.mem_cons_self
    -- what is shown under the key, null if nothing is
    have hshows : w.heap.Shows ((w.heap.get? t l.key).getD .null)
        ((ps.find? l.key).getD .null).shown := by
      have hrel := Heap.get?_rel hS l.key
      rw [Key.normalize_of_isNormal hl, Forest.look] at hrel
      generalize w.heap.get? t l.key = x at hrel
      cases hps : ps.find? l.key with
      | none =>
        rw [hps] at hrel
        cases hrel
        exact Heap.shows_of_flat rfl
      | some S =>
        rw [hps] at hrel
        cases hrel with
        | some h => exact h
    rw [followReading_cons hl, List.map_cons, Forest.follow]
    by_cases harray : ∃ u, (w.heap.get? t l.key).getD .null = .array u
    · obtain ⟨u, hu⟩ := harray
      obtain ⟨qs, hqs⟩ := hshows.array_iff.1 ⟨u, hu⟩
      rw [hu, hqs] at hshows
      rw [hu, hqs]
      exact ih hshows fun l hmem ↦ hnormal l (List.mem_cons_of_mem _ hmem)
    · rw [Value.expectArray_of_ne harray,
        Tree.expectArray_of_ne fun h ↦ harray (hshows.array_iff.2 h), hshows.kind_eq]
      exact .error _

/-- **Finding an array for reading.** -/
theorem Represents.alike_reading (hr : w.Represents F) (hv : w.Valid) (target : Target) :
    ∃ n r, w.readingTarget target = (w.withBuffers n, r) ∧
      Alike (fun t ps ↦ (w.withBuffers n).heap.Shows (.array t) (.array ps)) r
        (F.reading target) := by
  obtain ⟨n, r, heq, hks⟩ := w.labelsOf_eq target.path
  have hf := hr.follows_withBuffers hv n
  rw [readingTarget, heq, Forest.reading, hr.keyOf_eq hv, ← hks]
  cases r with
  | error err => exact ⟨n, .error err, rfl, .error err⟩
  | ok ls =>
    refine ⟨n, (w.withBuffers n).readTarget target.register (ls.map Label.toValue), rfl, ?_⟩
    have hS := hf.represents.shows (present_rootOf hf.valid target.register)
    have hnormal := isNormal_of_map_key (map_normalize_of_mapM hks.symm).symm
    show Alike _ _ ((F.get (F.rootOf target.register)).expectArray >>= fun ps ↦
      Forest.follow ps (ls.map (·.key)))
    rw [readTarget, expectArrayAt, placeOf_eq, hf.represents.rootOf_eq]
    by_cases harray : ∃ t, (w.withBuffers n).valueAt
        ((w.withBuffers n).rootOf target.register).place = .array t
    · obtain ⟨t, ht⟩ := harray
      obtain ⟨ps, hps⟩ := hS.array_iff.1 ⟨t, ht⟩
      rw [ht, hps] at hS
      rw [ht, hps]
      exact alike_followReading hS hnormal
    · rw [Value.expectArray_of_ne harray, Tree.expectArray_of_ne fun h ↦ harray (hS.array_iff.2 h),
        hS.kind_eq]
      exact .error _

/-- Looking up a key that a statement gives. -/
theorem Represents.alike_lookIn {α : Type} (hr : w.Represents F) (hv : w.Valid)
    {r : Except ValueError TableId} {r' : Except ValueError (Pairs Tree)}
    (ha : Alike (fun t ps ↦ w.heap.Shows (.array t) (.array ps)) r r') (k : KeyTerm)
    (look : Heap → TableId → Key → α) (R : α → Option Tree → Prop)
    (hlook : ∀ {t ps} {k : Key}, w.heap.Shows (.array t) (.array ps) → k.IsNormal →
      R (look w.heap t k) (Forest.look ps k)) :
    ∃ n x, w.lookIn r k look = (w.withBuffers n, x) ∧ Alike R x (F.lookIn r' k) := by
  cases ha with
  | error err => exact ⟨w.heap.buffers, .error err, rfl, .error err⟩
  | @ok t ps hS =>
    obtain ⟨n, x, heq, hk⟩ := w.withLabel_eq k fun l ↦ look w.heap t l.key
    refine ⟨n, x.map fun l : Label ↦ look w.heap t l.key, ?_, ?_⟩
    · exact heq
    rw [Forest.lookIn, hr.keyOf_eq hv, ← hk]
    cases x with
    | error err => exact .error err
    | ok l => exact .ok (hlook hS (isNormal_of_keyOf hk.symm))

/-! ### Results -/

/-- A value that is given, or none. -/
theorem Follows.inStep_giving {ov : Option Value} {oS : Option Tree} (hf : Follows w w' F')
    (hrel : Option.Rel w'.heap.Shows ov oS) (ha : ∀ u, ov = some u → w'.heap.Admits u) :
    InStep w (some (w'.giving ov)) (some (F', .ok (Forest.views oS))) := by
  have hadm : ∀ u ∈ ov.toList, w'.heap.Admits u := fun u hu ↦ ha u (by simpa using hu)
  have hf' := hf.represents.follows_hold hf.valid hadm
  refine .some (hf.trans hf') (.ok ?_)
  cases hrel with
  | none => exact .nil
  | @some v S hS =>
    refine .cons (.value ⟨?_, hS.congr hf.valid.heap fun _ ↦ rfl⟩) .nil
    exact List.mem_append_right _ List.mem_cons_self

/-- A value that is always given. -/
theorem Follows.inStep_giving_some (hf : Follows w w' F') (hS : w'.heap.Shows v S)
    (ha : w'.heap.Admits v) :
    InStep w (some (w'.giving (some v))) (some (F', .ok [.tree S])) :=
  hf.inStep_giving (.some hS) fun _ hu ↦ Option.some.inj hu ▸ ha

/-- A failure. -/
theorem Follows.inStep_error (hf : Follows w w' F') (e : Failure) :
    InStep w (some (w', .error e)) (some (F', .error e)) :=
  .some hf (.error e)

/-- An operation that fails only as values do. -/
theorem InStep.result {x : Option (Workspace × Except ValueError (List Outcome))}
    {y : Option (Forest × Except ValueError (List View))} (h : InStep w x y) :
    InStep w (x.map fun (w, r) ↦ (w, Workspace.result id r))
      (y.map fun (F, r) ↦ (F, Forest.result id r)) := by
  cases h with
  | none => exact .none
  | some hf ha =>
    cases ha with
    | ok h => exact .some hf (.ok h)
    | error e => exact .some hf (.error (Failure.value e))

/-! ### New things -/

theorem Represents.follows_construct (hr : w.Represents F) (hv : w.Valid) (c : Constant) :
    ∃ w₁ v F₁ S, w.construct c.literal = (w₁, .ok v) ∧ F.construct c = (F₁, S) ∧ Follows w w₁ F₁ ∧
      w₁.heap.Shows v S ∧ w₁.heap.Admits v := by
  cases c with
  | string b =>
    obtain ⟨n, s, heq, rfl⟩ := w.newStr_eq b
    refine ⟨w.withBuffers n, .string s, F, .string s.bytes, ?_, rfl, hr.follows_withBuffers hv n,
      Heap.shows_of_flat rfl, Heap.admits_string s⟩
    rw [Constant.literal, construct, heq]
  | resource handle kind =>
    obtain ⟨n, s, heq, -⟩ := w.newStr_eq kind
    have hf := hr.follows_withBuffers hv n
    refine ⟨_, .resource ⟨w.heap.resources.fresh⟩, _, .resource ⟨F.resources.length⟩, ?_, rfl,
      hf.trans (hf.represents.follows_newResource hf.valid handle s), ?_, fun x hx ↦ ?_⟩
    · rw [Constant.literal, construct, heq]
      rfl
    · rw [hr.tallies.resources]
      exact Heap.shows_of_flat rfl
    · rw [← Option.some.inj hx]
      exact Heap.sound_newResource handle s
  | _ =>
    refine ⟨w, _, F, _, by rw [Constant.literal, construct], rfl, hr.follows hv,
      Heap.shows_of_flat rfl, ?_⟩
    exact Heap.admits_of_handle?_eq_none rfl

/-- The table of a list shows the list. -/
theorem matches_ofList {h : Heap} {vs : List Value} {Ss : List Tree}
    (hS : List.Forall₂ h.Shows vs Ss) :
    (Table.ofList vs).Matches h.SlotShows (Tree.ofList Ss).pairs := by
  suffices hgen : ∀ (j : Nat) (T : Table) (ps : Pairs Tree), T.Matches h.SlotShows ps →
      ((vs.zipIdx j).foldl (fun t (p : Value × Nat) ↦
        t.insertNew (Label.int (Int64.ofNat p.2)) (.value p.1)) T).Matches h.SlotShows
          (ps ++ (Ss.zipIdx j).map fun p ↦ (.int (Int64.ofNat p.2), p.1)) from
    hgen 0 Table.empty [] Table.matches_empty
  induction hS with
  | nil =>
    intro j T ps hm
    rw [List.zipIdx_nil, List.zipIdx_nil, List.map_nil, List.append_nil]
    exact hm
  | @cons v S vs Ss hv _ ih =>
    intro j T ps hm
    have hnext := ih (j + 1) _ _ (hm.insertNew ⟨v, rfl, hv⟩ (Label.int (Int64.ofNat j)))
    rw [Pairs.add, List.append_assoc] at hnext
    rw [List.zipIdx_cons, List.zipIdx_cons, List.map_cons, List.foldl_cons]
    exact hnext

/-- A new list of what registers hold. -/
theorem Represents.follows_newList (hr : w.Represents F) (hv : w.Valid) {names : List String}
    (hlen : names.length ≤ 2 ^ 63) :
    Follows w (w.newList (names.map w.operand)).1 F ∧
      (w.newList (names.map w.operand)).1.heap.Shows
        (.array (w.newList (names.map w.operand)).2) (.ofList (names.map F.operand)) := by
  have hlen' : (names.map w.operand).length ≤ 2 ^ 63 := by rwa [List.length_map]
  have hq := quietly_heap (w := w) (Heap.quietly_newList hlen' fun v hmem ↦ by
    obtain ⟨name, -, rfl⟩ := List.mem_map.1 hmem
    exact admits_operand hv name)
  have hf : Follows w (w.newList (names.map w.operand)).1 F :=
    hr.follows_newTable hv (hq.valid hv)
  refine ⟨hf, Heap.shows_of_matches ?_⟩
  have htable : (w.newList (names.map w.operand)).1.heap.table (w.newList (names.map w.operand)).2 =
      Table.ofList (names.map w.operand) := by
    show (w.heap.newTable _).1.table _ = _
    rw [Heap.table_newTable]
    exact if_pos rfl
  rw [htable]
  refine matches_ofList ?_
  rw [List.forall₂_map_left_iff, List.forall₂_map_right_iff, List.forall₂_same]
  exact fun name _ ↦ hf.represents.shows_operand name

/-! ### Objects and cells -/

section Operand

variable {name : String}

/-- An operation on an object in a register. -/
theorem Represents.inStep_object (hr : w.Represents F) (hv : w.Valid)
    {f : ObjectId → Option (Workspace × Except Failure (List Outcome))}
    {g : ObjectId → Option (Forest × Except Failure (List View))}
    (h : ∀ o, w.operand name = .object o → InStep w (f o) (g o)) :
    InStep w
      (match w.operand name with
        | .object o => f o
        | _ => some (w, .error .malformed))
      (match F.operand name with
        | .object o => g o
        | _ => some (F, .error .malformed)) := by
  have hS := hr.shows_operand name
  generalize w.operand name = v at hS h
  cases v with
  | object o =>
    rw [hS.eq_of_flat rfl]
    exact h o rfl
  | array t =>
    obtain ⟨ps, hps, -⟩ := hS.exists_matches
    rw [hps]
    exact (hr.follows hv).inStep_error .malformed
  | _ =>
    rw [hS.eq_of_flat rfl]
    exact (hr.follows hv).inStep_error .malformed

/-- An operation on a cell in a register. -/
theorem Represents.inStep_reference (hr : w.Represents F) (hv : w.Valid)
    {f : CellId → Option (Workspace × Except Failure (List Outcome))}
    {g : CellId → Option (Forest × Except Failure (List View))}
    (h : ∀ c, w.operand name = .reference c → InStep w (f c) (g c)) :
    InStep w
      (match w.operand name with
        | .reference c => f c
        | _ => some (w, .error .malformed))
      (match F.operand name with
        | .reference c => g c
        | _ => some (F, .error .malformed)) := by
  have hS := hr.shows_operand name
  generalize w.operand name = v at hS h
  cases v with
  | reference c =>
    rw [hS.eq_of_flat rfl]
    exact h c rfl
  | array t =>
    obtain ⟨ps, hps, -⟩ := hS.exists_matches
    rw [hps]
    exact (hr.follows hv).inStep_error .malformed
  | _ =>
    rw [hS.eq_of_flat rfl]
    exact (hr.follows hv).inStep_error .malformed

end Operand

/-- The array of an object's properties, as a place that writing leads to. -/
theorem arrives_properties {o : ObjectId} (ho : w.heap.Sound (.object o)) :
    w.Arrives (.object o) [] (.properties o) (w.heap.properties o) :=
  ⟨.root (Root.isOutside_place _), ho, rfl⟩

/-- Assigning to a property. -/
theorem Represents.inStep_setProperty (hr : w.Represents F) (hv : w.Valid) {o : ObjectId}
    (ho : w.heap.Sound (.object o)) (k : KeyTerm) (name : String) :
    InStep w
      (match (w.hold [w.operand name]).keySource k with
        | (w₁, source) =>
          match w₁.insert (.properties o) source (w.operand name) with
          | (w₂, .error e) => some (w₂, .error (.value e))
          | (w₂, .ok old) => some (w₂.giving old))
      (match F.keyOf k with
        | .error e => some (F, .error (Failure.value e))
        | .ok k => some (F.assign (.object o) [] k (F.operand name),
            .ok (Forest.views (F.overwritten? (.object o) [] k)))) := by
  have hf₁ := hr.follows_hold hv (admits_operand hv name).of_mem_singleton
  obtain ⟨n, source, r, heq, hlabel, hk⟩ := exists_label_of_keySource (w.hold [w.operand name]) k
  have hf₂ := hf₁.trans (hf₁.represents.follows_withBuffers hf₁.valid n)
  have hkey : F.keyOf k = r.map (·.key) := by
    rw [hk, hf₁.represents.keyOf_eq hf₁.valid]
  rw [heq, hkey]
  dsimp only
  rw [insert, hlabel]
  cases r with
  | error e => exact hf₂.inStep_error (.value e)
  | ok l =>
    have hl : l.normalize.key = l.key := Label.key_normalize_of_isNormal (isNormal_of_keyOf hk.symm)
    have hoffers : ((w.hold [w.operand name]).withBuffers n).Offers (w.operand name)
        (F.operand name) :=
      ⟨List.mem_append_right _ List.mem_cons_self, hf₂.represents.shows_operand name⟩
    have hadmits := hf₂.valid.admits_held hoffers.held
    have harrives : ((w.hold [w.operand name]).withBuffers n).Arrives (.object o) []
        (.properties o) _ := arrives_properties ho
    have hblock : F.blocks (.object o) [] l.normalize.key = false := by
      rw [Forest.blocks]
      split
      · exact decide_eq_false fun he ↦ by cases he
      · rfl
    obtain ⟨hf, hold, -⟩ := harrives.follows_storeKey hf₂.represents hf₂.valid
      hadmits.of_mem_singleton hoffers hblock
    rw [hl] at hf hold
    dsimp only
    rw [insertKey]
    exact (hf₂.trans hf).inStep_giving hold fun old hold' ↦ admits_insertKey hf₂.valid hadmits hold'

/-- Taking a property out. -/
theorem Represents.inStep_unsetProperty (hr : w.Represents F) (hv : w.Valid) {o : ObjectId}
    (ho : w.heap.Sound (.object o)) (k : KeyTerm) :
    InStep w
      (match w.keySource k with
        | (w₁, source) =>
          match w₁.unset (.properties o) source with
          | (w₂, done) => some (w₂, Workspace.result (fun _ ↦ [.done]) done))
      (match F.keyOf k with
        | .error e => some (F, .error (Failure.value e))
        | .ok k => some ((F.unset (.object o) [] k).1, .ok [.done])) := by
  obtain ⟨n, source, r, heq, hlabel, hk⟩ := exists_label_of_keySource w k
  have hf₁ := hr.follows_withBuffers hv n
  have hkey : F.keyOf k = r.map (·.key) := by
    rw [hk, hr.keyOf_eq hv]
  rw [heq, hkey]
  dsimp only
  rw [unset, hlabel]
  cases r with
  | error e => exact hf₁.inStep_error (.value e)
  | ok l =>
    have hl : l.key.normalize = l.key := Key.normalize_of_isNormal (isNormal_of_keyOf hk.symm)
    have harrives : (w.withBuffers n).Arrives (.object o) [] (.properties o) _ :=
      arrives_properties ho
    obtain ⟨w', F', b, hunset, hunset', hf⟩ :=
      harrives.follows_unsetKey hf₁.represents hf₁.valid l.key
    rw [hl] at hunset'
    dsimp only
    rw [hunset]
    have hF : (F.unset (.object o) [] l.key).1 = F' := congrArg Prod.fst hunset'
    rw [← hF] at hf
    exact .some (hf₁.trans hf) (.ok (.cons .done .nil))

/-- Emptying a register. -/
theorem Represents.follows_dropRegister (hr : w.Represents F) (hv : w.Valid) (name : String) :
    Follows w (w.dropRegister name).1 { F with registers := F.registers.erase name } := by
  refine hr.follows_of_grows hv ((quietly_dropRegister w name).valid hv)
    { hr.tallies with registers := fun other ↦ ?_ } (fun _ hmem ↦ hmem) (fun _ ↦ rfl)
    fun {r} hp ↦ ?_
  · show ((F.registers.erase name).get? other).isSome = ((w.registers.erase name).get? other).isSome
    rw [Registry.get?_erase, Registry.get?_erase]
    split
    · rfl
    · exact hr.tallies.registers other
  · cases r with
    | register other =>
      by_cases ho : other = name
      · refine .inr ?_
        show (w.dropRegister name).1.heap.Shows (((w.registers.erase name).get? other).getD .undefined)
          (((F.registers.erase name).get? other).getD .undefined)
        rw [Registry.get?_erase, Registry.get?_erase, if_pos ho, if_pos ho]
        exact Heap.shows_of_flat rfl
      · refine .inl ⟨trivial, ?_, ?_⟩
        · show ((w.registers.erase name).get? other).getD .undefined = _
          rw [Registry.get?_erase, if_neg ho]
          rfl
        · show ((F.registers.erase name).get? other).getD .undefined = _
          rw [Registry.get?_erase, if_neg ho]
          rfl
    | _ => exact .inl ⟨hp, rfl, rfl⟩

/-- Replacing the content of a cell. -/
theorem Represents.inStep_setCell (hr : w.Represents F) (hv : w.Valid) {c : CellId}
    (hc : w.heap.Sound (.cell c)) (name : String) :
    InStep w
      (match w.setCell c (w.operand name) with
        | (w₁, old) => some (w₁.giving (some old)))
      (some (F.set (.cell c) (F.operand name), .ok [.tree (F.get (.cell c))])) := by
  have ha := admits_operand hv name
  have hq : w.Quietly (w.setCell c (w.operand name)).1 := quietly_heap (.of_quiet (.setCell hc ha))
  have hp : w.Present (.cell c) := hc
  have hf := hr.follows_putAt hv hp trivial (hr.shows_operand name) (hq.valid hv)
  -- what the cell held before is still there
  exact hf.inStep_giving_some ((hr.shows_cell hc).congr hv.heap fun _ ↦ rfl)
    (hq.admits (hv.heap.admits_cell c))

/-- Looking up a property. -/
theorem Represents.inStep_lookIn (hr : w.Represents F) (hv : w.Valid)
    {r : Except ValueError TableId} {r' : Except ValueError (Pairs Tree)}
    (ha : Alike (fun t ps ↦ w.heap.Shows (.array t) (.array ps)) r r') (k : KeyTerm) :
    InStep w
      (match w.lookIn r k fun h t k ↦ h.get? t k with
        | (w₁, .error e) => some (w₁, .error (.value e))
        | (w₁, .ok v) => some (w₁.giving v))
      (some (F, Forest.result Forest.views (F.lookIn r' k))) := by
  have hlook : ∀ {t ps} {k : Key}, w.heap.Shows (.array t) (.array ps) → k.IsNormal →
      Option.Rel w.heap.Shows (w.heap.get? t k) (Forest.look ps k) := by
    intro t ps k hS hk
    have hrel := Heap.get?_rel hS k
    rwa [Key.normalize_of_isNormal hk] at hrel
  have hadmits := fun v ↦ admits_lookIn (v := v) hv (t := r) (k := k)
  obtain ⟨n, x, heq, halike⟩ := hr.alike_lookIn hv ha k _ _ hlook
  have hf := hr.follows_withBuffers hv n
  rw [heq] at hadmits ⊢
  generalize F.lookIn r' k = y at halike
  cases halike with
  | error e => exact hf.inStep_error (.value e)
  | @ok v oS hrel =>
    refine hf.inStep_giving ?_ fun u hu ↦ ?_
    · cases hrel with
      | none => exact .none
      | some hS => exact .some (hS.congr hv.heap fun _ ↦ rfl)
    · exact fun y hy ↦ sound_withBuffers_iff.2 (hadmits u (congrArg Except.ok hu) y hy)

/-- **Every operation on arrays, cells and objects goes in step.** -/
theorem Represents.inStep_arrayCommand (hr : w.Represents F) (hv : w.Valid) (c : ArrayCommand) :
    InStep w (w.arrayCommand c) (F.arrayCommand c) := by
  cases c with
  | constant c =>
    obtain ⟨w₁, v, F₁, S, hw, hF, hf, hS, ha⟩ := hr.follows_construct hv c
    rw [Workspace.arrayCommand, hw, Forest.arrayCommand, hF]
    exact hf.inStep_giving_some hS ha
  | copy name =>
    exact (hr.follows hv).inStep_giving_some (hr.shows_operand name) (admits_operand hv name)
  | list names =>
    rw [Workspace.arrayCommand, Forest.arrayCommand]
    by_cases hlen : names.length ≤ 2 ^ 63
    · rw [if_pos hlen, if_pos hlen]
      obtain ⟨hf, hS⟩ := hr.follows_newList hv hlen
      refine hf.inStep_giving_some hS (Heap.admits_array_iff.2 ?_)
      exact Heap.sound_newTable (Heap.bindings_ofList _)
    · rw [if_neg hlen, if_neg hlen]
      exact .none
  | cell name =>
    have hf := hr.follows_newCell hv (hr.shows_operand name) (admits_operand hv name)
    rw [Workspace.arrayCommand, Forest.arrayCommand, hr.tallies.cells]
    exact hf.inStep_giving_some (Heap.shows_of_flat rfl)
      (Heap.admits_reference_iff.2 (Heap.sound_newCell _))
  | object className name =>
    have hS := hr.shows_operand name
    have ha := admits_operand hv name
    rw [Workspace.arrayCommand, Forest.arrayCommand]
    generalize w.operand name = v at hS ha
    cases v with
    | array t =>
      obtain ⟨ps, hps, -⟩ := hS.exists_matches
      obtain ⟨n, s, heq, -⟩ := w.newStr_eq className
      have hf := hr.follows_withBuffers hv n
      rw [hps] at hS ⊢
      rw [heq, hr.tallies.objects]
      have hS' : (w.withBuffers n).heap.Shows (.array t) (.array ps) := hS.congr hv.heap fun _ ↦ rfl
      exact (hf.trans (hf.represents.follows_newObject hf.valid hS'
        (Heap.admits_array_iff.1 ha) s)).inStep_giving_some (Heap.shows_of_flat rfl)
          (Heap.admits_object_iff.2 (Heap.sound_newObject s t))
    | _ =>
      rw [hS.eq_of_flat rfl]
      exact (hr.follows hv).inStep_error .malformed
  | edit target e => exact (hr.inStep_editTarget hv target e).result
  | get target k =>
    obtain ⟨n, r, heq, ha⟩ := hr.alike_reading hv target
    have hf := hr.follows_withBuffers hv n
    rw [Workspace.arrayCommand, heq]
    exact hf.inStep (hf.represents.inStep_lookIn hf.valid ha k)
  | contains target k =>
    obtain ⟨n, r, heq, ha⟩ := hr.alike_reading hv target
    have hf := hr.follows_withBuffers hv n
    have hlook : ∀ {t ps} {k : Key}, (w.withBuffers n).heap.Shows (.array t) (.array ps) →
        k.IsNormal → (w.withBuffers n).heap.contains t k = (Forest.look ps k).isSome := by
      intro t ps k hS hk
      have hcontains := Heap.contains_eq hS k
      rwa [Key.normalize_of_isNormal hk] at hcontains
    obtain ⟨m, x, hx, halike⟩ := hf.represents.alike_lookIn hf.valid ha k
      (fun h t k ↦ h.contains t k) (fun b S ↦ b = S.isSome) hlook
    rw [Workspace.arrayCommand, heq, Forest.arrayCommand]
    dsimp only
    rw [hx]
    have hf' := hf.trans (hf.represents.follows_withBuffers hf.valid m)
    generalize F.lookIn (F.reading target) k = y at halike
    cases halike with
    | error e => exact hf'.inStep_error (.value e)
    | ok h =>
      subst h
      exact .some hf' (.ok (.cons (.flag _) .nil))
  | getProperty name k =>
    exact hr.inStep_object hv fun o ho ↦
      hr.inStep_lookIn hv (.ok (hr.shows_properties (sound_of_operand_object hv ho))) k
  | setProperty name k operand =>
    exact hr.inStep_object hv fun o ho ↦
      hr.inStep_setProperty hv (sound_of_operand_object hv ho) k operand
  | unsetProperty name k =>
    exact hr.inStep_object hv fun o ho ↦
      hr.inStep_unsetProperty hv (sound_of_operand_object hv ho) k
  | properties name =>
    refine hr.inStep_object hv fun o ho ↦ ?_
    have hsound := sound_of_operand_object hv ho
    have htable := hv.heap.sound_properties hsound
    have hsame : w.objectProperties o = (w, w.heap.properties o) := by
      rw [objectProperties, Heap.copyArray, if_pos htable.bindings_eq_zero]
    rw [hsame]
    exact (hr.follows hv).inStep_giving_some (hr.shows_properties hsound)
      (Heap.admits_array_iff.2 htable)
  | getCell name =>
    exact hr.inStep_reference hv fun c hc ↦
      (hr.follows hv).inStep_giving_some
        (hr.shows_cell (sound_of_operand_reference hv hc)) (hv.heap.admits_cell c)
  | setCell name operand =>
    exact hr.inStep_reference hv fun c hc ↦
      hr.inStep_setCell hv (sound_of_operand_reference hv hc) operand
  | drop name =>
    rw [Workspace.arrayCommand, Forest.arrayCommand, hr.tallies.registers]
    exact .some (hr.follows_dropRegister hv name) (.ok (.cons (.flag _) .nil))

end Workspace

end SharedValue
