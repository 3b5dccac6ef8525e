import SharedValue.Proofs.Copies
import SharedValue.Proofs.OrderedMap
import SharedValue.Proofs.Standing.Commands

/-!
# Copies are isolated from bindings

A table of variables shares its cells with frames, and a copy of it is to share nothing with either.
As long as no variable shows a reference, there is no way from the copy to a cell: its slots hold
the values that were shown, and no slot of it is bound. Storing values that are no references keeps
it so (`Mirror.Plain.apply`). Then a change of the copy writes to no cell, and leaves every table of
variables standing; and a statement that does not write to the copy under its own name leaves the
copy standing, whatever it binds, writes or unsets (`Reachable.copies_isolated`).

Whether the copy shares its table for a while plays no part in this, since a writer separates first.
-/

namespace SharedValue

/-! ### Changes without references -/

namespace Mirror

variable {m : Mirror} {v : Value}

/-- Whether no slot holds a reference. -/
def Plain (m : Mirror) : Prop := ∀ p ∈ m.slots, ∀ c, p.2 ≠ .value (.reference c)

/-- No key refers to a cell. -/
theorem Plain.find?_ne (hm : m.Plain) (k : Key) (c : CellId) :
    m.slots.find? k ≠ some (.value (.reference c)) := by
  intro hf
  rw [Pairs.find?, Option.map_eq_some_iff] at hf
  obtain ⟨p, hp, hs⟩ := hf
  exact hm p (List.mem_of_find?_eq_some hp) c hs

theorem Plain.add (hm : m.Plain) (hv : ∀ c, v ≠ .reference c) (k : Key) :
    Plain { m with slots := m.slots.add k (.value v) } := by
  intro p hp c
  rcases List.mem_append.1 hp with hp | hp
  · exact hm p hp c
  · rw [List.mem_singleton.1 hp]
    exact fun he ↦ hv c (Slot.value.inj he)

theorem Plain.put (hm : m.Plain) (hv : ∀ c, v ≠ .reference c) (k : Key) :
    Plain { m with slots := m.slots.put k (.value v) } := by
  intro p hp c
  obtain ⟨p', hp', rfl⟩ := List.mem_map.1 hp
  split
  · exact fun he ↦ hv c (Slot.value.inj he)
  · exact hm p' hp' c

/-- Assigning what is no reference leaves it so. -/
theorem Plain.assign (hm : m.Plain) (hv : ∀ c, v ≠ .reference c) (k : Key) :
    (m.assign k v).Plain ∧ (m.assign k v).content = m.content := by
  rw [assign_of_ne_reference (hm.find?_ne k)]
  refine ⟨?_, rfl⟩
  rw [Pairs.assign]
  cases m.slots.find? k with
  | none => exact hm.add hv k
  | some s => exact hm.put hv k

/-- **A change with values that are no references** leaves no reference in the slots, and the
contents of the cells as they were. -/
theorem Plain.apply (hm : m.Plain) {e : Edit Key Value}
    (he : ∀ v ∈ e.operands, ∀ c, v ≠ .reference c) :
    (m.apply e).Plain ∧ (m.apply e).content = m.content := by
  rw [Mirror.apply.eq_def]
  split
  next k v => exact hm.assign (he v List.mem_cons_self) k
  next k v => exact hm.assign (he v List.mem_cons_self) k
  next v =>
    rw [push]
    split
    · exact ⟨hm, rfl⟩
    next n _ => exact ⟨hm.add (he v List.mem_cons_self) (.int n), rfl⟩
  · exact ⟨fun p hp ↦ hm p (List.mem_filter.1 hp).1, rfl⟩
  · exact ⟨fun _ hp ↦ (List.not_mem_nil hp).elim, rfl⟩
  · exact ⟨hm, rfl⟩

/-- So does a change, if there is one. -/
theorem Plain.applyAll_toList (hm : m.Plain) {e : Option (Edit Key Value)}
    (he : ∀ e' ∈ e, ∀ v ∈ e'.operands, ∀ c, v ≠ .reference c) :
    (m.applyAll e.toList).Plain ∧ (m.applyAll e.toList).content = m.content := by
  cases e with
  | none => exact ⟨hm, rfl⟩
  | some e => exact hm.apply (he e rfl)

end Mirror

namespace Workspace

variable {w w' w₁ w₂ : Workspace} {a name : String} {s : Statement} {report : Report}
  {t x : TableId} {T : SymbolTable}

/-! ### Copies in a register -/

/-- Whether a statement changes the array in a register as an ordered map is changed, with values
that are no references: it assigns to a key, at once or through the element, appends, takes out or
clears. Its result goes elsewhere. -/
def ChangesCopy (w : Workspace) (a : String) (s : Statement) : Prop :=
  ∃ e, s.command = .array (.edit ⟨a, []⟩ e) ∧ e.IsOfMap ∧ s.into ≠ some a ∧
    ∀ e' ∈ w.changeIn e, ∀ v ∈ e'.operands, ∀ c, v ≠ .reference c

/-- What becomes of a workspace when the copy in a register is changed, in turns with statements
that leave the register alone. -/
inductive Interleaves (a : String) (w : Workspace) : Workspace → Prop
  | refl : Interleaves a w w
  | step {w₁ w₂ : Workspace} {s : Statement} {report : Report} (h : Interleaves a w w₁)
      (hs : w₁.ChangesCopy a s ∨ s.LeavesAlone a) (hr : w₁.step s = some (w₂, report)) :
      Interleaves a w w₂

/-- Whether the copy in a register is isolated from bindings. -/
structure Isolated (w : Workspace) (a : String) : Prop where
  /-- A change of the copy is carried out, and leaves the slots of every table of variables and the
  content of every cell that is bound there. -/
  of_changesCopy : ∀ {s}, w.ChangesCopy a s → ∃ w' report, w.step s = some (w', report) ∧
    ∀ {name T}, w.symbolTables.get? name = some T →
      w'.tableAt (.symbols name) = T.table ∧ w'.heap.table T.table = w.heap.table T.table ∧
        ∀ {k c}, (w.heap.table T.table).find? k = some (.binding c) →
          w'.heap.cell c = w.heap.cell c
  /-- Any other statement leaves the pairs of the copy, and every table inside it. -/
  of_leavesAlone : ∀ {s w' report}, s.LeavesAlone a → w.step s = some (w', report) →
    ∃ t, w.operand a = .array t ∧ w'.operand a = .array t ∧ w'.heap.pairs t = w.heap.pairs t ∧
      ∀ {x}, w.heap.Below t x → w'.heap.table x = w.heap.table x

/-- Whether a register holds an array without references. -/
def HoldsPlain (w : Workspace) (a : String) : Prop :=
  ∃ t, w.operand a = .array t ∧ (w.mirror t).Plain

/-- The pairs of an array in a register are a matter of its table alone. -/
theorem pairs_eq_of_table_eq (hv : w.Valid) (hval : w.operand a = .array t)
    (htable : w'.heap.table t = w.heap.table t) : w'.heap.pairs t = w.heap.pairs t := by
  have hb : (w.heap.table t).bindings = 0 :=
    (Heap.admits_array_iff.1 (hval ▸ admits_operand hv a)).bindings_eq_zero
  rw [Heap.pairs, Heap.pairs, htable]
  exact (hv.heap.table_wellFormed t).pairs_congr hb _ _

/-! ### One statement -/

/-- A statement that leaves the register alone. -/
theorem HoldsPlain.of_leavesAlone (hp : w.HoldsPlain a) (hv : w.Valid) (hs : s.LeavesAlone a)
    (hr : w.step s = some (w', report)) : w'.HoldsPlain a := by
  obtain ⟨t, hval, hplain⟩ := hp
  have hstand := (hv.standing (q := .register a) hval).step hv hs hr
  refine ⟨t, hstand.value.trans hval, ?_⟩
  rw [Mirror.Plain, mirror, hstand.table .refl]
  exact hplain

/-- A change of the copy: it is carried out, there is no reference in the copy afterwards, and the
cells that are left have the contents that they had. -/
theorem HoldsPlain.of_changesCopy (hp : w.HoldsPlain a) (hv : w.Valid) (hs : w.ChangesCopy a s) :
    ∃ w' report, w.step s = some (w', report) ∧ w'.HoldsPlain a ∧
      ∀ {c}, w'.heap.Sound (.cell c) → w'.heap.cell c = w.heap.cell c := by
  obtain ⟨t, hval, hplain⟩ := hp
  obtain ⟨command, into⟩ := s
  obtain ⟨e, rfl, he, hinto, hops⟩ := hs
  have hplace : w.placeOf a = .register a := by rw [placeOf_eq, rootOf_of_valueAt hval, Root.place]
  have hholds : w.Holds t (.register a) := mem_registers hval fun he ↦ by cases he
  -- nothing is borrowed, for the register holds no reference
  have hnone : w.borrowedBy a = [] := by rw [borrowedBy, hval]
  have hstarts : w.Starts (.register a []) (w.placeOf a) [] (w.borrowedBy a) := .register
  rw [hplace, hnone] at hstarts
  have hstep := Tracks.step ⟨hstarts, t, .here hval hholds, w.mirrors_mirror _ t⟩ hv
    (s := (e, into)) he fun n hn ↦ Option.some.inj hn ▸ hinto
  obtain ⟨hplain', hcontent⟩ := hplain.applyAll_toList hops
  rw [Mirror.run_of_nothing_borrowed, ArrayName.editing] at hstep
  dsimp only [ArrayName.command] at hstep
  rw [List.map_nil] at hstep
  cases hr : w.step ⟨.array (.edit ⟨a, []⟩ e), into⟩ with
  | none =>
    rw [hr] at hstep
    cases hstep
  | some r =>
    obtain ⟨w', report⟩ := r
    rw [hr] at hstep
    cases hstep with
    | some htracks =>
      obtain ⟨t', hl, hm⟩ := htracks.leads
      have hval' : w'.operand a = .array t' := by
        cases hl with
        | here hv _ => exact hv
      refine ⟨w', report, rfl, ⟨t', hval', ?_⟩, fun {c} hsound ↦ ?_⟩
      · rw [Mirror.Plain, mirror, hm.slots]
        exact hplain'
      · rw [hm.content (fun hc ↦ by cases hc) hsound, hcontent]
        rfl

/-- **An array without references is isolated.** -/
theorem HoldsPlain.isolated (hp : w.HoldsPlain a) (hv : w.Valid) : w.Isolated a where
  of_changesCopy := fun {s} hs ↦ by
    obtain ⟨w', report, hr, -, hcell⟩ := hp.of_changesCopy hv hs
    refine ⟨w', report, hr, fun {name T} hT ↦ ?_⟩
    obtain ⟨e, hcommand, -⟩ := hs
    have hst : w.Standing (.symbols name) T.table := hv.standing (valueAt_symbols hT)
    have hstand : w.Stands (.symbols name) T.table w' := by
      refine hst.step_of_carryOut (fun {w₁ r} hc ↦ ?_) (fun _ he ↦ by cases he) hr
      rw [hcommand] at hc
      obtain ⟨⟨w₂, r₂⟩, hx, he⟩ := Option.map_eq_some_iff.1 hc
      rw [← (Prod.mk.inj he).1]
      exact hst.editTarget (fun h ↦ by cases h) hx
    have htable := hstand.table .refl
    refine ⟨tableAt_of_valueAt (hstand.value.trans (valueAt_symbols hT)), htable, fun {k c} hf ↦ ?_⟩
    -- the cell is still bound, so it is there
    rw [← htable] at hf
    exact hcell ((valid_step hv hr).heap.sound_binding hf)
  of_leavesAlone := fun {s w' report} hs hr ↦ by
    obtain ⟨t, hval, -⟩ := hp
    have hstand := (hv.standing (q := .register a) hval).step hv hs hr
    exact ⟨t, hval, hstand.value.trans hval, pairs_eq_of_table_eq hv hval (hstand.table .refl),
      hstand.table⟩

/-! ### Runs -/

/-- **A copy without references stays one**, by induction on the turns. -/
theorem Interleaves.holdsPlain (h : w.Interleaves a w') (hv : w.Valid) (hp : w.HoldsPlain a) :
    w'.Valid ∧ w'.HoldsPlain a := by
  induction h with
  | refl => exact ⟨hv, hp⟩
  | @step w₁ w₂ s report _ hs hr ih =>
    obtain ⟨hv₁, hp₁⟩ := ih
    refine ⟨valid_step hv₁ hr, ?_⟩
    rcases hs with hs | hs
    · obtain ⟨w', report', hr', hp', -⟩ := hp₁.of_changesCopy hv₁ hs
      obtain ⟨rfl, -⟩ := Prod.mk.inj (Option.some.inj (hr.symm.trans hr'))
      exact hp'
    · exact hp₁.of_leavesAlone hv₁ hs hr

/-! ### Copies of a table of variables -/

/-- Either way to copy a table of variables gives an array of what it shows. -/
theorem exists_copy (hv : w.Valid) (hT : w.symbolTables.get? name = some T) {c : SymbolCommand}
    (hc : c = .copy ∨ c = .snapshot) : ∃ h t,
      w.carryOut (.symbols name c) = some (giving { w with heap := h } (some (.array t))) ∧
        w.Quietly { w with heap := h } ∧ h.Sound (.table t) ∧ h.pairs t = w.heap.pairs T.table := by
  have hhas : w.symbolTables.has name = true := by
    rw [← Bool.not_eq_false, ← Registry.get?_eq_none_iff, hT]
    exact fun h ↦ by cases h
  have htable := tableAt_symbols hT
  rcases hc with rfl | rfl
  · refine ⟨_, (w.copySymbols name).2, ?_, quietly_copySymbols hv name, sound_copySymbols hv hT, ?_⟩
    · rw [carryOut, if_pos (by rw [hhas, Bool.or_true])]
      rfl
    · rw [← htable]
      exact Heap.pairs_copyArray hv.heap _
  · refine ⟨_, (w.snapshotSymbols name).2, ?_, quietly_snapshotSymbols hv name,
      sound_snapshotSymbols hv name, ?_⟩
    · rw [carryOut, if_pos (by rw [hhas, Bool.or_true])]
      rfl
    · rw [← htable]
      exact hv.heap.pairs_snapshot _

/-- An array that shows no reference holds none. -/
theorem plain_of_pairs (href : ∀ p ∈ w.heap.pairs t, ∀ c, p.2 ≠ .reference c) :
    (w.mirror t).Plain := by
  intro p hp c hs
  obtain ⟨e, he, rfl⟩ := List.mem_map.1 hp
  have hs : e.slot = .value (.reference c) := hs
  have hload : e.slot.load w.heap.cell = some (.reference c) := by
    rw [hs]
    rfl
  refine href (e.key, .reference c) ?_ c rfl
  rw [Heap.pairs, Table.pairs_eq_shownBy, Table.shownBy]
  exact List.mem_filterMap.2 ⟨e, he, by rw [hload]; rfl⟩

/-- **Copies are isolated from bindings.** Take a table of variables of a workspace that a program
leads to, with no visible value that is a reference, and copy it into a register, either way. Then
the copy is there, with the pairs that the table shows, and however changes of the copy with values
that are no references are interleaved with other statements, those that bind, set and unset
variables and write to cells among them, no change of the copy changes a slot of a table of
variables or the content of a cell that is bound there, and no other statement changes a pair of the
copy. -/
theorem Reachable.copies_isolated (hw : w.Reachable) (hT : w.symbolTables.get? name = some T)
    (href : ∀ p ∈ w.heap.pairs T.table, ∀ c, p.2 ≠ .reference c) {c : SymbolCommand}
    (hc : c = .copy ∨ c = .snapshot) (a : String) :
    ∃ w₁ report t, w.step ⟨.symbols name c, some a⟩ = some (w₁, report) ∧
      w₁.operand a = .array t ∧ w₁.heap.pairs t = w.heap.pairs T.table ∧
      ∀ {w₂}, w₁.Interleaves a w₂ → w₂.Isolated a := by
  have hv := hw.valid
  obtain ⟨h, t, hcarry, hq, hsound, hpairs⟩ := exists_copy hv hT hc
  -- the copy is delivered to the register, and then the statement ends
  have hstep : w.step ⟨.symbols name c, some a⟩ =
      some ((({ w with heap := h } : Workspace).hold [.array t]).setRegister a (.array t) |>.settle,
        ⟨h, .ok [.value (.array t)]⟩) := by
    rw [step, hcarry]
    rfl
  have hadmits : h.Admits (.array t) := Heap.admits_array_iff.2 hsound
  have hq₁ := hq.trans ((quietly_hold (w := { w with heap := h }) hadmits.of_mem_singleton).trans
    (quietly_setRegister a hadmits))
  have hval : (({ w with heap := h } : Workspace).hold [.array t] |>.setRegister a
      (.array t)).operand a = .array t := by
    show ((w.registers.set a (.array t)).get? a).getD _ = _
    rw [Registry.get?_set, if_pos rfl, Option.getD_some]
  have hstand := ((hq₁.valid hv).standing (q := .register a) hval).settle
  have hpairs₁ := pairs_eq_of_table_eq (hq₁.valid hv) hval (hstand.table .refl)
  have hval₁ := hstand.value.trans hval
  have hv₁ := valid_step hv hstep
  refine ⟨_, _, t, hstep, hval₁, hpairs₁.trans hpairs, fun {w₂} hi ↦ ?_⟩
  rw [← hpairs, ← show Heap.pairs _ t = h.pairs t from hpairs₁] at href
  obtain ⟨hv₂, hp₂⟩ := hi.holdsPlain hv₁ ⟨t, hval₁, plain_of_pairs href⟩
  exact hp₂.isolated hv₂

/-- The workspace after the table of variables above was copied into a register. -/
def mixingCopied : Workspace :=
  ((mixingEnd.step ⟨.symbols "s" .copy, some "a"⟩).map (·.1)).getD empty

/-- A value is appended to the copy of the table of variables above, a cell is written to, and a
binding is emptied. The copy has what it had and the new element; the table of variables shows what
its cells hold. -/
theorem Reachable.copies_isolated_mixingEnd : ∃ report w₂, mixingEnd.Reachable ∧
    mixingEnd.step ⟨.symbols "s" .copy, some "a"⟩ = some (mixingCopied, report) ∧
      mixingCopied.Interleaves "a" w₂ ∧ w₂.Isolated "a" ∧
      w₂.heap.pairs ⟨1⟩ =
        [(.text [117], .null), (.int 1, .int 7), (.int 2, .int 7), (.int 3, .int 7)] ∧
      w₂.heap.pairs ⟨0⟩ = [(.text [117], .null), (.int 1, .int 7), (.int 3, .int 7)] := by
  have hT : mixingEnd.symbolTables.get? "s" = some ⟨⟨0⟩, {}⟩ := rfl
  have hpairs : mixingEnd.heap.pairs ⟨0⟩ =
      [(.text [117], .null), (.int 1, .int 7), (.int 2, .int 7)] := rfl
  have href : ∀ p ∈ mixingEnd.heap.pairs ⟨0⟩, ∀ c, p.2 ≠ .reference c := by
    rw [hpairs]
    intro p hp c
    simp only [List.mem_cons, List.not_mem_nil, or_false] at hp
    rcases hp with rfl | rfl | rfl <;> exact fun h ↦ by cases h
  obtain ⟨w₁, report, t, hstep, -, -, hisolated⟩ :=
    reachable_mixingEnd.copies_isolated hT href (.inl rfl) "a"
  obtain rfl : mixingCopied = w₁ := by rw [mixingCopied, hstep, Option.map_some, Option.getD_some]
  have hcopy : ∀ {w : Workspace}, w.operand "x" = .int 7 →
      w.ChangesCopy "a" ⟨.array (.edit ⟨"a", []⟩ (.push "x")), none⟩ := by
    intro w hx
    refine ⟨.push "x", rfl, trivial, (fun h ↦ by cases h), fun e he v hv c ↦ ?_⟩
    obtain rfl : Edit.push (w.operand "x") = e := Option.some.inj he
    rw [List.mem_singleton.1 hv, hx]
    exact fun h ↦ by cases h
  have h₁ := (Interleaves.refl (a := "a") (w := mixingCopied)).step (.inl (hcopy rfl)) rfl
  have h₂ := h₁.step (s := ⟨.array (.setCell "d" "x"), none⟩) (.inr ⟨id, fun h ↦ by cases h⟩) rfl
  have h₃ := h₂.step (s := ⟨.symbols "s" (.unset (.key (.int 2))), none⟩)
    (.inr ⟨id, fun h ↦ by cases h⟩) rfl
  exact ⟨_, _, reachable_mixingEnd, hstep, h₃, hisolated h₃, rfl, rfl⟩

end Workspace

end SharedValue
