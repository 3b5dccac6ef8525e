import SharedValue.Proofs.Workspace.Commands

/-!
# The number of holders

A workspace counts the mentions of a table, and a place holds a table where one of the mentions
stands. That two places make two mentions is one half of what ties the two together
(`Holds.eq_of_holders_le_one`). This module is about the other half: a mention stands at a place, or
is among the values that a running command holds, and no place mentions a table twice. So a place
that alone holds a table is its one holder (`Sole.holders_eq_one`).

No register comes up twice (`Reachable.registers_nodup`), which the count needs: of two registers
with one name only the first could be read.
-/

namespace SharedValue

/-! ### One mention -/

section Count

variable {α : Type} {l : List α} {f : α → List Handle} {x : Handle}

/-- A thing that no two members mention, and none of them twice, is mentioned once at most. -/
theorem count_flatMap_le_one (hone : ∀ a ∈ l, (f a).count x ≤ 1)
    (hpair : l.Pairwise fun a b ↦ x ∈ f a → x ∉ f b) : (l.flatMap f).count x ≤ 1 := by
  induction l with
  | nil => exact Nat.zero_le 1
  | cons a rest ih =>
    obtain ⟨hhead, htail⟩ := List.pairwise_cons.1 hpair
    have ha := hone a List.mem_cons_self
    have hrest := ih (fun b hb ↦ hone b (List.mem_cons_of_mem _ hb)) htail
    rw [List.flatMap_cons, List.count_append]
    by_cases hx : x ∈ f a
    · have hnone : (rest.flatMap f).count x = 0 := by
        refine List.count_eq_zero.2 fun hmem ↦ ?_
        obtain ⟨b, hb, hxb⟩ := List.mem_flatMap.1 hmem
        exact hhead b hb hx hxb
      omega
    · have hnone := List.count_eq_zero.2 hx
      omega

/-- A thing that one member at most of a store mentions. -/
theorem Store.count_le_one {s : Store α} (hone : ∀ {i a}, s.get? i = some a → (f a).count x ≤ 1)
    (hinj : ∀ {i j a b}, s.get? i = some a → s.get? j = some b → x ∈ f a → x ∈ f b → i = j) :
    (s.toList.flatMap f).count x ≤ 1 := by
  have hget : ∀ {i o}, s.items.toList[i]? = some o → s.get? i = o := by
    intro i o hi
    rw [Store.get?, ← Array.getElem?_toList, hi]
    rfl
  rw [toList_flatMap]
  refine count_flatMap_le_one (fun o ho ↦ ?_) (List.pairwise_iff_getElem.2 fun i j hi hj hij ↦ ?_)
  · obtain ⟨i, hi⟩ := List.getElem?_of_mem ho
    cases o with
    | none => exact Nat.zero_le 1
    | some a => simpa using hone (hget hi)
  · intro hx hy
    obtain ⟨a, ha, hxa⟩ := List.mem_flatMap.1 hx
    obtain ⟨b, hb, hxb⟩ := List.mem_flatMap.1 hy
    have hi := hget (List.getElem?_eq_getElem hi)
    have hj := hget (List.getElem?_eq_getElem hj)
    rw [Option.mem_toList.1 ha] at hi
    rw [Option.mem_toList.1 hb] at hj
    exact Nat.ne_of_lt hij (hinj hi hj hxa hxb)

/-- An optional handle is counted once at most. -/
theorem count_toList_le_one (o : Option Handle) (x : Handle) : o.toList.count x ≤ 1 := by
  cases o with
  | none => exact Nat.zero_le 1
  | some y =>
    rw [Option.toList_some, List.count_singleton]
    split <;> omega

end Count

/-- The values that mention a table are the arrays with it. -/
theorem Value.handle?_eq_table_iff {v : Value} {t : TableId} :
    v.handle? = some (.table t) ↔ v = .array t := by
  cases v <;> simp [Value.handle?]

/-- So are the slots: a binding mentions a cell. -/
theorem Slot.handle?_eq_table_iff {s : Slot} {t : TableId} :
    s.handle? = some (.table t) ↔ s = .value (.array t) := by
  cases s with
  | value v => rw [Slot.handle?, Value.handle?_eq_table_iff, Slot.value.injEq]
  | binding c => simp [Slot.handle?]

theorem mem_handlesOf_iff {vs : List Value} {t : TableId} :
    .table t ∈ handlesOf vs ↔ .array t ∈ vs := by
  simp only [handlesOf, List.mem_filterMap, Value.handle?_eq_table_iff]
  constructor
  · rintro ⟨v, hv, rfl⟩
    exact hv
  · exact fun hv ↦ ⟨_, hv, rfl⟩

/-- An entry mentions a table where its slot does. -/
theorem Entry.table_mem_handles_iff {e : Entry} {t : TableId} :
    .table t ∈ e.handles ↔ e.slot = .value (.array t) := by
  rw [Entry.mem_handles_iff, Slot.handle?_eq_table_iff]
  refine ⟨fun h ↦ h.elim ?_ id, .inr⟩
  rintro ⟨s, -, he⟩
  cases he

/-- An entry mentions a table at most once, since its label mentions none. -/
theorem Entry.count_handles_le_one (e : Entry) (t : TableId) : e.handles.count (.table t) ≤ 1 := by
  have hlabel : (e.label.str?.map Handle.text).toList.count (.table t) = 0 := by
    refine List.count_eq_zero.2 fun hmem ↦ ?_
    obtain ⟨s, -, he⟩ := Option.map_eq_some_iff.1 (Option.mem_toList.1 hmem)
    cases he
  have hslot := count_toList_le_one e.slot.handle? (.table t)
  rw [Entry.handles, List.count_append]
  omega

namespace Workspace

variable {w w' : Workspace} {t : TableId} {p : Place} {may : String → Key → Prop}

/-! ### A mention stands at a place -/

/-- A table that the registers have a share in is in one of them. -/
theorem exists_holds_register (h : 1 ≤ w.share (.table t) (.register "")) :
    ∃ name, w.Holds t (.register name) := by
  obtain ⟨q, hq, he⟩ := List.mem_map.1 (mem_handlesOf_iff.1 (List.one_le_count_iff.1 h))
  refine ⟨q.1, ?_⟩
  rwa [Holds, ← he]

/-- A table that the tables of variables have a share in is behind one of them. -/
theorem exists_holds_symbols (h : 1 ≤ w.share (.table t) (.symbols "")) :
    ∃ name, w.Holds t (.symbols name) := by
  obtain ⟨q, hq, he⟩ := List.mem_map.1 (List.one_le_count_iff.1 h)
  exact ⟨q.1, q.2, hq, Handle.table.inj he⟩

/-- A table that the elements have a share in is in one of them. -/
theorem exists_holds_element (hv : w.Valid) {e : Element}
    (h : 1 ≤ w.share (.table t) (.element e)) : ∃ e, w.Holds t (.element e) := by
  obtain ⟨T, hT, hmem⟩ := List.mem_flatMap.1 (List.one_le_count_iff.1 h)
  obtain ⟨i, hi⟩ := Store.mem_toList_iff.1 hT
  obtain ⟨entry, hentry, hx⟩ := Table.mem_handles_iff.1 hmem
  refine ⟨⟨⟨i⟩, entry.key⟩, ?_⟩
  rw [Holds, Heap.table_of_get? (t := ⟨i⟩) hi, Table.find?_of_mem (hv.heap.wellFormed hi).keys_nodup
    hentry, Entry.table_mem_handles_iff.1 hx]

/-- A table that the cells have a share in is in one of them. -/
theorem exists_holds_content {c : CellId} (h : 1 ≤ w.share (.table t) (.content c)) :
    ∃ c, w.Holds t (.content c) := by
  obtain ⟨i, hi⟩ := Store.mem_toList_iff.1 (mem_handlesOf_iff.1 (List.one_le_count_iff.1 h))
  exact ⟨⟨i⟩, hi⟩

/-- A table that the objects have a share in has the properties of one of them. -/
theorem exists_holds_properties {o : ObjectId} (h : 1 ≤ w.share (.table t) (.properties o)) :
    ∃ o, w.Holds t (.properties o) := by
  obtain ⟨r, hr, hmem⟩ := List.mem_flatMap.1 (List.one_le_count_iff.1 h)
  obtain ⟨i, hi⟩ := Store.mem_toList_iff.1 hr
  exact ⟨⟨i⟩, r, hi, by simpa [eq_comm] using hmem⟩

/-! ### A place mentions a table once -/

/-- What the members of a registry mention, if their names are all different. -/
private theorem count_registry_le_one {α : Type} {r : Registry α} {f : α → List Handle} {x : Handle}
    (hnd : (r.map (·.1)).Nodup) (hone : ∀ a, (f a).count x ≤ 1)
    (hinj : ∀ {q q'}, q ∈ r → q' ∈ r → x ∈ f q.2 → x ∈ f q'.2 → q.1 = q'.1) :
    (r.flatMap fun q ↦ f q.2).count x ≤ 1 := by
  have hnames : r.Pairwise fun q q' ↦ q.1 ≠ q'.1 := List.pairwise_map.1 hnd
  refine count_flatMap_le_one (fun q _ ↦ hone q.2) (hnames.imp_of_mem ?_)
  exact fun hq hq' hne hx hx' ↦ hne (hinj hq hq' hx hx')

/-- The registers have one share at most in a table with a sole place. -/
private theorem share_register_le_one (hs : w.Sole t p) (hnd : (w.registers.map (·.1)).Nodup) :
    w.share (.table t) (.register "") ≤ 1 := by
  have hone := count_registry_le_one (f := fun v : Value ↦ v.handle?.toList) hnd
    (fun v ↦ count_toList_le_one v.handle? (.table t)) fun {q q'} hq hq' hx hx' ↦ by
      rw [Option.mem_toList, Value.handle?_eq_table_iff] at hx hx'
      have hheld : w.Holds t (.register q.1) := by rwa [Holds, ← hx]
      have hheld' : w.Holds t (.register q'.1) := by rwa [Holds, ← hx']
      exact Place.register.inj (hs.eq_of_holds hheld |>.trans (hs.eq_of_holds hheld').symm)
  rwa [share, handlesOf_eq_flatMap, List.flatMap_map]

private theorem share_symbols_le_one (hs : w.Sole t p) (hv : w.Valid) :
    w.share (.table t) (.symbols "") ≤ 1 := by
  have hone := count_registry_le_one (f := fun s : SymbolTable ↦ [.table s.table])
    (x := .table t) hv.names_nodup (fun s ↦ count_toList_le_one (some (.table s.table)) _)
    fun {q q'} hq hq' hx hx' ↦ by
      have hheld : w.Holds t (.symbols q.1) := ⟨q.2, hq, by simpa [eq_comm] using hx⟩
      have hheld' : w.Holds t (.symbols q'.1) := ⟨q'.2, hq', by simpa [eq_comm] using hx'⟩
      exact Place.symbols.inj (hs.eq_of_holds hheld |>.trans (hs.eq_of_holds hheld').symm)
  rwa [share, List.map_eq_flatMap]

private theorem share_element_le_one (hs : w.Sole t p) (hv : w.Valid) {e : Element} :
    w.share (.table t) (.element e) ≤ 1 := by
  have hheld : ∀ {i T} {a : Entry}, w.heap.tables.get? i = some T → a ∈ T.entries →
      .table t ∈ a.handles → .element ⟨⟨i⟩, a.key⟩ = p := by
    intro i T a hi ha hx
    refine hs.eq_of_holds ?_
    rw [Holds, Heap.table_of_get? (t := ⟨i⟩) hi, Table.find?_of_mem
      (hv.heap.wellFormed hi).keys_nodup ha, Entry.table_mem_handles_iff.1 hx]
  refine Store.count_le_one (fun {i T} hi ↦ ?_) fun {i j T T'} hi hj hx hx' ↦ ?_
  · have hkeys := List.pairwise_map.1 (hv.heap.wellFormed hi).keys_nodup
    refine count_flatMap_le_one (fun a _ ↦ a.count_handles_le_one t) (hkeys.imp_of_mem ?_)
    intro a b ha hb hne hx hx'
    have he := (hheld hi ha hx).trans (hheld hi hb hx').symm
    exact hne (Element.mk.inj (Place.element.inj he)).2
  · obtain ⟨a, ha, hx⟩ := Table.mem_handles_iff.1 hx
    obtain ⟨b, hb, hx'⟩ := Table.mem_handles_iff.1 hx'
    have he := (hheld hi ha hx).trans (hheld hj hb hx').symm
    exact TableId.mk.inj (Element.mk.inj (Place.element.inj he)).1

private theorem share_content_le_one (hs : w.Sole t p) {c : CellId} :
    w.share (.table t) (.content c) ≤ 1 := by
  rw [share, handlesOf_eq_flatMap]
  refine Store.count_le_one (fun {i v} _ ↦ count_toList_le_one _ _) fun {i j v v'} hi hj hx hx' ↦ ?_
  rw [Option.mem_toList, Value.handle?_eq_table_iff] at hx hx'
  have hheld : w.Holds t (.content ⟨i⟩) := by rw [Holds, hi, hx]
  have hheld' : w.Holds t (.content ⟨j⟩) := by rw [Holds, hj, hx']
  have he := (hs.eq_of_holds hheld).trans (hs.eq_of_holds hheld').symm
  exact CellId.mk.inj (Place.content.inj he)

private theorem share_properties_le_one (hs : w.Sole t p) {o : ObjectId} :
    w.share (.table t) (.properties o) ≤ 1 := by
  refine Store.count_le_one (fun {i r} _ ↦ ?_) fun {i j r r'} hi hj hx hx' ↦ ?_
  · rw [List.count_cons, List.count_singleton]
    split <;> split <;> simp_all
  · have hheld : w.Holds t (.properties ⟨i⟩) := ⟨r, hi, by simpa [eq_comm] using hx⟩
    have hheld' : w.Holds t (.properties ⟨j⟩) := ⟨r', hj, by simpa [eq_comm] using hx'⟩
    have he := (hs.eq_of_holds hheld).trans (hs.eq_of_holds hheld').symm
    exact ObjectId.mk.inj (Place.properties.inj he)

/-- Where a table is held, it has a holder. -/
theorem Holds.one_le_holders (hp : w.Holds t p) : 1 ≤ w.holders (.table t) := by
  have hone := hp.one_le_share
  rw [holders_eq]
  cases p <;> simp only [share] at * <;> omega

/-- **A place that alone holds a table is its one holder.** -/
theorem Sole.holders_eq_one (hs : w.Sole t p) (hv : w.Valid)
    (hnd : (w.registers.map (·.1)).Nodup) : w.holders (.table t) = 1 := by
  have hheld : (handlesOf w.held).count (.table t) = 0 :=
    List.count_eq_zero.2 fun hmem ↦ hs.notMem_held (mem_handlesOf_iff.1 hmem)
  have hresources : (w.heap.resources.toList.map fun r ↦ Handle.text r.kind).count (.table t) = 0 :=
    List.count_eq_zero.2 fun hmem ↦ by
      obtain ⟨r, -, he⟩ := List.mem_map.1 hmem
      cases he
  have hone := hs.holds.one_le_share
  have hregister := share_register_le_one hs hnd
  have hsymbols := share_symbols_le_one hs hv
  have helement := share_element_le_one hs hv (e := ⟨⟨0⟩, .int 0⟩)
  have hcontent := share_content_le_one hs (c := ⟨0⟩)
  have hproperties := share_properties_le_one hs (o := ⟨0⟩)
  -- where a place of another sort mentioned the table too, that would be another place
  have hregister' := fun h ↦ (exists_holds_register h).imp fun _ ↦ hs.eq_of_holds
  have hsymbols' := fun h ↦ (exists_holds_symbols h).imp fun _ ↦ hs.eq_of_holds
  have helement' := fun h ↦ (exists_holds_element hv (e := ⟨⟨0⟩, .int 0⟩) h).imp fun _ ↦
    hs.eq_of_holds
  have hcontent' := fun h ↦ (exists_holds_content (c := ⟨0⟩) h).imp fun _ ↦ hs.eq_of_holds
  have hproperties' := fun h ↦ (exists_holds_properties (o := ⟨0⟩) h).imp fun _ ↦ hs.eq_of_holds
  rw [holders_eq]
  cases p <;> simp only [share, reduceCtorEq, exists_false, imp_false] at * <;> omega

/-! ### Registers have different names -/

theorem Quiet.registers_nodup (hq : w.Quiet w') (hnd : (w.registers.map (·.1)).Nodup) :
    (w'.registers.map (·.1)).Nodup := by
  cases hq with
  | setRegister name _ => exact Registry.map_fst_set_nodup hnd name _
  | dropRegister name => exact hnd.sublist (List.filter_sublist.map _)
  | _ => exact hnd

theorem Quietly.registers_nodup (hq : w.Quietly w') (hnd : (w.registers.map (·.1)).Nodup) :
    (w'.registers.map (·.1)).Nodup := by
  induction hq with
  | refl => exact hnd
  | tail _ hq ih => exact hq.registers_nodup ih

theorem Loud.registers_eq (hl : w.Loud may w') : w'.registers = w.registers := by
  cases hl <;> rfl

theorem Effect.registers_nodup (he : w.Effect may w') (hnd : (w.registers.map (·.1)).Nodup) :
    (w'.registers.map (·.1)).Nodup := by
  cases he with
  | quiet hq => exact hq.registers_nodup hnd
  | loud hq hl hq' _ _ =>
    refine hq'.registers_nodup ?_
    rw [hl.registers_eq]
    exact hq.registers_nodup hnd

/-- No statement makes a second register under the same name. -/
theorem registers_nodup_step (hv : w.Valid) (hnd : (w.registers.map (·.1)).Nodup) {s : Statement}
    {report : Report} (hs : w.step s = some (w', report)) : (w'.registers.map (·.1)).Nodup := by
  obtain ⟨w₁, he, rfl⟩ : ∃ w₁, w.Effect (fun _ _ ↦ True) w₁ ∧ w' = w₁.settle :=
    effect_step hv (fun _ ↦ trivial) hs
  exact he.registers_nodup hnd

/-- Hence no program does. -/
theorem registers_nodup_run (hv : w.Valid) (hnd : (w.registers.map (·.1)).Nodup)
    {program : List Statement} {reports : List Report}
    (hr : w.run program = some (w', reports)) : (w'.registers.map (·.1)).Nodup :=
  (run_induction (P := fun w ↦ w.Valid ∧ (w.registers.map (·.1)).Nodup)
    (fun h hs ↦ ⟨valid_step h.1 hs, registers_nodup_step h.1 h.2 hs⟩) ⟨hv, hnd⟩ hr).2

/-- **No register of a workspace that a program leads to comes up twice.** -/
theorem Reachable.registers_nodup (hw : w.Reachable) : (w.registers.map (·.1)).Nodup := by
  obtain ⟨program, reports, hr⟩ := hw
  exact registers_nodup_run valid_empty List.nodup_nil hr

end Workspace

end SharedValue
