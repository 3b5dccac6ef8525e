import SharedValue.Proofs.Workspace.Writing

/-!
# Paths

An array that is nested in others is named by a place and a path of keys. `Workspace.Leads` says
that a path leads from a place to a table. Going down such a path to write separates every array on
the way but changes nothing that can be seen there: writing arrives at the place at its end, which
has the same table, and the table is as it was (`Leads.followWriting`). -/

namespace SharedValue.Workspace

variable {w w' w'' : Workspace} {base p q : Place} {path path' : List Key} {t u x : TableId}
  {k : Key} {v : Value}

/-- Whether a path of keys leads from a place to a table. -/
inductive Leads (w : Workspace) (t : TableId) : Place → List Key → Prop
  | here {p : Place} (hv : w.valueAt p = .array t) (hh : w.Holds t p) : Leads w t p []
  | there {p : Place} {u : TableId} {k : Key} {path : List Key} (hv : w.valueAt p = .array u)
      (hh : w.Holds u p) (hl : Leads w t (.element ⟨u, k⟩) path) : Leads w t p (k :: path)

/-- An element that holds a table has an array. -/
theorem valueAt_element (hh : w.Holds t (.element ⟨u, k⟩)) :
    w.valueAt (.element ⟨u, k⟩) = .array t := by
  have hf : (w.heap.table u).find? k = some (.value (.array t)) := hh
  rw [valueAt, Heap.read, Heap.slot?, hf]

/-- One step further. -/
theorem Leads.snoc (hl : w.Leads u p path) (hh : w.Holds t (.element ⟨u, k⟩)) :
    w.Leads t p (path ++ [k]) := by
  induction hl with
  | here hv hp => exact .there hv hp (.here (valueAt_element hh) hh)
  | there hv hp _ ih => exact .there hv hp ih

/-- The path of an anchored table leads to it. -/
theorem Anchored.leads (ha : w.Anchored base path t) : w.Leads t base path := by
  induction ha with
  | root _ hv hs => exact .here hv hs.holds
  | child _ hs ih => exact ih.snoc hs.holds

/-- The path to a place that is reached leads to the array there. -/
theorem Reached.leads (hr : w.Reached base path p) (hv : w.valueAt p = .array t)
    (hh : w.Holds t p) : w.Leads t base path := by
  cases hr with
  | root => exact .here hv hh
  | element hu k => exact hu.leads.snoc hh

/-- A path starts with an array that its place holds. -/
theorem Leads.exists_holds (hl : w.Leads t p path) : ∃ x, w.valueAt p = .array x ∧ w.Holds x p := by
  cases hl with
  | here hv hh => exact ⟨_, hv, hh⟩
  | there hv hh _ => exact ⟨_, hv, hh⟩

/-- A path from an element leads to what is inside its table. -/
theorem below_of_leads (hl : w.Leads t (.element ⟨u, k⟩) path) : w.heap.Below u t := by
  generalize hp : Place.element ⟨u, k⟩ = p at hl
  induction hl generalizing u k with
  | here hv hh =>
    subst hp
    exact .single ⟨k, hh⟩
  | there hv hh _ ih =>
    subst hp
    exact .head ⟨k, hh⟩ (ih rfl)

/-- What a path leads to is sound. -/
theorem Leads.sound (hl : w.Leads t p path) (hv : w.Valid) (hsym : ∀ name, p ≠ .symbols name) :
    w.heap.Sound (.table t) := by
  induction hl with
  | here _ hh => exact hv.sound_of_holds hh hsym
  | there _ _ _ ih => exact ih fun _ he ↦ by cases he

/-- A path leads to what is inside the array at its start. -/
theorem Leads.exists_below (hl : w.Leads t p path) :
    ∃ x, w.valueAt p = .array x ∧ w.Holds x p ∧ w.heap.Below x t := by
  cases hl with
  | here hv hh => exact ⟨t, hv, hh, .refl⟩
  | there hv hh hl => exact ⟨_, hv, hh, below_of_leads hl⟩

/-- Where a path leads is a matter of the array at its start and of what is inside it. -/
theorem Leads.congr (hl : w.Leads t p path) (hstart : ∀ {x}, w.valueAt p = .array x → w.Holds x p →
      w'.valueAt q = .array x ∧ w'.Holds x q ∧
        ∀ {y}, w.heap.Below x y → w'.heap.table y = w.heap.table y) :
    w'.Leads t q path := by
  induction hl generalizing q with
  | here hv hh =>
    obtain ⟨hv', hh', -⟩ := hstart hv hh
    exact .here hv' hh'
  | @there p u k path hv hh _ ih =>
    obtain ⟨hv', hh', hb⟩ := hstart hv hh
    refine .there hv' hh' (ih fun {x} _ hx ↦ ?_)
    have hx' : w'.Holds x (.element ⟨u, k⟩) := by
      show (w'.heap.table u).find? k = _
      rw [hb .refl]
      exact hx
    exact ⟨valueAt_element hx', hx', fun hy ↦ hb (.head ⟨k, hx⟩ hy)⟩

/-! ### What is apart from a base -/

/-- Two workspaces with the same registers and cells, apart from a base. -/
structure Aside (base : Place) (w w' : Workspace) : Prop where
  register : ∀ {name}, base ≠ .register name → w'.registers.get? name = w.registers.get? name
  cell : ∀ {c}, base ≠ .content c → w'.heap.cells.get? c.index = w.heap.cells.get? c.index
  held : w'.held = w.held

theorem Aside.refl (base : Place) (w : Workspace) : Aside base w w :=
  ⟨fun _ ↦ rfl, fun _ ↦ rfl, rfl⟩

theorem Aside.trans (h : Aside base w w') (h' : Aside base w' w'') : Aside base w w'' where
  register := fun hn ↦ (h'.register hn).trans (h.register hn)
  cell := fun hc ↦ (h'.cell hc).trans (h.cell hc)
  held := h'.held.trans h.held

/-- Separating an array holds nothing more. -/
theorem held_separate (w : Workspace) (p : Place) (operands : List Value) :
    (w.separate p operands).1.held = w.held := by
  cases hs : w.isShared (w.tableAt p) operands with
  | false => rw [separate_of_not_isShared hs]
  | true =>
    rw [separate_of_isShared hs, held_putAt]
    rfl

/-- Separating on the way changes nothing apart from the base. -/
theorem Reached.aside_separate (hr : w.Reached base path p) (hold : w.Holds t p)
    (operands : List Value) : Aside base w (w.separate p operands).1 :=
  ⟨hr.get?_register_separate, hr.get?_cell_separate hold, w.held_separate p operands⟩

/-- Whether writing has led to a place with an array that can be changed there. The array behind a
table of variables cannot, as long as it has bindings. -/
structure Located (w : Workspace) (base : Place) (path : List Key) (p : Place) (t : TableId) :
    Prop where
  reached : w.Reached base path p
  valueAt : w.valueAt p = .array t
  holds : w.Holds t p
  ne_symbols : ∀ name, p ≠ .symbols name

/-- The path of a located array leads to it. -/
theorem Located.leads (hloc : w.Located base path p t) : w.Leads t base path :=
  hloc.reached.leads hloc.valueAt hloc.holds

/-- A located array is sound. -/
theorem Located.sound (hloc : w.Located base path p t) (hv : w.Valid) : w.heap.Sound (.table t) :=
  hv.sound_of_holds hloc.holds hloc.ne_symbols

/-- What a writer has in hand once a place is separated: an anchored table with some content, which
has no bindings, in a workspace that is as it was apart from the base. -/
structure Separated (base : Place) (path : List Key) (w : Workspace) (T : Table) (w' : Workspace)
    (t' : TableId) : Prop where
  valid : w'.Valid
  anchored : w'.Anchored base path t'
  table : w'.heap.table t' = T
  bindings : T.bindings = 0
  aside : Aside base w w'

/-- So is a separated one, which has no bindings. -/
theorem Separated.sound {T : Table} (hs : Separated base path w T w' t) :
    w'.heap.Sound (.table t) :=
  (hs.anchored.knows hs.valid).sound (hs.table ▸ hs.bindings)

/-- A separated place has the content that was there. -/
theorem Located.separated (hloc : w.Located base path p t) (hv : w.Valid) {operands : List Value}
    (hops : ∀ v ∈ operands, w.heap.Admits v) : Separated base path w (w.heap.table t)
      (w.separate p operands).1 (w.separate p operands).2 where
  valid := (quietly_separate hv p hops).valid hv
  anchored := hloc.reached.anchored_separate hv hloc.valueAt hloc.holds hops
  table := (table_separate hv p hops).trans (by rw [tableAt_of_valueAt hloc.valueAt])
  bindings := (hloc.sound hv).bindings_eq_zero
  aside := hloc.reached.aside_separate hloc.holds operands

/-- A place that is cleared has an empty table. -/
theorem Located.cleared (hloc : w.Located base path p t) (hv : w.Valid) :
    Separated base path w Table.empty (w.clear p) w.copyId where
  valid := (quietly_clear hv hloc.valueAt hloc.ne_symbols).valid hv
  anchored := by
    have hempty : ∀ {u}, w.heap.LeadsAway u Table.empty := fun _ _ hf ↦ by cases hf
    have hq : w.Quietly { w with heap := (w.heap.newTable Table.empty).1 } :=
      quietly_heap (Heap.quietly_newTable_empty w.heap)
    exact (hloc.reached.newTable fun _ ↦ hempty).anchored_putAt (hq.valid hv)
      (holds_newTable_iff.2 (.inl hloc.holds)) (not_holds_newTable hv fun _ hx ↦ by cases hx)
      hv.notMem_held_copyId
  table := by
    have hp : ∀ k, p ≠ .element ⟨w.copyId, k⟩ := by
      rintro k rfl
      have hlt := Store.lt_fresh_of_get? (Heap.get?_of_find? hloc.holds)
      exact Nat.lt_irrefl _ hlt
    refine (table_putAt_of_ne hp w.copyId).trans ?_
    show (w.heap.newTable Table.empty).1.table w.copyId = _
    rw [Heap.table_newTable]
    exact if_pos rfl
  bindings := rfl
  aside :=
    ⟨fun hn ↦ get?_register_putAt (hloc.reached.ne_register hn) _,
      fun hc ↦ get?_cell_putAt (holds_newTable_iff.2 (.inl hloc.holds))
        (hloc.reached.ne_content hc) _,
      held_putAt _ _ _⟩

/-! ### Going down a path to write -/

/-- The key that the label of a normal key gives when it is used as a value. -/
theorem exists_coerceKey_toValue (h : Heap) (l : Label) (hl : l.key.IsNormal) :
    ∃ l', h.coerceKey defaultReferenceDepth l.toValue = .ok l' ∧ l'.key = l.key := by
  obtain ⟨key, buffer⟩ := l
  cases key with
  | int n => exact ⟨Label.int n, rfl, rfl⟩
  | text b =>
    refine ⟨(Label.ofStr ⟨b, buffer⟩).normalize, rfl, ?_⟩
    rw [Label.key_normalize]
    exact Key.normalize_of_isNormal hl

/-- Making the element under a key ready that holds an array separates the array before it and
changes nothing else. -/
theorem openElement_eq_of_array (hv : w.Valid) (hval : w.valueAt p = .array u) {l : Label}
    (hl : l.key.IsNormal) (hf : (w.heap.table u).find? l.key = some (.value (.array x))) :
    w.openElement p l [] = ((w.separate p []).1, ⟨(w.separate p []).2, l.key⟩) := by
  have hnormal : l.normalize.key = l.key := Label.key_normalize_of_isNormal hl
  have htable := table_separate hv p Heap.admits_of_mem_nil
  rw [tableAt_of_valueAt hval] at htable
  rw [← htable, ← hnormal] at hf
  have hready : (w.separate p []).1.heap.materialize (w.separate p []).2 l.normalize =
      (w.separate p []).1.heap := by
    rw [Heap.materialize, hf]
    dsimp only
    rw [Heap.read, Heap.slot?, hf]
    rfl
  rw [openElement_eq, hready, hnormal]

/-- Opening the element under a key does the same, whatever the key is given as. -/
theorem openAt_eq (hv : w.Valid) (hval : w.valueAt p = .array u) {l : Label} (hl : l.key.IsNormal)
    (hf : (w.heap.table u).find? l.key = some (.value (.array x))) :
    w.openAt p (.value l.toValue) =
      ((w.separate p []).1, .ok ⟨(w.separate p []).2, l.key⟩) := by
  obtain ⟨l', hl', hkey⟩ := exists_coerceKey_toValue w.heap l hl
  have hlabel : KeySource.label? w.heap defaultReferenceDepth (.value l.toValue) = .ok l' := hl'
  rw [← hkey] at hl hf ⊢
  rw [openAt, hlabel]
  dsimp only
  rw [openElement_eq_of_array hv hval hl hf]

/-- **One step down a path.** Separating an array leads to the element under the next key, from
which the rest of the path leads to the same table. -/
theorem Leads.separate (hl : w.Leads t p (k :: path')) (hv : w.Valid) (hr : w.Reached base path p) :
    ∃ u x, w.valueAt p = .array u ∧ (w.heap.table u).find? k = some (.value (.array x)) ∧
      (w.separate p []).1.Reached base (path ++ [k]) (.element ⟨(w.separate p []).2, k⟩) ∧
      (w.separate p []).1.Leads t (.element ⟨(w.separate p []).2, k⟩) path' ∧
      (w.separate p []).1.heap.table t = w.heap.table t ∧ Aside base w (w.separate p []).1 ∧
      (w.separate p []).1.Valid := by
  cases hl with
  | @there _ u _ _ hval hold hl =>
    -- the element under the key holds an array, the last one or one on the way
    obtain ⟨x, -, hf⟩ := hl.exists_holds
    have ha := hr.anchored_separate hv hval hold Heap.admits_of_mem_nil
    have htable := table_separate hv p Heap.admits_of_mem_nil
    rw [tableAt_of_valueAt hval] at htable
    refine ⟨u, x, hval, hf, .element ha k, hl.congr fun {y} _ hy ↦ ?_,
      hr.table_separate_of_below hv hold (below_of_leads hl), hr.aside_separate hold [],
      (quietly_separate hv p Heap.admits_of_mem_nil).valid hv⟩
    have hy' : (w.separate p []).1.Holds y (.element ⟨(w.separate p []).2, k⟩) := by
      show ((w.separate p []).1.heap.table _).find? _ = _
      rw [htable]
      exact hy
    exact ⟨valueAt_element hy', hy', fun hb ↦
      hr.table_separate_of_below hv hold (.head ⟨k, hy⟩ hb)⟩

/-- **Going down a path that is there separates the arrays on the way and changes nothing else.** -/
theorem Leads.followWriting {labels : List Label} (hl : w.Leads t p (labels.map (·.key)))
    (hv : w.Valid) (hr : w.Reached base path p) (hsym : ∀ name, p ≠ .symbols name)
    (hnormal : ∀ l ∈ labels, l.key.IsNormal) :
    ∃ w' q, w.followWriting p (labels.map Label.toValue) = (w', .ok q) ∧
      w'.Located base (path ++ labels.map (·.key)) q t ∧
      w'.heap.table t = w.heap.table t ∧ Aside base w w' ∧ w'.Valid := by
  induction labels generalizing w p path with
  | nil =>
    cases hl with
    | here hval hold =>
      refine ⟨w, p, ?_, ⟨by simpa using hr, hval, hold, hsym⟩, rfl, .refl base w, hv⟩
      rw [List.map_nil, Workspace.followWriting, expectArrayAt, hval]
      rfl
  | cons l rest ih =>
    obtain ⟨u, x, hval, hf, hr₁, hl₁, htable, haside, hv₁⟩ := hl.separate hv hr
    obtain ⟨w', q, heq, hloc, ht, haside', hv'⟩ := ih hl₁ hv₁ hr₁ (fun _ he ↦ by cases he)
      fun l hmem ↦ hnormal l (List.mem_cons_of_mem _ hmem)
    refine ⟨w', q, ?_, ?_, ht.trans htable, haside.trans haside', hv'⟩
    · rw [List.map_cons, Workspace.followWriting, expectArrayAt, hval]
      dsimp only [Value.expectArray]
      rw [openAt_eq hv hval (hnormal l List.mem_cons_self) hf]
      exact heq
    · rwa [List.map_cons, List.append_cons]

end SharedValue.Workspace
