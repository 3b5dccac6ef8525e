import SharedValue.Proofs.Acyclic.Gains
import SharedValue.Proofs.Workspace.Path

/-!
# Nothing leads back to where one writes

A writer stores values that it holds. For no array to end up inside itself, nothing that is held may
lead to the table that is written to, and such a table is *clear* (`Workspace.Clear`). Separation
brings this about: afterwards the place that is written to alone holds its table, so the only ways
to the table go through that place. If the place is an element, the table before it has to be clear
as well, and if it is the content of a cell, the cell has to be borrowed; a place for which this
holds is *entered* (`Workspace.Entered`).

A separation that copies leads nowhere new. Sending the copy to the table that it is a copy of turns
every way in the heap afterwards into a way in the heap before (`below_separate`), so the heap stays
acyclic (`Acyclic.separate`) and tables that are clear stay so (`Clear.separate`), and the table
that may now be written to is clear too (`Entered.clear_separate`).
-/

namespace SharedValue.Workspace

variable {w w' : Workspace} {borrowed borrowed' : List CellId} {t u x y z : TableId} {k : Key}
  {v : Value} {vs : List Value} {S : Set Value} {p : Place} {e : Element} {operands : List Value}

/-! ### Clear tables -/

/-- Whether a table is there and nothing that is held leads to it, nor the content of any cell that
is not borrowed. -/
structure Clear (w : Workspace) (borrowed : List CellId) (t : TableId) : Prop where
  knows : w.heap.Knows t
  held : ∀ {v}, v ∈ w.held → ¬ w.heap.Within t v
  cell : ∀ {c}, c ∉ borrowed → ¬ w.heap.Within t (w.heap.cell c)

/-- A table is clear if what mentions it is: no value that is held, only clear tables, and only
borrowed cells. -/
theorem clear_of_mentions (hk : w.heap.Knows t) (hheld : .array t ∉ w.held)
    (hchild : ∀ z, w.heap.Child z t → w.Clear borrowed z)
    (hcell : ∀ c, w.heap.cell c = .array t → c ∈ borrowed) : w.Clear borrowed t := by
  refine ⟨hk, ?_, ?_⟩
  · rintro _ hv ⟨y, rfl, hb⟩
    cases hb using Relation.ReflTransGen.casesOn with
    | refl => exact hheld hv
    | tail hb hc => exact (hchild _ hc).held hv (Heap.within_array_iff.2 hb)
  · rintro c hc ⟨y, hy, hb⟩
    cases hb using Relation.ReflTransGen.casesOn with
    | refl => exact hc (hcell c hy)
    | tail hb hch => exact (hchild _ hch).cell hc ⟨y, hy, hb⟩

namespace Clear

/-- A table stays clear when more cells are borrowed. -/
theorem mono (hc : w.Clear borrowed t) (hs : borrowed ⊆ borrowed') : w.Clear borrowed' t :=
  ⟨hc.knows, hc.held, fun hn ↦ hc.cell fun hm ↦ hn (hs hm)⟩

/-- Or when values are held that do not lead to it. -/
theorem hold (hc : w.Clear borrowed t) (hvs : ∀ v ∈ vs, ¬ w.heap.Within t v) :
    (w.hold vs).Clear borrowed t :=
  ⟨hc.knows, fun hm ↦ (List.mem_append.1 hm).elim hc.held (hvs _), hc.cell⟩

/-- **A table stays clear if nothing that is gained leads to it.** -/
theorem gains {h : Heap} (hc : w.Clear borrowed t) (hk : h.Knows t) (hg : w.heap.Gains u S h)
    (hS : ∀ v ∈ S, ¬ w.heap.Within t v) : Clear { w with heap := h } borrowed t where
  knows := hk
  held := fun hm ↦ hg.not_within (hc.held hm) hS
  cell := fun {c} hn ↦ (hg.cell c).elim (fun he ↦ he ▸ hg.not_within (hc.cell hn) hS) fun hm ↦
    hg.not_within (hS _ hm) hS

end Clear

/-- The place where the value at a place stands: the content of its cell for an element that is
bound. -/
def seat (w : Workspace) : Place → Place
  | .element e =>
    match w.heap.binding? e with
    | some c => .content c
    | none => .element e
  | p => p

/-- Whether writing may lead to a place. The table before an element is clear, and a cell whose
content is written is borrowed. -/
def Entered (w : Workspace) (borrowed : List CellId) : Place → Prop
  | .element e => w.Clear borrowed e.table ∧
      ∀ c, w.heap.slot? e = some (.binding c) → c ∈ borrowed
  | .content c => c ∈ borrowed
  | _ => True

/-- A bound element is in a table with bindings. -/
theorem Valid.bindings_ne_zero (hv : w.Valid) {c : CellId}
    (hs : w.heap.slot? e = some (.binding c)) :
    (w.heap.table e.table).bindings ≠ 0 :=
  Nat.ne_of_gt ((hv.heap.table_wellFormed e.table).bindings_pos hs)

/-- The cell whose content is written is borrowed. -/
theorem Entered.mem_of_seat (hp : w.Entered borrowed p) {c : CellId}
    (hs : w.seat p = .content c) : c ∈ borrowed := by
  cases p with
  | content c' => exact Place.content.inj hs ▸ hp
  | element e =>
    rw [seat] at hs
    split at hs
    next c' hb =>
      obtain rfl := Place.content.inj hs
      exact hp.2 _ (Heap.binding?_eq_some_iff.1 hb)
    · cases hs
  | _ => cases hs

/-- The table before an element is clear. -/
theorem Entered.clear_of_seat (hp : w.Entered borrowed p) (hs : w.seat p = .element ⟨z, k⟩) :
    p = .element ⟨z, k⟩ ∧ w.Clear borrowed z := by
  cases p with
  | element e =>
    rw [seat] at hs
    split at hs
    · cases hs
    · obtain rfl := Place.element.inj hs
      exact ⟨rfl, hp.1⟩
  | _ => cases hs

/-- The array at a place is held at its seat. An object that is not there has no table yet. -/
theorem holds_seat (hval : w.valueAt p = .array t) (ht : t.index < w.heap.tables.fresh) :
    w.Holds t (w.seat p) := by
  cases p with
  | register name =>
    rw [valueAt] at hval
    cases hr : w.registers.get? name with
    | none =>
      rw [hr] at hval
      cases hval
    | some v =>
      rw [hr] at hval
      obtain rfl : v = .array t := hval
      exact Registry.mem_of_get? hr
  | symbols name =>
    rw [valueAt] at hval
    split at hval
    next s hs => exact ⟨s, Registry.mem_of_get? hs, Value.array.inj hval⟩
    · cases hval
  | element e =>
    rw [valueAt, Heap.read] at hval
    rw [seat, Heap.binding?]
    split at hval
    next v hs =>
      rw [hs]
      obtain rfl := hval
      exact hs
    next c hs =>
      rw [hs]
      exact Heap.get?_of_cell_eq_array hval
    · cases hval
  | content c => exact Heap.get?_of_cell_eq_array hval
  | properties o =>
    obtain rfl := Value.array.inj hval
    cases ho : w.heap.objects.get? o.index with
    | none =>
      rw [Heap.properties, ho] at ht
      exact absurd ht (Nat.lt_irrefl _)
    | some r => exact ⟨r, ho, by rw [Heap.properties, ho]; rfl⟩

/-- What stands at the seat of a place is the value at the place. -/
theorem cell_of_seat {c : CellId} (hs : w.seat p = .content c) : w.heap.cell c = w.valueAt p := by
  cases p with
  | content c' => rw [Place.content.inj hs, valueAt]
  | element e =>
    rw [seat] at hs
    split at hs
    next c' hb =>
      rw [Heap.binding?_eq_some_iff] at hb
      rw [valueAt, Heap.read, hb, Place.content.inj hs]
    · cases hs
  | _ => cases hs

/-! ### What a separation changes -/

/-- Putting a table at a place makes it an element at most of the table that the place is in. -/
theorem child_putAt (hc : (w.putAt p (.array x)).heap.Child y z) : w.heap.Child y z ∨
    z = x ∧ ∃ k u, p = .element ⟨y, k⟩ ∧ w.heap.slot? ⟨y, k⟩ = some (.value u) := by
  cases p with
  | element e =>
    have hc : (w.heap.write e (.array x)).Child y z := hc
    rw [Heap.write] at hc
    split at hc
    next u hs =>
      obtain ⟨j, hj⟩ := hc
      by_cases hy : y = e.table
      · subst hy
        rw [Heap.table_setTable_self (Store.lt_fresh_of_get? (Heap.get?_of_find? hs)),
          Table.find?_put] at hj
        split at hj
        · obtain ⟨-, -, he⟩ := Option.map_eq_some_iff.1 hj
          exact .inr ⟨(Value.array.inj (Slot.value.inj he)).symm, e.key, u, rfl, hs⟩
        · exact .inl ⟨j, hj⟩
      · rw [Heap.table_setTable_ne _ hy] at hj
        exact .inl ⟨j, hj⟩
    · exact .inl hc
    · exact .inl hc
  | properties o =>
    left
    obtain ⟨j, hj⟩ := hc
    refine ⟨j, ?_⟩
    rwa [table_putAt_of_ne fun _ he ↦ by cases he] at hj
  | symbols name =>
    left
    obtain ⟨j, hj⟩ := hc
    refine ⟨j, ?_⟩
    rwa [table_putAt_of_ne fun _ he ↦ by cases he] at hj
  | _ => exact .inl hc

/-- Putting an array into a place changes at most the cell whose content the place is. -/
theorem cell_putAt (w : Workspace) (p : Place) (x : TableId) (c : CellId) :
    (w.putAt p (.array x)).heap.cell c = w.heap.cell c ∨
      (w.putAt p (.array x)).heap.cell c = .array x ∧ w.seat p = .content c := by
  have hset : ∀ {c'}, w.seat p = .content c' → (w.heap.setCell c' (.array x)).cell c =
      w.heap.cell c ∨ (w.heap.setCell c' (.array x)).cell c = .array x ∧ w.seat p = .content c := by
    intro c' hs
    by_cases hc : c = c'
    · subst hc
      have hg : w.heap.Gains x {.array x} (w.heap.setCell c (.array x)) :=
        Heap.gains_setCell x c rfl
      exact (hg.cell c).imp_right fun hm ↦ ⟨hm, hs⟩
    · exact .inl (Heap.cell_setCell_ne _ hc _)
  cases p with
  | register name => exact .inl rfl
  | symbols name =>
    left
    rw [putAt]
    split <;> rfl
  | element e =>
    show (w.heap.write e _).cell c = _ ∨ (w.heap.write e _).cell c = _ ∧ _
    rw [Heap.write]
    split
    · exact .inl rfl
    next c' hs => exact hset (by rw [seat, Heap.binding?_eq_some_iff.2 hs])
    · exact .inl rfl
  | content c' => exact hset rfl
  | properties o =>
    left
    show (w.heap.setProperties o x).cell c = _
    rw [Heap.setProperties]
    split <;> rfl

/-- The table that a table is a copy of, after a separation. -/
def original (w : Workspace) (p : Place) (x : TableId) : TableId :=
  if x = w.copyId then w.tableAt p else x

/-- A table that was there is its own original. -/
theorem original_of_knows (hk : w.heap.Knows x) : w.original p x = x := by
  refine if_neg fun he ↦ ?_
  have hlt := Store.lt_fresh_of_get? hk.get?
  rw [he] at hlt
  exact Nat.lt_irrefl _ hlt

/-- The original of the copy is the table that was copied. -/
theorem original_copyId (w : Workspace) (p : Place) : w.original p w.copyId = w.tableAt p :=
  if_pos rfl

theorem knows_of_child_left (hc : w.heap.Child y z) : w.heap.Knows y :=
  hc.elim fun _ hk ↦ Heap.knows_of_find? hk

/-- A table that was there is not the copy. -/
theorem ne_copyId_of_knows (hk : w.heap.Knows x) : x ≠ w.copyId := by
  rintro rfl
  exact Nat.lt_irrefl _ (Store.lt_fresh_of_get? hk.get?)

/-- The tables besides a copy of one that has no bindings. -/
theorem table_withCopy (ht : w.heap.Sound (.table t)) (x : TableId) :
    (w.withCopy t).heap.table x = if x = w.copyId then w.heap.table t else w.heap.table x := by
  rw [withCopy, Heap.table_newTable,
    Table.detached_of_bindings_eq_zero _ ht.bindings_eq_zero]
  rfl

/-- A table with an element that holds something is there. -/
theorem knows_of_valueAt_element (hval : w.valueAt (.element ⟨y, k⟩) = .array t) :
    w.heap.Knows y := by
  rw [valueAt, Heap.read] at hval
  split at hval
  next hf => exact Heap.knows_of_find? hf
  next hf => exact Heap.knows_of_find? hf
  · cases hval

/-- Elements after a separation come from elements before it. -/
theorem child_separate (hv : w.Valid) (hops : ∀ v ∈ operands, w.heap.Admits v)
    (hc : (w.separate p operands).1.heap.Child y z) :
    w.heap.Child (w.original p y) (w.original p z) := by
  have hsame : w.heap.Child y z → w.heap.Child (w.original p y) (w.original p z) := fun hc ↦ by
    rwa [original_of_knows (knows_of_child_left hc), original_of_knows (hv.heap.knows_of_child hc)]
  cases hs : w.isShared (w.tableAt p) operands with
  | false =>
    rw [separate_of_not_isShared hs] at hc
    exact hsame hc
  | true =>
    obtain ⟨t, hval, ht, hsound⟩ := exists_array_of_isShared hv hops hs
    rw [separate_of_isShared hs, ht] at hc
    rcases child_putAt hc with ⟨j, hj⟩ | ⟨rfl, j, u, rfl, hu⟩
    · rw [table_withCopy hsound] at hj
      split at hj
      next hy =>
        rw [hy, original_copyId, ht, original_of_knows (hv.heap.knows_of_child ⟨j, hj⟩)]
        exact ⟨j, hj⟩
      · exact hsame ⟨j, hj⟩
    · -- the place is an element, and what it held is what was copied
      have hy := knows_of_valueAt_element hval
      rw [Heap.slot?, table_withCopy hsound, if_neg (ne_copyId_of_knows hy)] at hu
      rw [valueAt, Heap.read, Heap.slot?, hu] at hval
      obtain rfl : u = .array t := hval
      rw [original_copyId, ht, original_of_knows hy]
      exact ⟨j, hu⟩

/-- **Every way after a separation comes from a way before it.** -/
theorem below_separate (hv : w.Valid) (hops : ∀ v ∈ operands, w.heap.Admits v)
    (hb : (w.separate p operands).1.heap.Below y z) :
    w.heap.Below (w.original p y) (w.original p z) :=
  hb.lift _ fun _ _ hc ↦ child_separate hv hops hc

/-- Separating puts the copy into a cell at most in place of the table. -/
theorem cell_separate (hv : w.Valid) (hops : ∀ v ∈ operands, w.heap.Admits v) (c : CellId) :
    (w.separate p operands).1.heap.cell c = w.heap.cell c ∨
      (w.separate p operands).1.heap.cell c = .array w.copyId ∧
        w.heap.cell c = .array (w.tableAt p) ∧ w.seat p = .content c := by
  cases hs : w.isShared (w.tableAt p) operands with
  | false =>
    rw [separate_of_not_isShared hs]
    exact .inl rfl
  | true =>
    obtain ⟨t, hval, ht, hsound⟩ := exists_array_of_isShared hv hops hs
    rw [separate_of_isShared hs, ht]
    refine (cell_putAt (w.withCopy t) p w.copyId c).imp_right fun ⟨hc, hseat⟩ ↦ ⟨hc, ?_⟩
    have hseat : w.seat p = .content c := by
      cases p with
      | element e =>
        rw [seat, Heap.binding?, Heap.slot?, table_withCopy hsound,
          if_neg (ne_copyId_of_knows (knows_of_valueAt_element hval))] at hseat
        exact hseat
      | _ => exact hseat
    exact ⟨(cell_of_seat hseat).trans hval, hseat⟩

/-- A separated place has a table that is there. -/
theorem knows_separate (hv : w.Valid) (hops : ∀ v ∈ operands, w.heap.Admits v)
    (hk : w.heap.Knows (w.tableAt p)) :
    (w.separate p operands).1.heap.Knows (w.separate p operands).2 := by
  cases hs : w.isShared (w.tableAt p) operands with
  | false =>
    rw [separate_of_not_isShared hs]
    exact hk
  | true =>
    rw [separate_of_isShared hs]
    exact (quietly_putAt_copyId hv hops hs).heap_quietly.knows (sound_copyId w _).knows

/-! ### What a separation keeps -/

/-- **A separation keeps a heap acyclic.** -/
theorem acyclic_separate (ha : w.heap.Acyclic) (hv : w.Valid)
    (hops : ∀ v ∈ operands, w.heap.Admits v) : (w.separate p operands).1.heap.Acyclic :=
  fun _ _ hc hb ↦ ha.not_below (child_separate hv hops hc) (below_separate hv hops hb)

/-- **A separation keeps tables clear.** -/
theorem Clear.separate (hc : w.Clear borrowed t) (hv : w.Valid)
    (hops : ∀ v ∈ operands, w.heap.Admits v) :
    (w.separate p operands).1.Clear borrowed t := by
  have ht : w.original p t = t := original_of_knows hc.knows
  refine ⟨(quietly_separate hv p hops).heap_quietly.knows hc.knows, ?_, ?_⟩
  · rintro _ hm ⟨y, rfl, hb⟩
    rw [held_separate] at hm
    have hb := below_separate hv hops hb
    rw [ht, original_of_knows (Heap.admits_array_iff.1 (hv.admits_held hm)).knows] at hb
    exact hc.held hm (Heap.within_array_iff.2 hb)
  · rintro c hn ⟨y, hy, hb⟩
    have hb := below_separate hv hops hb
    rw [ht] at hb
    rcases cell_separate (p := p) hv hops c with hsame | ⟨hcopy, hold, -⟩
    · rw [hsame] at hy
      have ha := hv.heap.admits_cell c
      rw [hy] at ha
      rw [original_of_knows (Heap.admits_array_iff.1 ha).knows] at hb
      exact hc.cell hn ⟨y, hy, hb⟩
    · obtain rfl := Value.array.inj (hcopy.symm.trans hy)
      rw [original_copyId] at hb
      exact hc.cell hn ⟨_, hold, hb⟩

/-- **After a separation the table that may be written to is clear.** -/
theorem Entered.clear_separate (hp : w.Entered borrowed p) (hv : w.Valid)
    (hops : ∀ v ∈ operands, w.heap.Admits v) (hk : w.heap.Knows (w.tableAt p)) :
    (w.separate p operands).1.Clear borrowed (w.separate p operands).2 := by
  have hk' := knows_separate hv hops hk
  have hval : w.valueAt p = .array (w.tableAt p) := by
    by_cases hp : ∃ t, w.valueAt p = .array t
    · obtain ⟨t, ht⟩ := hp
      rw [tableAt_of_valueAt ht, ht]
    · rw [tableAt_eq_fresh fun t ht ↦ hp ⟨t, ht⟩] at hk
      exact absurd (Store.lt_fresh_of_get? hk.get?) (Nat.lt_irrefl _)
  cases hs : w.isShared (w.tableAt p) operands with
  | false =>
    have hsole := sole_of_not_isShared (holds_seat hval (Store.lt_fresh_of_get? hk.get?)) hs
    rw [separate_of_not_isShared hs]
    refine clear_of_mentions hk hsole.notMem_held (fun z ⟨k, hz⟩ ↦ ?_) fun c hc ↦ ?_
    · have hseat := hsole.eq_of_holds (q := .element ⟨z, k⟩) hz
      exact (hp.clear_of_seat hseat.symm).2
    · have hseat := hsole.eq_of_holds (q := .content c) (Heap.get?_of_cell_eq_array hc)
      exact hp.mem_of_seat hseat.symm
  | true =>
    refine clear_of_mentions hk' ?_ (fun z hz ↦ ?_) fun c hc ↦ ?_
    · rw [held_separate, separate_of_isShared hs]
      exact hv.notMem_held_copyId
    · -- only the table that the place is in has the copy as an element
      rw [separate_of_isShared hs] at hz
      rcases child_putAt hz with ⟨k, hz⟩ | ⟨-, k, -, rfl, -⟩
      · exact absurd hz (not_holds_newTable hv (fun x ↦ hv.heap.sound_of_mem_detached)
          (.element ⟨z, k⟩))
      · exact hp.1.separate hv hops
    · rcases cell_separate (p := p) hv hops c with hsame | ⟨-, -, hseat⟩
      · rw [hsame, separate_of_isShared hs] at hc
        have ha := hv.heap.admits_cell c
        rw [hc] at ha
        exact absurd rfl (ne_copyId_of_knows (Heap.admits_array_iff.1 ha).knows)
      · exact hp.mem_of_seat hseat

/-- **What is held does not lead to the table that may be written to.** -/
theorem Entered.not_within_separate (hp : w.Entered borrowed p) (hv : w.Valid)
    (hops : ∀ v ∈ operands, w.heap.Admits v) (hm : v ∈ w.held) :
    ¬ (w.separate p operands).1.heap.Within (w.separate p operands).2 v := by
  have hm' := hm
  rw [← w.held_separate p operands] at hm'
  by_cases hk : w.heap.Knows (w.tableAt p)
  · exact (hp.clear_separate hv hops hk).held hm'
  · -- a place without an array stands for a table that nothing mentions
    have hs : w.isShared (w.tableAt p) operands = false := by
      rw [← Bool.not_eq_true]
      exact fun hs ↦ hk (hv.sound_of_isShared hops hs).knows
    have hfresh : w.tableAt p = ⟨w.heap.tables.fresh⟩ :=
      (writable_tableAt hv p).elim (fun h ↦ absurd h hk) fun h ↦ congrArg TableId.mk h
    rw [separate_of_not_isShared hs, hfresh]
    exact hv.heap.topmost_fresh.not_within (hv.admits_held hm).ne_fresh

end SharedValue.Workspace
