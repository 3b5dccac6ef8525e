import SharedValue.Proofs.Acyclic.Writing
import SharedValue.Proofs.Workspace.Commands

/-!
# Changes of an array keep a heap acyclic

An open element stays in a clear table whatever is done to it (`acyclic_perform`), the way down a
path of keys enters one place after the other (`entered_followWriting`), and so a change of the
array at its end keeps the heap acyclic (`acyclic_editFrom`).
-/

namespace SharedValue.Workspace

variable {w w' : Workspace} {borrowed : List CellId} {t : TableId} {l : Label} {v : Value}
  {p : Place} {e : Element}

/-! ### Acts on an open element -/

/-- Whether an element is open for writing: its table is clear, and a binding of its own is not to a
cell that is borrowed. -/
structure Editable (w : Workspace) (borrowed : List CellId) (e : Element) : Prop where
  clear : w.Clear borrowed e.table
  free : borrowed = [] ∨ (w.heap.table e.table).bindings = 0

/-- The operand of an act. -/
def actOperand? : Act → Option Value
  | .read | .isBound | .diagnose => none
  | .assign v | .replace v | .overwrite v | .push v => some v

/-- The cell that an editable element is bound to is not borrowed. -/
theorem Editable.notMem (ho : w.Editable borrowed e) (hv : w.Valid) {c : CellId}
    (hs : w.heap.slot? e = some (.binding c)) : c ∉ borrowed := by
  rcases ho.free with rfl | hb
  · exact List.not_mem_nil
  · exact absurd hb (hv.bindings_ne_zero hs)

/-- What an open element holds does not lead to it. -/
theorem Editable.not_within_read (ho : w.Editable borrowed e) (ha : w.heap.Acyclic) (hv : w.Valid) :
    ¬ w.heap.Within e.table (w.heap.read e) := by
  rw [Heap.read]
  split
  next v hs =>
    rintro ⟨y, rfl, hb⟩
    exact ha.not_below ⟨e.key, hs⟩ hb
  next c hs => exact ho.clear.cell (ho.notMem hv hs)
  · exact Heap.not_within_of_ne_array fun _ he ↦ by cases he

/-- What an assignment that is not blocked overwrites does not lead to the element. -/
theorem Editable.not_within_replace (ho : w.Editable borrowed e) (ha : w.heap.Acyclic)
    (hv : w.Valid) (hb : w.isBlocked e borrowed = false) (v : Value) :
    ¬ w.heap.Within e.table (w.replace e v).2 := by
  have hread := ho.not_within_read ha hv
  show ¬ w.heap.Within e.table (w.heap.replace e v).2
  rw [isBlocked] at hb
  rw [Heap.replace]
  split
  next c hr =>
    rw [hr] at hb hread
    split
    · exact hread
    next hne =>
      refine ho.clear.cell fun hm ↦ ?_
      simp [hm, hne] at hb
  · exact hread

/-- A quiet change leaves an element editable if its table stays clear. -/
theorem editable_of_quietly (ho : w.Editable borrowed e) (hq : w.Quietly w')
    (hc : w'.Clear borrowed e.table) : w'.Editable borrowed e :=
  ⟨hc, ho.free.imp_right (hq.heap_quietly.keeps ho.clear.knows).bindings_eq.trans⟩

/-- The array in an open element may be written to while its cell is borrowed too. -/
theorem Editable.entered (ho : w.Editable borrowed e) :
    w.Entered (borrowed ++ (w.heap.binding? e).toList) (.element e) := by
  refine ⟨ho.clear.mono (List.subset_append_left _ _), fun c hs ↦ ?_⟩
  rw [Heap.binding?_eq_some_iff.2 hs]
  exact List.mem_append_right _ (List.mem_singleton_self c)

/-- **What is done to an element makes no circle**, and leaves the element editable. -/
theorem acyclic_act (ho : w.Editable borrowed e) (ha : w.heap.Acyclic) (hv : w.Valid) {a : Act}
    (hm : ∀ v, actOperand? a = some v → v ∈ w.held) (hb : w.blocksAct e borrowed a = false) :
    (w.act e borrowed a).1.heap.Acyclic ∧ (w.act e borrowed a).1.Editable borrowed e := by
  cases a with
  | read =>
    refine ⟨ha, ho.clear.hold fun v hmem ↦ ?_, ho.free⟩
    rw [List.mem_singleton.1 hmem]
    exact ho.not_within_read ha hv
  | assign v =>
    have hmv := hm v rfl
    exact ⟨(gains_assign w e v).acyclic ha (not_within_singleton (ho.clear.held hmv)),
      editable_of_quietly ho (quietly_assign hv e (hv.admits_held hmv)) (ho.clear.assign hv hmv e)⟩
  | replace v =>
    have hmv := hm v rfl
    have ho₁ := editable_of_quietly ho (quietly_replace hv e (hv.admits_held hmv))
      (ho.clear.assign hv hmv e)
    refine ⟨(gains_assign w e v).acyclic ha (not_within_singleton (ho.clear.held hmv)),
      ho₁.clear.hold fun old hmem ↦ ?_, ho₁.free⟩
    rw [List.mem_singleton.1 hmem]
    exact (gains_assign w e v).not_within (ho.not_within_replace ha hv hb v)
      (not_within_singleton (ho.clear.held hmv))
  | overwrite v =>
    have hmv := hm v rfl
    have hg : w.heap.Gains e.table {v} (w.overwrite e v).heap := Heap.gains_write e rfl
    have hq := quietly_overwrite hv e (hv.admits_held hmv)
    have hs := not_within_singleton (ho.clear.held hmv)
    exact ⟨hg.acyclic ha hs,
      editable_of_quietly ho hq (ho.clear.gains (hq.heap_quietly.knows ho.clear.knows) hg hs)⟩
  | isBound => exact ⟨ha, ho⟩
  | diagnose => exact ⟨ha, ho⟩
  | push v =>
    -- the array in the element is separated, and its cell is borrowed while that is done
    have hmv := hm v rfl
    have ha₁ := acyclic_push ha hv ho.entered hmv
    have ho₁ := editable_of_quietly ho (quietly_push hv (.element e) (hv.admits_held hmv))
      (ho.clear.push (p := .element e) hv hmv)
    rw [act]
    split
    · exact ⟨ha, ho⟩
    · split <;> next heq =>
        rw [heq] at ha₁ ho₁
        exact ⟨ha₁, ho₁⟩

theorem admitsAct_of_held (hv : w.Valid) {a : Act} (hm : ∀ v, actOperand? a = some v → v ∈ w.held) :
    AdmitsAct w.heap a := by
  cases a with
  | read => trivial
  | isBound => trivial
  | diagnose => trivial
  | _ => exact hv.admits_held (hm _ rfl)

/-- **Acts on an open element keep a heap acyclic**, as long as none is blocked. -/
theorem acyclic_perform (ho : w.Editable borrowed e) (ha : w.heap.Acyclic) (hv : w.Valid)
    {acts : List Act} (hm : ∀ a ∈ acts, ∀ v, actOperand? a = some v → v ∈ w.held)
    (hb : w.blocksActs e borrowed acts = false) :
    (w.perform e borrowed acts).1.heap.Acyclic := by
  induction acts generalizing w with
  | nil => exact ha
  | cons a rest ih =>
    rw [blocksActs, Bool.or_eq_false_iff] at hb
    obtain ⟨hb₁, hb₂⟩ := hb
    have hma := hm a List.mem_cons_self
    have hq := quietly_act hv e borrowed (admitsAct_of_held hv hma)
    obtain ⟨ha₁, ho₁⟩ := acyclic_act ho ha hv hma hb₁
    rw [perform]
    split
    next heq =>
      rw [heq] at ha₁
      exact ha₁
    next w₁ o heq =>
      rw [heq] at hq ha₁ ho₁ hb₂
      have hrest := ih ho₁ ha₁ (hq.valid hv) (fun a hmem v hv ↦
        hq.held_subset (hm a (List.mem_cons_of_mem _ hmem) v hv)) hb₂
      split <;> next heq₂ =>
        rw [heq₂] at hrest
        exact hrest

/-- Where nothing is borrowed nothing is blocked. -/
theorem blocksActs_nil (w : Workspace) (e : Element) (acts : List Act) :
    w.blocksActs e [] acts = false := by
  have hfree : ∀ w : Workspace, w.isBlocked e [] = false := fun w ↦ by
    rw [isBlocked]
    split <;> rfl
  induction acts generalizing w with
  | nil => rfl
  | cons a rest ih =>
    have ha : w.blocksAct e [] a = false := by
      cases a <;> first | exact hfree w | rfl
    rw [blocksActs, ha, Bool.false_or]
    split
    · rfl
    · exact ih _

/-- The operands of deeds are held. -/
theorem mem_held_of_deeds {deeds : List (Deed Value)}
    (hm : ∀ v ∈ deeds.filterMap Deed.operand?, v ∈ w.held) :
    ∀ a ∈ deeds.map Deed.act, ∀ v, actOperand? a = some v → v ∈ w.held := by
  intro a hmem v hv
  obtain ⟨d, hd, rfl⟩ := List.mem_map.1 hmem
  refine hm v (List.mem_filterMap.2 ⟨d, hd, ?_⟩)
  cases d <;> exact hv

/-- The heap of a result that is given. -/
theorem acyclic_of_some {α : Type} {x : Workspace × α} {r : α} (hr : some x = some (w', r))
    (ha : x.1.heap.Acyclic) : w'.heap.Acyclic := by
  rw [Option.some.inj hr] at ha
  exact ha

/-- Nor does what is done to it in turn, by induction on the deeds. -/
theorem acyclic_performDeeds (ho : w.Editable borrowed e) (ha : w.heap.Acyclic) (hv : w.Valid)
    {deeds : List (Deed Value)} (hm : ∀ v ∈ deeds.filterMap Deed.operand?, v ∈ w.held)
    {r : Except ValueError (List Outcome)}
    (hr : w.performDeeds e borrowed deeds = some (w', r)) : w'.heap.Acyclic := by
  rw [performDeeds] at hr
  split at hr
  · cases hr
  next hb =>
    exact acyclic_of_some hr
      (acyclic_perform ho ha hv (mem_held_of_deeds hm) (Bool.eq_false_iff.2 hb))

/-! ### Changes of an array -/

/-- A place that can be entered has a table. -/
theorem Enterable.knows (hp : w.Enterable p) (hv : w.Valid) : w.heap.Knows (w.tableAt p) := by
  obtain ⟨⟨t, ht⟩, hsym, hprop⟩ := hp
  have ha := hv.admits_valueAt hsym fun o ho ↦ absurd ho (hprop o)
  rw [ht] at ha
  rw [tableAt_of_valueAt ht]
  exact (Heap.admits_array_iff.1 ha).knows

/-- The array at a place where writing may lead has no bindings, and keeps none when the place is
separated. -/
theorem Enterable.bindings_separate (hp : w.Enterable p) (hv : w.Valid) :
    ((w.separate p []).1.heap.table (w.separate p []).2).bindings = 0 := by
  rw [table_separate hv p Heap.admits_of_mem_nil]
  exact bindings_tableAt hv hp.2.1 fun o ho ↦ absurd ho (hp.2.2 o)

/-- Its elements are in a table without bindings. -/
theorem Enterable.bindings_openElement (hp : w.Enterable p) (hv : w.Valid) (l : Label) :
    ((w.openElement p l []).1.heap.table (w.openElement p l []).2.table).bindings = 0 := by
  have hv₁ := (quietly_separate hv p Heap.admits_of_mem_nil).valid hv
  have hk := knows_separate hv Heap.admits_of_mem_nil (hp.knows hv)
  have hq := Heap.quietly_materialize hv₁.heap hk.writable l.normalize_isNormal
  rw [openElement_eq]
  dsimp only
  exact (hq.keeps hk).bindings_eq.trans (hp.bindings_separate hv)

/-- **An element opened under a key** of an array at a place where writing may lead. -/
theorem Entered.editable_openElement (hp : w.Entered borrowed p) (hv : w.Valid)
    (he : w.Enterable p) (l : Label) :
    (w.openElement p l []).1.Editable borrowed (w.openElement p l []).2 :=
  ⟨hp.clear_openElement hv Heap.admits_of_mem_nil (he.knows hv) l,
    .inr (he.bindings_openElement hv l)⟩

/-- An element that was appended can be edited. -/
theorem Entered.editable_append (hp : w.Entered borrowed p) (hv : w.Valid)
    (he : w.Enterable p) (hr : (w.append p []).2 = .ok e) :
    (w.append p []).1.Editable borrowed e := by
  refine ⟨hp.clear_append hv Heap.admits_of_mem_nil (he.knows hv) hr, .inr ?_⟩
  have hk := knows_separate hv Heap.admits_of_mem_nil (he.knows hv)
  have hb := he.bindings_separate hv
  rcases w.append_cases p [] with herr | ⟨n, -, hok⟩
  · rw [herr] at hr
    cases hr
  · rw [hok] at hr ⊢
    rw [← Except.ok.inj hr]
    show ((Heap.setTable _ _ _).table _).bindings = 0
    rw [Heap.table_setTable_self (Store.lt_fresh_of_get? hk.get?), Table.insertNew]
    exact hb

/-- And it can be entered, if its table has no bindings. -/
theorem Editable.entered_element (ho : w.Editable borrowed e) (hv : w.Valid)
    (hb : (w.heap.table e.table).bindings = 0) : w.Entered borrowed (.element e) :=
  ⟨ho.clear, fun _ hs ↦ absurd hb (hv.bindings_ne_zero hs)⟩

/-- A new array has no elements that could lead back to where it is put. -/
theorem acyclic_clear (ha : w.heap.Acyclic) (hv : w.Valid) (p : Place) :
    (w.clear p).heap.Acyclic := by
  have ha₁ := ha.newTable hv.heap fun x (hx : x ∈ Table.empty.handles) ↦ by cases hx
  have hnew : (w.heap.newTable Table.empty).1.table w.copyId = Table.empty := by
    rw [Heap.table_newTable]
    exact if_pos rfl
  have hleaf : ∀ z, ¬ (w.heap.newTable Table.empty).1.Child w.copyId z := by
    rintro z ⟨k, hk⟩
    rw [hnew] at hk
    cases hk
  -- only a slot of its own makes the new array an element of another
  by_cases hp : ∃ e u, p = .element e ∧
      (w.heap.newTable Table.empty).1.slot? e = some (.value u)
  · obtain ⟨e, u, rfl, hs⟩ := hp
    have hg : (w.heap.newTable Table.empty).1.Gains e.table {.array w.copyId}
      (w.clear (.element e)).heap := Heap.gains_write e rfl
    refine hg.acyclic ha₁ (not_within_singleton ?_)
    intro hw
    rcases Relation.ReflTransGen.cases_head (Heap.within_array_iff.1 hw) with he | ⟨z, hc, -⟩
    · rw [Heap.slot?, ← he, hnew] at hs
      cases hs
    · exact hleaf z hc
  · refine Heap.Acyclic.of_child ha₁ fun hc ↦ ?_
    rcases child_putAt (w := { w with heap := (w.heap.newTable Table.empty).1 }) hc with
      hc | ⟨-, k, u, rfl, hs⟩
    · exact hc
    · exact absurd ⟨_, u, rfl, hs⟩ hp

/-- Taking a key out makes no circle. -/
theorem acyclic_unsetKey (ha : w.heap.Acyclic) (hv : w.Valid) (p : Place) (k : Key) :
    (w.unsetKey p k).1.heap.Acyclic := by
  rw [unsetKey]
  split
  · have hv₁ := (quietly_separate hv p Heap.admits_of_mem_nil).valid hv
    exact (Heap.gains_remove hv₁.heap _ _ ∅).acyclic (acyclic_separate ha hv Heap.admits_of_mem_nil)
      fun _ hm ↦ hm.elim
  · exact ha

/-- **A change of the array at a place keeps a heap acyclic.** -/
theorem acyclic_edit (hp : w.Entered borrowed p) (he : w.Enterable p) (ha : w.heap.Acyclic)
    (hv : w.Valid) {e : Edit Label Value} (hm : ∀ v ∈ e.operands, v ∈ w.held)
    {r : Except ValueError (List Outcome)} (hr : w.edit p borrowed e = some (w', r)) :
    w'.heap.Acyclic := by
  cases e with
  | clear => exact acyclic_of_some hr (acyclic_clear ha hv p)
  | insert l v =>
    have hmv := hm v List.mem_cons_self
    rw [edit] at hr
    split at hr
    · cases hr
    · exact acyclic_of_some hr
        (acyclic_storeKey ha hv hp (hv.admits_held hmv).of_mem_singleton hmv l)
  | push v =>
    have ha₁ := acyclic_push ha hv hp (hm v List.mem_cons_self)
    rw [edit] at hr
    split at hr <;> next heq =>
      rw [heq] at ha₁
      exact acyclic_of_some hr ha₁
  | unset l => exact acyclic_of_some hr (acyclic_unsetKey ha hv p _)
  | extend pairs =>
    rw [edit] at hr
    split at hr
    · cases hr
    · exact acyclic_of_some hr
        (acyclic_extend ha hv hp fun q hq ↦ hm q.2 (List.mem_map_of_mem hq))
  | «open» l deeds =>
    have hq := quietly_openElement hv p l Heap.admits_of_mem_nil
    exact acyclic_performDeeds (hp.editable_openElement hv he l)
      (acyclic_openElement ha hv Heap.admits_of_mem_nil l) (hq.valid hv)
      (fun v hmem ↦ hq.held_subset (hm v hmem)) hr
  | append deeds =>
    have hq := quietly_append hv p Heap.admits_of_mem_nil
    have ha₁ := acyclic_append (p := p) hv Heap.admits_of_mem_nil ha
    have ho := fun x ↦ hp.editable_append (e := x) hv he
    rw [edit] at hr
    split at hr
    next heq =>
      rw [heq] at ha₁
      exact acyclic_of_some hr ha₁
    next w₁ x heq =>
      rw [heq] at hq ha₁ ho
      exact acyclic_performDeeds (ho x rfl) ha₁ (hq.valid hv)
        (fun v hmem ↦ hq.held_subset (hm v hmem)) hr

/-! ### Going down a path -/

/-- **Each place on the way down a path is entered**, and separating it keeps the heap acyclic. -/
theorem entered_followWriting (hp : w.Entered borrowed p) (ha : w.heap.Acyclic) (hv : w.Valid)
    (hsym : ∀ name, p ≠ .symbols name) (hprop : ∀ o, p ≠ .properties o) (path : List Value) :
    (w.followWriting p path).1.heap.Acyclic ∧ ∀ q, (w.followWriting p path).2 = .ok q →
      (w.followWriting p path).1.Entered borrowed q := by
  induction path generalizing w p with
  | nil =>
    rw [followWriting]
    split
    · exact ⟨ha, fun _ hq ↦ by cases hq⟩
    · refine ⟨ha, fun q hq ↦ ?_⟩
      rw [← Except.ok.inj hq]
      exact hp
  | cons k path ih =>
    rw [followWriting]
    split
    · exact ⟨ha, fun _ hq ↦ by cases hq⟩
    next t ht =>
      have hen : w.Enterable p := ⟨⟨t, expectArray_eq_ok_iff.1 ht⟩, hsym, hprop⟩
      rw [openAt]
      split
      next heq =>
        split at heq
        · obtain ⟨rfl, -⟩ := Prod.mk.inj heq
          exact ⟨ha, fun _ hq ↦ by cases hq⟩
        · cases (Prod.mk.inj heq).2
      next w₁ e heq =>
        split at heq
        · cases (Prod.mk.inj heq).2
        next l _ =>
          obtain ⟨rfl, he⟩ := Prod.mk.inj heq
          obtain rfl := Except.ok.inj he
          have hv₁ := (quietly_openElement hv p l Heap.admits_of_mem_nil).valid hv
          have ho := hp.editable_openElement hv hen l
          have hp' := ho.entered_element hv₁ (hen.bindings_openElement hv l)
          exact ih hp' (acyclic_openElement ha hv Heap.admits_of_mem_nil l) hv₁
            (fun _ he ↦ by cases he) fun _ he ↦ by cases he

/-- **A change of the array at the end of a path keeps a heap acyclic.** -/
theorem acyclic_editFrom (hp : w.Entered borrowed p) (ha : w.heap.Acyclic) (hv : w.Valid)
    (hsym : ∀ name, p ≠ .symbols name) (hprop : ∀ o, p ≠ .properties o) {path : List Label}
    {e : Edit Label Value} (hm : ∀ v ∈ e.operands, v ∈ w.held) {r : Except ValueError (List Outcome)}
    (hr : w.editFrom p path borrowed e = some (w', r)) : w'.heap.Acyclic := by
  obtain ⟨ha₁, hen⟩ := entered_followWriting hp ha hv hsym hprop (path.map Label.toValue)
  obtain ⟨hq, hent⟩ := quietly_followWriting hv hsym hprop (path.map Label.toValue)
  rw [editFrom] at hr
  split at hr
  next heq =>
    rw [heq] at ha₁
    exact acyclic_of_some hr ha₁
  next w₁ q heq =>
    rw [heq] at ha₁ hen hq hent
    exact acyclic_edit (hen q rfl) (hent q rfl) ha₁ (hq.valid hv)
      (fun v hmem ↦ hq.held_subset (hm v hmem)) hr

end SharedValue.Workspace
