import SharedValue.Proofs.Program
import SharedValue.Proofs.Workspace.Variables

/-!
# What a statement does to a workspace

The commands of a program are built from the operations of a workspace, so each of them is quiet up
to one change (`Carries.effect`), and every value that it gives is held when it ends
(`Carries.holds`). The main results are about programs: a statement keeps a workspace valid
(`valid_step`), and so every workspace that a program leads to is valid (`Reachable.valid`).
-/

namespace SharedValue.Workspace

variable {w w' w'' : Workspace} {ε : Type} {may : String → Key → Prop}

/-- What carrying out an operation with a result comes to. -/
structure Carries (w : Workspace) (may : String → Key → Prop) (w' : Workspace)
    (r : Except ε (List Outcome)) : Prop where
  effect : w.Effect may w'
  /-- Every value in the result is held. -/
  holds : ∀ {os : List Outcome}, r = .ok os → ∀ {v : Value}, .value v ∈ os → v ∈ w'.held

/-! ### What is held -/

theorem Quiet.held_subset (hq : w.Quiet w') : w.held ⊆ w'.held := by
  cases hq with
  | hold ha => exact List.subset_append_left _ _
  | _ => exact List.Subset.refl _

theorem Quietly.held_subset (hq : w.Quietly w') : w.held ⊆ w'.held := by
  induction hq with
  | refl => exact List.Subset.refl _
  | tail _ hq ih => exact List.Subset.trans ih hq.held_subset

theorem carries_error (hq : w.Quietly w') (e : ε) : w.Carries may w' (.error e) :=
  ⟨.quiet hq, fun hr ↦ nomatch hr⟩

/-- A result without values. -/
theorem carries_of_no_value (he : w.Effect may w') {r : Except ε (List Outcome)}
    (hr : ∀ os, r = .ok os → ∀ v, .value v ∉ os) : w.Carries may w' r :=
  ⟨he, fun {os} hos {v} hv ↦ absurd hv (hr os hos v)⟩

theorem Quietly.trans_carries {r : Except ε (List Outcome)} (hq : w.Quietly w')
    (hc : w'.Carries may w'' r) : w.Carries may w'' r :=
  ⟨hq.trans_effect hc.effect, hc.holds⟩

/-- A value that is given is held. -/
theorem carries_hold (he : w.Effect may w') {v : Option Value}
    (ha : ∀ u, v = some u → w'.heap.Admits u) :
    w.Carries may (w'.hold v.toList) (.ok (v.toList.map .value) : Except ε (List Outcome)) := by
  refine ⟨he.trans_quietly (quietly_hold fun u hu ↦ ha u (by simpa using hu)) rfl rfl, ?_⟩
  intro os hos u hu
  rw [← Except.ok.inj hos] at hu
  exact List.mem_append_right _ (by simpa using hu)

theorem carries_giving (hq : w.Quietly w') {v : Option Value}
    (ha : ∀ u, v = some u → w'.heap.Admits u) : w.Carries may (w'.giving v).1 (w'.giving v).2 :=
  carries_hold (.quiet hq) ha

/-- A value that is always given. -/
theorem carries_giving_some (hq : w.Quietly w') {v : Value} (ha : w'.heap.Admits v) :
    w.Carries may (w'.giving (some v)).1 (w'.giving (some v)).2 :=
  carries_giving hq fun _ hu ↦ Option.some.inj hu ▸ ha

/-! ### Acts -/

/-- Whether the operands of an act are admitted. -/
def AdmitsAct (h : Heap) : Act → Prop
  | .assign v | .replace v | .overwrite v | .push v => h.Admits v
  | .read | .isBound | .diagnose => True

theorem quietly_act (hv : w.Valid) (e : Element) (borrowed : List CellId) {a : Act}
    (ha : AdmitsAct w.heap a) : w.Quietly (w.act e borrowed a).1 := by
  cases a with
  | read => exact quietly_hold (Heap.admits_read hv.heap e).of_mem_singleton
  | assign v => exact quietly_assign hv e ha
  | replace v =>
    have hq := quietly_replace hv e ha
    refine hq.trans (quietly_hold fun u hu ↦ ?_)
    rw [List.mem_singleton.1 hu]
    exact hq.admits (Heap.admits_replace hv.heap e v)
  | overwrite v => exact quietly_overwrite hv e ha
  | isBound => exact .refl w
  | diagnose => exact .refl w
  | push v =>
    have hq := quietly_push hv (.element e) (v := v) ha
    rw [act]
    split
    · exact .refl w
    · split <;> next heq =>
        rw [heq] at hq
        exact hq

theorem mem_held_of_act {e : Element} {borrowed : List CellId} {a : Act} {v : Value}
    (hv : (w.act e borrowed a).2 = .ok (.value v)) : v ∈ (w.act e borrowed a).1.held := by
  cases a with
  | read =>
    obtain rfl : w.heap.read e = v := by simpa [act] using hv
    exact List.mem_append_right _ (List.mem_singleton_self _)
  | replace u =>
    obtain rfl : (w.replace e u).2 = v := by simpa [act] using hv
    exact List.mem_append_right _ (List.mem_singleton_self _)
  | push u =>
    rw [act] at hv
    split at hv
    · cases hv
    · split at hv <;> cases hv
  | _ => simp [act] at hv

theorem AdmitsAct.quietly {a : Act} (ha : AdmitsAct w.heap a) (hq : w.Quietly w') :
    AdmitsAct w'.heap a := by
  cases a with
  | read => trivial
  | isBound => trivial
  | diagnose => trivial
  | _ => exact hq.admits ha

theorem carries_perform (hv : w.Valid) (e : Element) (borrowed : List CellId) {acts : List Act}
    (ha : ∀ a ∈ acts, AdmitsAct w.heap a) :
    w.Quietly (w.perform e borrowed acts).1 ∧
      w.Carries may (w.perform e borrowed acts).1 (w.perform e borrowed acts).2 := by
  induction acts generalizing w with
  | nil =>
    refine ⟨.refl w, .quiet (.refl w), fun {os} hr v hmem ↦ ?_⟩
    rw [← Except.ok.inj hr] at hmem
    cases hmem
  | cons a rest ih =>
    have hq := quietly_act hv e borrowed (ha a List.mem_cons_self)
    have hheld := @mem_held_of_act w e borrowed a
    rw [perform]
    split
    next w₁ err heq =>
      rw [heq] at hq
      exact ⟨hq, carries_error hq err⟩
    next w₁ o heq =>
      rw [heq] at hq hheld
      have hrest := ih (hq.valid hv) fun b hb ↦ (ha b (List.mem_cons_of_mem _ hb)).quietly hq
      split
      next w₂ err heq₂ =>
        rw [heq₂] at hrest
        exact ⟨hq.trans hrest.1, carries_error (hq.trans hrest.1) err⟩
      next w₂ os heq₂ =>
        rw [heq₂] at hrest
        refine ⟨hq.trans hrest.1, .quiet (hq.trans hrest.1), fun {os} hr v hmem ↦ ?_⟩
        rw [← Except.ok.inj hr] at hmem
        rcases List.mem_cons.1 hmem with rfl | hmem
        · exact hrest.1.held_subset (hheld rfl)
        · exact hrest.2.holds rfl hmem

/-! ### Keys and operands -/

theorem admits_operand (hv : w.Valid) (name : String) : w.heap.Admits (w.operand name) :=
  hv.admits_valueAt (fun _ he ↦ nomatch he) fun _ he ↦ nomatch he

theorem sound_of_operand_reference (hv : w.Valid) {name : String} {c : CellId}
    (hc : w.operand name = .reference c) : w.heap.Sound (.cell c) :=
  Heap.admits_reference_iff.1 (hc ▸ admits_operand hv name)

theorem sound_of_operand_object (hv : w.Valid) {name : String} {o : ObjectId}
    (ho : w.operand name = .object o) : w.heap.Sound (.object o) :=
  Heap.admits_object_iff.1 (ho ▸ admits_operand hv name)

theorem quietly_newStr (w : Workspace) (b : Bytes) : w.Quietly (w.newStr b).1 :=
  quietly_heap (Heap.quietly_newStr w.heap b)

theorem quietly_keySource (w : Workspace) (k : KeyTerm) : w.Quietly (w.keySource k).1 := by
  rw [keySource.eq_def]
  split
  · exact .refl w
  · exact .refl w
  · exact quietly_newStr w _

theorem quietly_labelOf (w : Workspace) (k : KeyTerm) : w.Quietly (w.labelOf k).1 :=
  quietly_keySource w k

theorem quietly_labelsOf (w : Workspace) (ks : List KeyTerm) : w.Quietly (w.labelsOf ks).1 := by
  induction ks generalizing w with
  | nil => exact .refl w
  | cons k rest ih =>
    have hq := quietly_labelOf w k
    rw [labelsOf]
    split
    next heq =>
      rw [heq] at hq
      exact hq
    next w₁ l heq =>
      rw [heq] at hq
      have hrest := hq.trans (ih w₁)
      split <;> next heq₁ =>
        rw [heq₁] at hrest
        exact hrest

theorem quietly_keySources (hv : w.Valid) (pairs : List (KeyTerm × String)) :
    w.Quietly (w.keySources pairs).1 ∧
      ∀ q ∈ (w.keySources pairs).2, (w.keySources pairs).1.heap.Admits q.2 := by
  induction pairs generalizing w with
  | nil => exact ⟨.refl w, fun _ hq ↦ nomatch hq⟩
  | cons q rest ih =>
    obtain ⟨k, name⟩ := q
    have hq := quietly_keySource w k
    have hrest := ih (hq.valid hv)
    have hall := hq.trans hrest.1
    refine ⟨hall, fun q hmem ↦ ?_⟩
    rcases List.mem_cons.1 hmem with rfl | hmem
    · exact admits_operand (hall.valid hv) name
    · exact hrest.2 q hmem

theorem admits_deedOf (hv : w.Valid) {deeds : List (Deed String)} {v : Value}
    (hmem : v ∈ (deeds.map w.deedOf).filterMap Deed.operand?) : w.heap.Admits v := by
  obtain ⟨d, hd, hop⟩ := List.mem_filterMap.1 hmem
  obtain ⟨d, -, rfl⟩ := List.mem_map.1 hd
  cases d with
  | read => cases hop
  | _ => exact Option.some.inj hop ▸ admits_operand hv _

theorem quietly_withLabel {α : Type} (w : Workspace) (k : KeyTerm) (f : Label → α) :
    w.Quietly (w.withLabel k f).1 := by
  have hq := quietly_labelOf w k
  rw [withLabel]
  split <;> next heq =>
    rw [heq] at hq
    exact hq

theorem exists_label_of_withLabel {α : Type} {k : KeyTerm} {f : Label → α} {a : α}
    (ha : (w.withLabel k f).2 = .ok a) : ∃ l, a = f l := by
  rw [withLabel] at ha
  split at ha
  · cases ha
  next l _ => exact ⟨l, (Except.ok.inj ha).symm⟩

/-- Looking up the keys and operands of a change is quiet. -/
theorem quietly_editOf (w : Workspace) (e : Edit KeyTerm String) : w.Quietly (w.editOf e).1 := by
  cases e with
  | insert k name => exact quietly_withLabel w k _
  | unset k => exact quietly_withLabel w k _
  | extend pairs =>
    have hq := quietly_labelsOf w (pairs.map (·.1))
    rw [editOf]
    split <;> next heq =>
      rw [heq] at hq
      exact hq
  | «open» k deeds => exact quietly_withLabel w k _
  | _ => exact .refl w

/-- The operands of a change are what registers hold. -/
theorem admits_editOf (hv : w.Valid) {e : Edit KeyTerm String} {e' : Edit Label Value}
    (he : (w.editOf e).2 = .ok e') : ∀ v ∈ e'.operands, w.heap.Admits v := by
  intro v hmem
  cases e with
  | clear =>
    rw [← Except.ok.inj he] at hmem
    cases hmem
  | insert k name =>
    obtain ⟨l, rfl⟩ := exists_label_of_withLabel he
    rw [List.mem_singleton.1 hmem]
    exact admits_operand hv name
  | push name =>
    rw [← Except.ok.inj he] at hmem
    rw [List.mem_singleton.1 hmem]
    exact admits_operand hv name
  | unset k =>
    obtain ⟨l, rfl⟩ := exists_label_of_withLabel he
    cases hmem
  | extend pairs =>
    rw [editOf] at he
    split at he
    · cases he
    · rw [← Except.ok.inj he] at hmem
      obtain ⟨p, hp, rfl⟩ := List.mem_map.1 hmem
      obtain ⟨q, -, hop⟩ := List.mem_map.1 (List.of_mem_zip hp).2
      exact hop ▸ admits_operand hv q.2
  | «open» k deeds =>
    obtain ⟨l, rfl⟩ := exists_label_of_withLabel he
    exact admits_deedOf hv hmem
  | append deeds =>
    rw [← Except.ok.inj he] at hmem
    exact admits_deedOf hv hmem

/-- The acts of deeds whose operands are admitted. -/
theorem admitsAct_of_operands {h : Heap} {deeds : List (Deed Value)}
    (ha : ∀ v ∈ deeds.filterMap Deed.operand?, h.Admits v) {a : Act}
    (hmem : a ∈ deeds.map Deed.act) : AdmitsAct h a := by
  obtain ⟨d, hd, rfl⟩ := List.mem_map.1 hmem
  cases d with
  | read => trivial
  | _ => exact ha _ (List.mem_filterMap.2 ⟨_, hd, rfl⟩)

/-! ### Entering an array -/

/-- Where writing may lead: a place with an array that is none of a table of variables or of an
object. -/
def Enterable (w : Workspace) (p : Place) : Prop :=
  (∃ t, w.valueAt p = .array t) ∧ (∀ name, p ≠ .symbols name) ∧ ∀ o, p ≠ .properties o

theorem quietly_followWriting (hv : w.Valid) {p : Place} (hsym : ∀ name, p ≠ .symbols name)
    (hprop : ∀ o, p ≠ .properties o) (path : List Value) : w.Quietly (w.followWriting p path).1 ∧
      ∀ q, (w.followWriting p path).2 = .ok q → (w.followWriting p path).1.Enterable q := by
  induction path generalizing w p with
  | nil =>
    rw [followWriting]
    split
    · exact ⟨.refl w, fun _ hq ↦ nomatch hq⟩
    next t ht =>
      refine ⟨.refl w, fun q hq ↦ ?_⟩
      rw [← Except.ok.inj hq]
      exact ⟨⟨t, expectArray_eq_ok_iff.1 ht⟩, hsym, hprop⟩
  | cons k path ih =>
    have hq := quietly_openAt hv p (.value k)
    rw [followWriting]
    split
    · exact ⟨.refl w, fun _ hq ↦ nomatch hq⟩
    · split
      next heq =>
        rw [heq] at hq
        exact ⟨hq, fun _ hq ↦ nomatch hq⟩
      next w₁ e heq =>
        rw [heq] at hq
        have hrest := ih (hq.valid hv) (p := .element e) (fun _ he ↦ nomatch he)
          fun _ he ↦ nomatch he
        exact ⟨hq.trans hrest.1, hrest.2⟩

theorem placeOf_ne_symbols (w : Workspace) (name n : String) : w.placeOf name ≠ .symbols n := by
  rw [placeOf]
  split <;> exact fun he ↦ nomatch he

theorem placeOf_ne_properties (w : Workspace) (name : String) (o : ObjectId) :
    w.placeOf name ≠ .properties o := by
  rw [placeOf]
  split <;> exact fun he ↦ nomatch he

/-! ### Changes of an array -/

theorem carries_performDeeds (hv : w.Valid) {e : Element} {borrowed : List CellId}
    {deeds : List (Deed Value)} (ha : ∀ v ∈ deeds.filterMap Deed.operand?, w.heap.Admits v)
    {r : Except ValueError (List Outcome)}
    (hr : w.performDeeds e borrowed deeds = some (w', r)) : w.Carries may w' r := by
  rw [performDeeds] at hr
  split at hr
  · cases hr
  · have hc : w.Carries may _ _ :=
      (carries_perform hv e borrowed fun a hmem ↦ admitsAct_of_operands ha hmem).2
    rw [Option.some.inj hr] at hc
    exact hc

/-- What `insertKey` and the like give is admitted. -/
theorem admits_insertKey (hv : w.Valid) {p : Place} {l : Label} {v old : Value}
    (ha : w.heap.Admits v) (ho : (w.insertKey p l v).2 = some old) :
    (w.insertKey p l v).1.heap.Admits old :=
  admits_storeKey hv ha.of_mem_singleton ha ho

theorem carries_edit (hv : w.Valid) {p : Place} (hp : w.Enterable p) {borrowed : List CellId}
    {e : Edit Label Value} (ha : ∀ v ∈ e.operands, w.heap.Admits v)
    {r : Except ValueError (List Outcome)} (hr : w.edit p borrowed e = some (w', r)) :
    w.Carries may w' r := by
  obtain ⟨⟨t, ht⟩, hsym, hprop⟩ := hp
  cases e with
  | clear =>
    obtain ⟨rfl, rfl⟩ := Prod.mk.inj (Option.some.inj hr)
    refine carries_of_no_value (.quiet (quietly_clear hv ht hsym)) fun os hos v hmem ↦ ?_
    rw [← Except.ok.inj hos] at hmem
    simp at hmem
  | insert l v =>
    have hva := ha v List.mem_cons_self
    have hq := quietly_storeKey hv p l hva.of_mem_singleton hva
    have hold : ∀ old, (w.insertKey p l v).2 = some old →
        (w.insertKey p l v).1.heap.Admits old := fun _ ↦ admits_insertKey hv hva
    rw [edit] at hr
    split at hr
    · cases hr
    · split at hr
      next w₁ old heq =>
        rw [← insertKey, heq] at hq
        rw [heq] at hold
        obtain ⟨rfl, rfl⟩ := Prod.mk.inj (Option.some.inj hr)
        exact carries_hold (.quiet hq) hold
  | push v =>
    have hq := quietly_push hv p (ha v List.mem_cons_self)
    rw [edit] at hr
    split at hr
    next heq =>
      rw [heq] at hq
      obtain ⟨rfl, rfl⟩ := Prod.mk.inj (Option.some.inj hr)
      exact carries_error hq _
    next heq =>
      rw [heq] at hq
      obtain ⟨rfl, rfl⟩ := Prod.mk.inj (Option.some.inj hr)
      refine carries_of_no_value (.quiet hq) fun os hos v hmem ↦ ?_
      rw [← Except.ok.inj hos] at hmem
      simp at hmem
  | unset l =>
    obtain ⟨rfl, rfl⟩ := Prod.mk.inj (Option.some.inj hr)
    have hb := bindings_tableAt hv hsym fun o ho ↦ absurd ho (hprop o)
    refine carries_of_no_value (effect_unsetKey hv p _ fun c ↦ find?_ne_binding hv hb _ c) ?_
    intro os hos v hmem
    rw [← Except.ok.inj hos] at hmem
    simp at hmem
  | extend pairs =>
    rw [edit] at hr
    split at hr
    · cases hr
    · obtain ⟨rfl, rfl⟩ := Prod.mk.inj (Option.some.inj hr)
      refine carries_of_no_value (.quiet (quietly_extend hv p fun q hq ↦ ?_)) fun os hos v hmem ↦ ?_
      · exact ha q.2 (List.mem_map_of_mem hq)
      · rw [← Except.ok.inj hos] at hmem
        simp at hmem
  | «open» l deeds =>
    have hq := quietly_openElement hv p l Heap.admits_of_mem_nil
    exact hq.trans_carries (carries_performDeeds (hq.valid hv) (fun v hmem ↦ hq.admits (ha v hmem))
      hr)
  | append deeds =>
    have hq := quietly_append hv p Heap.admits_of_mem_nil
    rw [edit] at hr
    split at hr
    next heq =>
      rw [heq] at hq
      obtain ⟨rfl, rfl⟩ := Prod.mk.inj (Option.some.inj hr)
      exact carries_error hq _
    next heq =>
      rw [heq] at hq
      exact hq.trans_carries (carries_performDeeds (hq.valid hv)
        (fun v hmem ↦ hq.admits (ha v hmem)) hr)

theorem carries_editFrom (hv : w.Valid) {p : Place} (hsym : ∀ name, p ≠ .symbols name)
    (hprop : ∀ o, p ≠ .properties o) {path : List Label} {borrowed : List CellId}
    {e : Edit Label Value} (ha : ∀ v ∈ e.operands, w.heap.Admits v)
    {r : Except ValueError (List Outcome)} (hr : w.editFrom p path borrowed e = some (w', r)) :
    w.Carries may w' r := by
  obtain ⟨hq, henter⟩ := quietly_followWriting hv hsym hprop (path.map Label.toValue)
  rw [editFrom] at hr
  split at hr
  next heq =>
    rw [heq] at hq
    obtain ⟨rfl, rfl⟩ := Prod.mk.inj (Option.some.inj hr)
    exact carries_error hq _
  next w₁ q heq =>
    rw [heq] at hq henter
    exact hq.trans_carries (carries_edit (hq.valid hv) (henter q rfl)
      (fun v hmem ↦ hq.admits (ha v hmem)) hr)

/-- Preparing a change is quiet, and its operands are admitted. -/
theorem quietly_prepare (hv : w.Valid) (path : List KeyTerm) (e : Edit KeyTerm String) :
    w.Quietly (w.prepare path e).1 ∧ ∀ ls e', (w.prepare path e).2 = .ok (ls, e') →
      ∀ v ∈ e'.operands, (w.prepare path e).1.heap.Admits v := by
  have hq₁ := quietly_labelsOf w path
  rw [prepare]
  split
  next heq =>
    rw [heq] at hq₁
    exact ⟨hq₁, fun _ _ he ↦ nomatch he⟩
  next w₁ ls heq =>
    rw [heq] at hq₁
    have hq₂ := quietly_editOf w₁ e
    split
    next heq₂ =>
      rw [heq₂] at hq₂
      exact ⟨hq₁.trans hq₂, fun _ _ he ↦ nomatch he⟩
    next w₂ e' heq₂ =>
      have ha := admits_editOf (hq₁.valid hv) (by rw [heq₂])
      rw [heq₂] at hq₂
      have hq₃ : w₂.Quietly (w₂.hold e'.operands) :=
        quietly_hold fun v hmem ↦ hq₂.admits (ha v hmem)
      refine ⟨hq₁.trans (hq₂.trans hq₃), fun ls' e'' he v hmem ↦ ?_⟩
      obtain ⟨-, rfl⟩ := Prod.mk.inj (Except.ok.inj he)
      exact hq₃.admits (hq₂.admits (ha v hmem))

theorem carries_editTarget (hv : w.Valid) {target : Target} {e : Edit KeyTerm String}
    {r : Except ValueError (List Outcome)} (hr : w.editTarget target e = some (w', r)) :
    w.Carries may w' r := by
  obtain ⟨hq, ha⟩ := quietly_prepare hv target.path e
  rw [editTarget] at hr
  split at hr
  next heq =>
    rw [heq] at hq
    obtain ⟨rfl, rfl⟩ := Prod.mk.inj (Option.some.inj hr)
    exact carries_error hq _
  next w₁ path e' heq =>
    rw [heq] at hq ha
    exact hq.trans_carries (carries_editFrom (hq.valid hv) (placeOf_ne_symbols _ _)
      (placeOf_ne_properties _ _) (ha path e' rfl) hr)

theorem carries_editVariable (hv : w.Valid) {name : String} {k : KeyTerm} {path : List KeyTerm}
    {e : Edit KeyTerm String} {r : Except ValueError (List Outcome)}
    (hr : w.editVariable name k path e = some (w', r)) : w.Carries may w' r := by
  obtain ⟨hq, ha⟩ := quietly_prepare hv path e
  rw [editVariable] at hr
  split at hr
  next heq =>
    rw [heq] at hq
    obtain ⟨rfl, rfl⟩ := Prod.mk.inj (Option.some.inj hr)
    exact carries_error hq _
  next w₁ ls e' heq =>
    rw [heq] at hq ha
    have hq₁ := quietly_keySource w₁ k
    have hq₂ := hq₁.trans (quietly_openSymbol (hq₁.valid (hq.valid hv)) name (w₁.keySource k).2
      Heap.admits_of_mem_nil)
    dsimp only at hr
    split at hr
    next heq₂ =>
      rw [heq₂] at hq₂
      obtain ⟨rfl, rfl⟩ := Prod.mk.inj (Option.some.inj hr)
      exact carries_error (hq.trans hq₂) _
    next w₂ x heq₂ =>
      rw [heq₂] at hq₂
      exact (hq.trans hq₂).trans_carries (carries_editFrom (p := .element x)
        (hq₂.valid (hq.valid hv)) (fun _ he ↦ nomatch he) (fun _ he ↦ nomatch he)
        (fun v hmem ↦ hq₂.admits (ha ls e' rfl v hmem)) hr)

/-! ### Commands on arrays, cells and objects -/

theorem carries_of_some {x : Workspace × Except ε (List Outcome)} {r : Except ε (List Outcome)}
    (hc : w.Carries may x.1 x.2) (hr : some x = some (w', r)) : w.Carries may w' r := by
  rw [Option.some.inj hr] at hc
  exact hc

/-- Constants are built quietly, and building them cannot fail. -/
theorem exists_construct_constant (w : Workspace) (c : Constant) : ∃ w₁ v,
    w.construct c.literal = (w₁, .ok v) ∧ w.Quietly w₁ ∧ w₁.heap.Admits v := by
  cases c with
  | string b =>
    refine ⟨(w.newStr b).1, .string (w.newStr b).2, ?_, quietly_newStr w b,
      Heap.admits_string _⟩
    rw [Constant.literal, construct]
  | resource n kind =>
    have hq := quietly_newStr w kind
    refine ⟨{ (w.newStr kind).1 with
      heap := ((w.newStr kind).1.heap.newResource n (w.newStr kind).2).1 },
      .resource ((w.newStr kind).1.heap.newResource n (w.newStr kind).2).2, ?_,
      hq.trans (quietly_heap (.of_quiet (.newResource n _))), fun x hx ↦ ?_⟩
    · rw [Constant.literal, construct]
    · rw [← Option.some.inj hx]
      exact Heap.sound_newResource n _
  | _ =>
    refine ⟨w, _, by rw [Constant.literal, construct], .refl w, ?_⟩
    exact Heap.admits_of_handle?_eq_none rfl

theorem quietly_readingTarget (w : Workspace) (target : Target) :
    w.Quietly (w.readingTarget target).1 := by
  have hq := quietly_labelsOf w target.path
  rw [readingTarget]
  split <;> next heq =>
    rw [heq] at hq
    exact hq

theorem quietly_lookIn {α : Type} (w : Workspace) (t : Except ValueError TableId) (k : KeyTerm)
    (look : Heap → TableId → Key → α) : w.Quietly (w.lookIn t k look).1 := by
  rw [lookIn.eq_def]
  split
  · exact .refl w
  · exact quietly_withLabel w k _

/-- A value that is looked up is admitted. -/
theorem admits_lookIn (hv : w.Valid) {t : Except ValueError TableId} {k : KeyTerm} {v : Value}
    (hl : (w.lookIn t k fun h t k ↦ h.get? t k).2 = .ok (some v)) : w.heap.Admits v := by
  rw [lookIn.eq_def] at hl
  split at hl
  · cases hl
  · obtain ⟨l, hv'⟩ := exists_label_of_withLabel hl
    exact Heap.admits_get? hv.heap hv'.symm

theorem result_no_value {α : Type} {f : α → List Outcome} (hf : ∀ a v, .value v ∉ f a)
    {x : Except ValueError α} {os : List Outcome} (hos : result f x = .ok os) (v : Value) :
    .value v ∉ os := by
  cases x with
  | error e => cases hos
  | ok a => exact Except.ok.inj hos ▸ hf a v

theorem Carries.result_id {r : Except ValueError (List Outcome)} (hc : w.Carries may w' r) :
    w.Carries may w' (result id r) := by
  cases r with
  | error e => exact ⟨hc.effect, fun hos ↦ nomatch hos⟩
  | ok os => exact ⟨hc.effect, fun hos _ hmem ↦ hc.holds rfl (by rwa [← Except.ok.inj hos] at hmem)⟩

/-- The result of a change, as commands give it. -/
theorem carries_of_map_result {x : Option (Workspace × Except ValueError (List Outcome))}
    (hx : ∀ w₁ r₁, x = some (w₁, r₁) → w.Carries may w₁ r₁) {r : Except Failure (List Outcome)}
    (hr : x.map (fun (w, r) ↦ (w, result id r)) = some (w', r)) : w.Carries may w' r := by
  obtain ⟨⟨w₁, r₁⟩, hx₁, he⟩ := Option.map_eq_some_iff.1 hr
  obtain ⟨rfl, rfl⟩ := Prod.mk.inj he
  exact (hx w₁ r₁ hx₁).result_id

theorem carries_arrayCommand (hv : w.Valid) {c : ArrayCommand}
    {r : Except Failure (List Outcome)} (hr : w.arrayCommand c = some (w', r)) :
    w.Carries may w' r := by
  cases c with
  | constant c =>
    obtain ⟨w₁, v, heq, hq, ha⟩ := exists_construct_constant w c
    rw [arrayCommand, heq] at hr
    exact carries_of_some (carries_giving_some hq ha) hr
  | copy name => exact carries_of_some (carries_giving_some (.refl w) (admits_operand hv name)) hr
  | list names =>
    rw [arrayCommand] at hr
    split at hr
    next hlen =>
      have ha : ∀ v ∈ names.map w.operand, w.heap.Admits v := by
        intro v hmem
        obtain ⟨name, -, rfl⟩ := List.mem_map.1 hmem
        exact admits_operand hv name
      have hq := quietly_heap (w := w) (Heap.quietly_newList (by simpa using hlen) ha)
      exact carries_of_some (carries_giving_some hq (Heap.admits_array_iff.2
        (Heap.sound_newTable (Heap.bindings_ofList _)))) hr
    · cases hr
  | cell name =>
    have hq := quietly_heap (w := w) (.of_quiet (.newCell (admits_operand hv name)))
    exact carries_of_some (carries_giving_some hq (Heap.admits_reference_iff.2
      (Heap.sound_newCell _))) hr
  | object className name =>
    rw [arrayCommand] at hr
    split at hr
    next t ht =>
      have ha := admits_operand hv name
      rw [ht, Heap.admits_array_iff] at ha
      have hq := quietly_newStr w className
      have hq' := hq.trans (quietly_heap (.of_quiet (.newObject (w.newStr className).2
        (hq.heap_quietly.sound ha))))
      exact carries_of_some (carries_giving_some hq' (Heap.admits_object_iff.2
        (Heap.sound_newObject _ _))) hr
    · exact carries_of_some (carries_error (.refl w) _) hr
  | edit target e => exact carries_of_map_result (fun _ _ hx ↦ carries_editTarget hv hx) hr
  | get target k =>
    have hq := quietly_readingTarget w target
    have hq' := quietly_lookIn (w.readingTarget target).1 (w.readingTarget target).2 k
      fun h t k ↦ h.get? t k
    rw [arrayCommand] at hr
    dsimp only at hr
    split at hr
    next heq =>
      rw [heq] at hq'
      exact carries_of_some (carries_error (hq.trans hq') _) hr
    next w₁ v heq =>
      have ha := fun u ↦ admits_lookIn (v := u) (k := k) (hq.valid hv) (t := (w.readingTarget target).2)
      rw [heq] at hq' ha
      exact carries_of_some (carries_giving (hq.trans hq') fun u hu ↦
        hq'.admits (ha u (by rw [hu]))) hr
  | contains target k =>
    have hq := quietly_readingTarget w target
    have hq' := hq.trans (quietly_lookIn _ (w.readingTarget target).2 k
      fun h t k ↦ h.contains t k)
    exact carries_of_some (carries_of_no_value (.quiet hq') fun os hos ↦
      result_no_value (by simp) hos) hr
  | getProperty name k =>
    rw [arrayCommand] at hr
    split at hr
    next o ho =>
      have hq := quietly_lookIn w (.ok (w.heap.properties o)) k fun h t k ↦ h.get? t k
      split at hr
      next heq =>
        rw [heq] at hq
        exact carries_of_some (carries_error hq _) hr
      next w₁ v heq =>
        have ha := fun u ↦ admits_lookIn (v := u) (k := k) hv (t := .ok (w.heap.properties o))
        rw [heq] at hq ha
        exact carries_of_some (carries_giving hq fun u hu ↦ hq.admits (ha u (by rw [hu]))) hr
    · exact carries_of_some (carries_error (.refl w) _) hr
  | setProperty name k operand =>
    rw [arrayCommand] at hr
    split at hr
    next o ho =>
      have hva := admits_operand hv operand
      have hq := quietly_hold hva.of_mem_singleton
      have hq₁ := hq.trans (quietly_keySource _ k)
      have hq₂ := hq₁.trans (quietly_insert (hq₁.valid hv) (.properties o)
        (keySource (w.hold [w.operand operand]) k).2 (hq₁.admits hva))
      have hold := fun old (hi : (insert _ (.properties o)
          (keySource (w.hold [w.operand operand]) k).2 (w.operand operand)).2 = .ok (some old)) ↦
        admits_insert (hq₁.valid hv) (hq₁.admits hva) hi
      dsimp only at hr
      split at hr
      next heq =>
        rw [heq] at hq₂
        exact carries_of_some (carries_error hq₂ _) hr
      next w₁ old heq =>
        rw [heq] at hq₂ hold
        exact carries_of_some (carries_giving hq₂ fun u hu ↦ hold u (by rw [hu])) hr
    · exact carries_of_some (carries_error (.refl w) _) hr
  | unsetProperty name k =>
    rw [arrayCommand] at hr
    split at hr
    next o ho =>
      have hq := quietly_keySource w k
      have he : Effect _ may _ := effect_unset (hq.valid hv) (keySource w k).2
        (p := .properties o) (fun _ h ↦ nomatch h) fun o' h ↦ by
          rw [← Place.properties.inj h]
          exact hq.heap_quietly.sound (sound_of_operand_object hv ho)
      exact carries_of_some (carries_of_no_value (hq.trans_effect he) fun os hos ↦
        result_no_value (by simp) hos) hr
    · exact carries_of_some (carries_error (.refl w) _) hr
  | properties name =>
    rw [arrayCommand] at hr
    split at hr
    next o ho =>
      have hp := (hv.heap.sound_properties (sound_of_operand_object hv ho)).knows
      have hq := quietly_heap (w := w) (Heap.quietly_copyArray hv.heap (w.heap.properties o))
      exact carries_of_some (carries_giving_some hq (Heap.admits_array_iff.2
        (Heap.sound_copyArray hp))) hr
    · exact carries_of_some (carries_error (.refl w) _) hr
  | getCell name =>
    rw [arrayCommand] at hr
    split at hr
    next c hc =>
      exact carries_of_some (carries_giving_some (.refl w) (hv.heap.admits_cell c)) hr
    · exact carries_of_some (carries_error (.refl w) _) hr
  | setCell name operand =>
    rw [arrayCommand] at hr
    split at hr
    next c hc =>
      have hq := quietly_heap (w := w) (.of_quiet (.setCell (sound_of_operand_reference hv hc)
        (admits_operand hv operand)))
      exact carries_of_some (carries_giving_some hq (hq.admits (hv.heap.admits_cell c))) hr
    · exact carries_of_some (carries_error (.refl w) _) hr
  | drop name =>
    refine carries_of_some (carries_of_no_value (.quiet (quietly_dropRegister w name)) ?_) hr
    intro os hos v hmem
    rw [← Except.ok.inj hos] at hmem
    simp at hmem

/-! ### Commands on tables of variables -/

theorem symbolTables_keySource (w : Workspace) (k : KeyTerm) :
    (w.keySource k).1.symbolTables = w.symbolTables := by
  rw [keySource.eq_def]
  split <;> rfl

/-- The key of the variable that a command names. -/
def variableKey (w : Workspace) (s : String) (k : KeyTerm) : Except ValueError Key :=
  ((w.keySource k).1.symbolLabel s (w.keySource k).2).map (·.key)

/-- Whether a command may bind a name anew that is bound already: it binds that very name, or makes
the whole table of variables anew. -/
def Rebinds (w : Workspace) : Command → String → Key → Prop
  | .symbols s (.create _), name, _ => s = name
  | .symbols s (.bind k _), name, key => s = name ∧ w.variableKey s k = .ok key
  | _, _, _ => False

theorem variableKey_of_symbolLabel {k : KeyTerm} {name : String} {l : Label}
    (hl : (w.keySource k).1.symbolLabel name (w.keySource k).2 = .ok l) :
    w.variableKey name k = .ok l.key := by
  rw [variableKey, hl]
  rfl

theorem carries_create (w : Workspace) {name : String} (config : Config)
    (hmay : ∀ key, may name key) :
    w.Carries may (w.symbolCommand name (.create config)).1
      (w.symbolCommand name (.create config)).2 := by
  have he := effect_of_loud (.refl w) (.create name config hmay)
  refine carries_of_no_value he fun os hos v hmem ↦ ?_
  rw [← Except.ok.inj hos] at hmem
  simp at hmem

/-- What an iteration of a symbol table writes is admitted, into cells that are there. -/
theorem sound_writes (hv : w.Valid) (writes : List (String × String)) :
    ∀ p ∈ writes.filterMap (fun p ↦
      match w.operand p.1 with
      | .reference c => some (c, w.operand p.2)
      | _ => none), w.heap.Sound (.cell p.1) ∧ w.heap.Admits p.2 := by
  intro p hp
  obtain ⟨q, -, hq⟩ := List.mem_filterMap.1 hp
  split at hq
  next c hc =>
    rw [← Option.some.inj hq]
    exact ⟨sound_of_operand_reference hv hc, admits_operand hv q.2⟩
  · cases hq

theorem carries_symbolCommand (hv : w.Valid) {name : String} {s : SymbolTable}
    (hs : w.symbolTables.get? name = some s) {c : SymbolCommand}
    (hmay : ∀ {key}, w.Rebinds (.symbols name c) name key → may name key) :
    w.Carries may (w.symbolCommand name c).1 (w.symbolCommand name c).2 := by
  have hkey := fun k ↦ quietly_keySource w k
  have hthere : ∀ k, (w.keySource k).1.symbolTables.get? name = some s := fun k ↦ by
    rw [symbolTables_keySource, hs]
  cases c with
  | create config => exact carries_create w config fun _ ↦ hmay rfl
  | declare k =>
    have hv₁ := (hkey k).valid hv
    have he : w.Effect may _ :=
      (hkey k).trans_effect (effect_declareSymbol hv₁ (hthere k) (w.keySource k).2)
    have hc := fun c ↦ sound_declareSymbol hv₁ (hthere k) (k := (w.keySource k).2) (c := c)
    rw [symbolCommand]
    dsimp only
    split
    next heq =>
      rw [heq] at he
      exact ⟨he, fun hos ↦ by cases hos⟩
    next w₁ c heq =>
      rw [heq] at he hc
      refine carries_hold he fun u hu ↦ ?_
      rw [← Option.some.inj hu]
      exact Heap.admits_reference_iff.2 (hc c rfl)
  | bind k cell =>
    rw [symbolCommand]
    split
    next c hc =>
      have hsound := (hkey k).heap_quietly.sound (sound_of_operand_reference hv hc)
      have he := effect_bindSymbol ((hkey k).valid hv) (hthere k) hsound
        fun l hl ↦ hmay ⟨rfl, variableKey_of_symbolLabel hl⟩
      exact carries_of_no_value ((hkey k).trans_effect he) fun os hos ↦
        result_no_value (by simp) hos
    · exact carries_error (.refl w) _
  | get k =>
    rw [symbolCommand]
    dsimp only
    split
    · exact carries_error (hkey k) _
    next v hg =>
      refine carries_giving (hkey k) fun u hu ↦ ?_
      rw [hu] at hg
      exact admits_getSymbol ((hkey k).valid hv) hg
  | set k operand =>
    have hva := admits_operand hv operand
    have hq := quietly_hold hva.of_mem_singleton
    have hq₁ := hq.trans (quietly_keySource _ k)
    exact carries_of_no_value (.quiet (hq₁.trans (quietly_setSymbol (hq₁.valid hv) name _
      (hq₁.admits hva)))) fun os hos ↦ result_no_value (by simp) hos
  | «open» k deeds =>
    have hops : ∀ v ∈ (deeds.map w.deedOf).filterMap Deed.operand?, w.heap.Admits v :=
      fun v hmem ↦ admits_deedOf hv hmem
    have hq := quietly_hold hops
    have hq₁ := hq.trans (quietly_keySource _ k)
    have hq₂ := hq₁.trans (quietly_openSymbol (hq₁.valid hv) name
      (keySource (w.hold ((deeds.map w.deedOf).filterMap Deed.operand?)) k).2
      Heap.admits_of_mem_nil)
    rw [symbolCommand]
    dsimp only
    split
    next heq =>
      rw [heq] at hq₂
      exact carries_error hq₂ _
    next w₁ e heq =>
      rw [heq] at hq₂
      have hacts : ∀ a ∈ (deeds.map w.deedOf).map Deed.act, AdmitsAct w₁.heap a := fun a hmem ↦
        admitsAct_of_operands (fun v hmem ↦ hq₂.admits (hops v hmem)) hmem
      have hc : w₁.Carries may _ _ := (carries_perform (hq₂.valid hv) e [] hacts).2
      exact hq₂.trans_carries hc.result_id
  | contains k =>
    exact carries_of_no_value (.quiet (hkey k)) fun os hos ↦ result_no_value (by simp) hos
  | unset k =>
    exact carries_of_no_value ((hkey k).trans_effect
      (effect_unsetSymbol ((hkey k).valid hv) name _)) fun os hos ↦ result_no_value (by simp) hos
  | copy =>
    exact carries_giving_some (quietly_copySymbols hv name)
      (Heap.admits_array_iff.2 (sound_copySymbols hv hs))
  | snapshot =>
    exact carries_giving_some (quietly_snapshotSymbols hv name)
      (Heap.admits_array_iff.2 (sound_snapshotSymbols hv name))
  | iterate writes =>
    have hentries : ∀ e ∈ (w.heap.table (w.tableAt (.symbols name))).entries,
        ∀ x, e.slot.handle? = some x → w.heap.Sound x := fun e he x hx ↦
      Heap.sound_of_mem_entries hv.heap he hx
    obtain ⟨hq, ha⟩ := quietly_iterateWriting hv (sound_writes hv writes) hentries
    refine ⟨.quiet (hq.trans (quietly_hold fun v hmem ↦ ?_)), fun {os} hos v hmem ↦ ?_⟩
    · obtain ⟨p, hp, rfl⟩ := List.mem_map.1 hmem
      exact ha p hp
    · rw [← Except.ok.inj hos] at hmem
      obtain ⟨p, hp, he⟩ := List.mem_map.1 hmem
      exact List.mem_append_right _ (List.mem_map.2 ⟨p, hp, Outcome.value.inj he⟩)

/-! ### Statements and programs -/

theorem carries_carryOut (hv : w.Valid) {c : Command}
    (hmay : ∀ {name key}, w.Rebinds c name key → may name key) {r : Except Failure (List Outcome)}
    (hr : w.carryOut c = some (w', r)) : w.Carries may w' r := by
  cases c with
  | array c => exact carries_arrayCommand hv hr
  | symbols name c =>
    rw [carryOut] at hr
    split at hr
    next hthere =>
      cases hs : w.symbolTables.get? name with
      | some s => exact carries_of_some (carries_symbolCommand hv hs hmay) hr
      | none =>
        rw [Registry.get?_eq_none_iff.1 hs, Bool.or_false] at hthere
        cases c with
        | create config => exact carries_of_some (carries_create w config fun _ ↦ hmay rfl) hr
        | _ => cases hthere
    · exact carries_of_some (carries_error (.refl w) _) hr
  | editVariable name k path e =>
    rw [carryOut] at hr
    split at hr
    · exact carries_of_map_result (fun _ _ hx ↦ carries_editVariable hv hx) hr
    · exact carries_of_some (carries_error (.refl w) _) hr
  | collect pairs =>
    have hq := quietly_labelsOf w (pairs.map (·.1))
    rw [carryOut] at hr
    dsimp only at hr
    split at hr
    next heq =>
      rw [heq] at hq
      exact carries_of_some (carries_error hq _) hr
    next w₁ ls heq =>
      rw [heq] at hq
      have ha : ∀ q ∈ ls.zip (pairs.map fun p ↦ w.operand p.2), w₁.heap.Admits q.2 := by
        intro q hmem
        obtain ⟨p, -, hp⟩ := List.mem_map.1 (List.of_mem_zip hmem).2
        exact hp ▸ hq.admits (admits_operand hv p.2)
      have hv₁ := hq.valid hv
      exact carries_of_some (carries_giving_some (hq.trans (quietly_collect hv₁ ha))
        (Heap.admits_array_iff.2 (sound_collect hv₁ ha))) hr
  | fromPairs pairs =>
    obtain ⟨hq, ha⟩ := quietly_keySources hv pairs
    have hq' := hq.trans (quietly_newFromPairs (hq.valid hv) ha)
    have hsound := fun t ↦ sound_newFromPairs (t := t) (hq.valid hv) ha
    rw [carryOut] at hr
    dsimp only at hr
    split at hr
    next heq =>
      rw [heq] at hq'
      exact carries_of_some (carries_error hq' _) hr
    next w₁ t heq =>
      rw [heq] at hq' hsound
      exact carries_of_some (carries_giving_some hq' (Heap.admits_array_iff.2 (hsound t rfl))) hr
  | toArray name =>
    have ha := admits_operand hv name
    have hq := quietly_heap (w := w) (Heap.quietly_toArray hv.heap ha)
    have hsound := fun t ↦ Heap.sound_toArray (t := t) hv.heap ha
    rw [carryOut] at hr
    split at hr
    next heq =>
      obtain ⟨rfl, -⟩ := Prod.mk.inj heq
      exact carries_of_some (carries_error hq _) hr
    next w₁ t heq =>
      obtain ⟨rfl, ht⟩ := Prod.mk.inj heq
      exact carries_of_some (carries_giving_some hq (Heap.admits_array_iff.2 (hsound t ht))) hr
  | decode e =>
    have hq := quietly_heap (w := w) (Heap.quietly_decode hv.heap e)
    have ha := fun v ↦ Heap.admits_decode (v := v) (e := e) hv.heap
    rw [carryOut] at hr
    split at hr
    next heq =>
      rw [heq] at hq
      exact carries_of_some (carries_error hq _) hr
    next h v heq =>
      rw [heq] at hq ha
      exact carries_of_some (carries_giving_some hq (ha v rfl)) hr

theorem firstValue?_mem {os : List Outcome} {v : Value}
    (hf : firstValue? (.ok os) = some v) : .value v ∈ os := by
  rw [firstValue?] at hf
  obtain ⟨o, ho, hv⟩ := List.exists_of_findSome?_eq_some hf
  split at hv
  · rwa [← Option.some.inj hv]
  · cases hv

/-- **A statement is one change at most, up to quiet ones.** -/
theorem effect_step (hv : w.Valid) {s : Statement} {report : Report}
    (hmay : ∀ {name key}, w.Rebinds s.command name key → may name key)
    (hs : w.step s = some (w', report)) : ∃ w₁, w.Effect may w₁ ∧ w' = w₁.settle := by
  rw [step] at hs
  split at hs
  · cases hs
  next w₁ r heq =>
    obtain ⟨rfl, -⟩ := Prod.mk.inj (Option.some.inj hs)
    have hc := carries_carryOut hv hmay heq
    refine ⟨_, ?_, rfl⟩
    rw [deliver.eq_def]
    split
    next name v _ hf =>
      cases r with
      | error e => cases hf
      | ok os =>
        have ha := (hc.effect.valid hv).admits_held (hc.holds rfl (firstValue?_mem hf))
        exact hc.effect.trans_quietly (quietly_setRegister name ha) rfl rfl
    · exact hc.effect

/-- **A statement keeps a workspace valid.** -/
theorem valid_step (hv : w.Valid) {s : Statement} {report : Report}
    (hs : w.step s = some (w', report)) : w'.Valid := by
  obtain ⟨w₁, he, rfl⟩ : ∃ w₁, w.Effect (fun _ _ ↦ True) w₁ ∧ w' = w₁.settle :=
    effect_step hv (fun _ ↦ trivial) hs
  exact (he.valid hv).settle

theorem valid_run (hv : w.Valid) {program : List Statement} {reports : List Report}
    (hr : w.run program = some (w', reports)) : w'.Valid :=
  run_induction (fun hv hs ↦ valid_step hv hs) hv hr

/-- **Every workspace that a program leads to is valid.** -/
theorem Reachable.valid (hr : w.Reachable) : w.Valid := by
  obtain ⟨program, reports, hr⟩ := hr
  exact valid_run valid_empty hr

end SharedValue.Workspace
