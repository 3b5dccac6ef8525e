import Mathlib.Data.List.Lex
import SharedValue.Encode
import SharedValue.Proofs.Walk.Depth

/-!
# The graph of values

The children of a value are the elements of an array, the properties of an object and the content of
a reference. A position is a list of numbers that says which children to take, and positions in
lexicographic order are values in the order in which a walk from the left to the right meets them, a
value before what is in it.

What keeps a value from being encoded is an offence: a resource, or a cell or an object that is met
inside itself. `Heap.offenceAt?` looks at one position and says what is wrong there; it knows
nothing of marks, and looks at the values on the way only. There are no offences in what is come to
from a value exactly if there is no resource and no circle in it (`no_offence_iff`): a circle leads
through a cell or an object where no array contains itself.
-/

namespace SharedValue.Heap

variable {h : Heap} {t : TableId} {u v x : Value} {inside : List Value} {pos : List Nat}
  {err : EncodeError}

/-! ### Children -/

/-- The values that are in a value. -/
def children (h : Heap) : Value → List Value
  | .array t => h.values t
  | .object o => h.values (h.properties o)
  | .reference c => [h.cell c]
  | _ => []

/-- Whether the second value is in the first. -/
def Points (h : Heap) (u v : Value) : Prop := v ∈ h.children u

/-- Whether the second value is come to from the first, or is the same. -/
def Reaches (h : Heap) : Value → Value → Prop := Relation.ReflTransGen h.Points

/-- Whether a value is a cell or an object, which a walk enters. -/
def IsEntered (v : Value) : Prop := (∃ c, v = .reference c) ∨ ∃ o, v = .object o

/-- What a value points to is there. -/
theorem Valid.admits_of_points (hv : h.Valid) (hp : h.Points u v) : h.Admits v := by
  cases u with
  | array t => exact hv.admits_of_mem_values hp
  | object o => exact hv.admits_of_mem_values hp
  | reference c =>
    obtain rfl := List.mem_singleton.1 hp
    exact hv.admits_cell c
  | _ => cases hp

/-- And so is what it leads to. -/
theorem Valid.admits_of_transGen (hv : h.Valid) (hp : Relation.TransGen h.Points u v) :
    h.Admits v := by
  obtain ⟨_, -, hp⟩ := Relation.TransGen.tail'_iff.1 hp
  exact hv.admits_of_points hp

/-! ### Circles -/

/-- What is come to from an array is come to through a cell or an object, or through elements alone.
-/
private theorem exists_entered_or_child (hv : h.Valid) (ht : h.Sound (.table t))
    (hp : Relation.TransGen h.Points (.array t) v) :
    (∃ x, IsEntered x ∧ h.Reaches (.array t) x ∧ h.Reaches x v) ∨
      ∀ s, v = .array s → Relation.TransGen h.Child t s := by
  induction hp with
  | single hp =>
    right
    rintro s rfl
    exact .single (hv.child_of_mem_values ht hp)
  | @tail b c hb hp ih =>
    rcases ih with ⟨x, hx, htx, hxb⟩ | hchild
    · exact .inl ⟨x, hx, htx, hxb.tail hp⟩
    · have hentered : IsEntered b → ∃ x, IsEntered x ∧ h.Reaches (.array t) x ∧ h.Reaches x c :=
        fun hx ↦ ⟨b, hx, hb.to_reflTransGen, .single hp⟩
      cases b with
      | reference d => exact .inl (hentered (.inl ⟨d, rfl⟩))
      | object o => exact .inl (hentered (.inr ⟨o, rfl⟩))
      | array s =>
        right
        rintro s' rfl
        have hs := admits_array_iff.1 (hv.admits_of_transGen hb)
        exact (hchild s rfl).tail (hv.child_of_mem_values hs hp)
      | _ => cases hp

/-- **A circle leads through a cell or an object** where no array contains itself. -/
theorem exists_entered_of_circle (ha : h.Acyclic) (hv : h.Valid)
    (hu : Relation.TransGen h.Points u u) :
    ∃ x, IsEntered x ∧ h.Reaches u x ∧ Relation.TransGen h.Points x x := by
  cases u with
  | reference c => exact ⟨_, .inl ⟨c, rfl⟩, .refl, hu⟩
  | object o => exact ⟨_, .inr ⟨o, rfl⟩, .refl, hu⟩
  | array t =>
    have ht := admits_array_iff.1 (hv.admits_of_transGen hu)
    rcases exists_entered_or_child hv ht hu with ⟨x, hx, htx, hxt⟩ | hchild
    · exact ⟨x, hx, htx, (hu.trans_right hxt).trans_left htx⟩
    · obtain ⟨s, hc, hb⟩ := Relation.TransGen.head'_iff.1 (hchild t rfl)
      exact absurd hb (ha.not_below hc)
  | _ =>
    obtain ⟨b, hb, -⟩ := Relation.TransGen.head'_iff.1 hu
    cases hb

/-! ### Offences -/

/-- What is wrong with a value that is met inside others. -/
def offence? (h : Heap) (inside : List Value) : Value → Option EncodeError
  | .resource r => some (.resource (h.resourceHandle r) (h.resourceKind r).text)
  | .reference c => if .reference c ∈ inside then some .recursiveReference else none
  | .object o =>
    if .object o ∈ inside then some (.recursiveObject (h.className o).text) else none
  | _ => none

/-- What is wrong with the value at a position in a value that is met inside others. -/
def offenceAt? (h : Heap) (inside : List Value) (v : Value) : List Nat → Option EncodeError
  | [] => h.offence? inside v
  | i :: pos =>
    match (h.children v)[i]? with
    | none => none
    | some u => h.offenceAt? (v :: inside) u pos

/-- Whether a failure is the first offence that a walk from the left to the right meets. -/
def FirstOffence (h : Heap) (inside : List Value) (v : Value) (err : EncodeError) : Prop :=
  ∃ pos, h.offenceAt? inside v pos = some err ∧
    ∀ pos', pos' < pos → h.offenceAt? inside v pos' = none

theorem offenceAt?_cons {i : Nat} (hi : (h.children v)[i]? = some u) :
    h.offenceAt? inside v (i :: pos) = h.offenceAt? (v :: inside) u pos := by
  rw [offenceAt?, hi]

/-- There is one first offence at most. -/
theorem FirstOffence.eq {err' : EncodeError} (hf : h.FirstOffence inside v err)
    (hf' : h.FirstOffence inside v err') : err = err' := by
  obtain ⟨pos, he, hmin⟩ := hf
  obtain ⟨pos', he', hmin'⟩ := hf'
  rcases lt_trichotomy pos pos' with hlt | rfl | hlt
  · rw [hmin' pos hlt] at he
    cases he
  · exact Option.some.inj (he.symm.trans he')
  · rw [hmin pos' hlt] at he'
    cases he'

/-- Where nothing is wrong with a value nor with what is in it. -/
theorem offenceAt?_eq_none (hoff : h.offence? inside v = none)
    (hc : ∀ u ∈ h.children v, ∀ pos, h.offenceAt? (v :: inside) u pos = none) (pos : List Nat) :
    h.offenceAt? inside v pos = none := by
  cases pos with
  | nil => exact hoff
  | cons i pos =>
    cases hi : (h.children v)[i]? with
    | none => rw [offenceAt?, hi]
    | some u =>
      rw [offenceAt?_cons hi]
      exact hc u (List.mem_of_getElem? hi) pos

/-- The first offence in the first child that has one. -/
theorem FirstOffence.of_child {i : Nat} (hoff : h.offence? inside v = none)
    (hi : (h.children v)[i]? = some u) (hf : h.FirstOffence (v :: inside) u err)
    (hbefore : ∀ j < i, ∀ x, (h.children v)[j]? = some x →
      ∀ pos, h.offenceAt? (v :: inside) x pos = none) : h.FirstOffence inside v err := by
  obtain ⟨pos, he, hmin⟩ := hf
  refine ⟨i :: pos, (offenceAt?_cons hi).trans he, fun pos' hlt ↦ ?_⟩
  cases pos' with
  | nil => exact hoff
  | cons j pos' =>
    rcases List.cons_lt_cons_iff.1 hlt with hj | ⟨rfl, hrest⟩
    · cases hx : (h.children v)[j]? with
      | none => rw [offenceAt?, hx]
      | some x => exact (offenceAt?_cons hx).trans (hbefore j hj x hx pos')
    · exact (offenceAt?_cons hi).trans (hmin pos' hrest)

/-! ### Offences are circles and resources -/

/-- Whether a failure names a resource that is come to from a value, or a cell or an object that is
come to and is inside itself. -/
def Blames (h : Heap) (v : Value) : EncodeError → Prop
  | .resource n kind => ∃ r, n = h.resourceHandle r ∧ kind = (h.resourceKind r).text ∧
      h.Reaches v (.resource r)
  | .recursiveReference => ∃ c, h.Reaches v (.reference c) ∧
      Relation.TransGen h.Points (.reference c) (.reference c)
  | .recursiveObject name => ∃ o, name = (h.className o).text ∧ h.Reaches v (.object o) ∧
      Relation.TransGen h.Points (.object o) (.object o)
  | .recursiveArray => False

/-- A failure is to blame on what a value points to. -/
theorem Blames.of_points (hb : h.Blames u err) (hp : h.Points v u) : h.Blames v err := by
  cases err with
  | resource n kind =>
    obtain ⟨r, hn, hk, hr⟩ := hb
    exact ⟨r, hn, hk, .head hp hr⟩
  | recursiveReference =>
    obtain ⟨c, hr, hc⟩ := hb
    exact ⟨c, .head hp hr, hc⟩
  | recursiveObject name =>
    obtain ⟨o, hn, hr, ho⟩ := hb
    exact ⟨o, hn, .head hp hr, ho⟩
  | recursiveArray => exact hb

/-- An offence names what is to blame. -/
private theorem blames_of_offence (hin : ∀ x ∈ inside, Relation.TransGen h.Points x v)
    (ho : h.offence? inside v = some err) : h.Blames v err := by
  cases v with
  | resource r =>
    rw [← Option.some.inj ho]
    exact ⟨r, rfl, rfl, .refl⟩
  | reference c =>
    rw [offence?] at ho
    split at ho
    next hm =>
      rw [← Option.some.inj ho]
      exact ⟨c, .refl, hin _ hm⟩
    · cases ho
  | object o =>
    rw [offence?] at ho
    split at ho
    next hm =>
      rw [← Option.some.inj ho]
      exact ⟨o, rfl, .refl, hin _ hm⟩
    · cases ho
  | _ => cases ho

/-- **An offence is never laid to what is only met twice**: the cell or the object is inside itself.
-/
theorem blames_of_offenceAt (hin : ∀ x ∈ inside, Relation.TransGen h.Points x v)
    (ho : h.offenceAt? inside v pos = some err) : h.Blames v err := by
  induction pos generalizing inside v with
  | nil => exact blames_of_offence hin ho
  | cons i pos ih =>
    cases hi : (h.children v)[i]? with
    | none =>
      rw [offenceAt?, hi] at ho
      cases ho
    | some u =>
      rw [offenceAt?_cons hi] at ho
      have hp : h.Points v u := List.mem_of_getElem? hi
      refine (ih (fun x hx ↦ ?_) ho).of_points hp
      rcases List.mem_cons.1 hx with rfl | hx
      · exact .single hp
      · exact (hin x hx).tail hp

/-- A position at which what is come to is met, and what it is met inside of. -/
private theorem exists_position (hr : h.Reaches v u) (inside : List Value) :
    ∃ pos inside', inside ⊆ inside' ∧
      ∀ rest, h.offenceAt? inside v (pos ++ rest) = h.offenceAt? inside' u rest := by
  induction hr using Relation.ReflTransGen.head_induction_on generalizing inside with
  | refl => exact ⟨[], inside, fun _ hx ↦ hx, fun _ ↦ rfl⟩
  | @head v b hp _ ih =>
    obtain ⟨i, hi⟩ := List.mem_iff_getElem?.1 hp
    obtain ⟨pos, inside', hsub, hpos⟩ := ih (v :: inside)
    refine ⟨i :: pos, inside', fun _ hx ↦ hsub (List.mem_cons_of_mem _ hx), fun rest ↦ ?_⟩
    rw [List.cons_append, offenceAt?_cons hi, hpos]

/-- The same for what is come to by a step at least: it is met inside the value. -/
private theorem exists_position_inside (hr : Relation.TransGen h.Points v u) (inside : List Value) :
    ∃ pos inside', v ∈ inside' ∧ h.offenceAt? inside v pos = h.offence? inside' u := by
  obtain ⟨b, hp, hb⟩ := Relation.TransGen.head'_iff.1 hr
  obtain ⟨i, hi⟩ := List.mem_iff_getElem?.1 hp
  obtain ⟨pos, inside', hsub, hpos⟩ := exists_position hb (v :: inside)
  refine ⟨i :: (pos ++ []), inside', hsub List.mem_cons_self, ?_⟩
  rw [offenceAt?_cons hi, hpos]
  rfl

theorem offence?_ne_none (hx : IsEntered x) (hm : x ∈ inside) : h.offence? inside x ≠ none := by
  rcases hx with ⟨c, rfl⟩ | ⟨o, rfl⟩
  · rw [offence?, if_pos hm]
    exact Option.some_ne_none _
  · rw [offence?, if_pos hm]
    exact Option.some_ne_none _

/-- **There are no offences exactly where there is neither a circle nor a resource.** -/
theorem no_offence_iff (ha : h.Acyclic) (hv : h.Valid) (v : Value) :
    (∀ pos, h.offenceAt? [] v pos = none) ↔
      (∀ u, h.Reaches v u → ¬ Relation.TransGen h.Points u u) ∧
        ∀ r, ¬ h.Reaches v (.resource r) := by
  refine ⟨fun hnone ↦ ⟨fun u hu hcircle ↦ ?_, fun r hr ↦ ?_⟩, fun ⟨hcircle, hres⟩ pos ↦ ?_⟩
  · obtain ⟨x, hx, hux, hxx⟩ := exists_entered_of_circle ha hv hcircle
    obtain ⟨pos, inside, -, hpos⟩ := exists_position (hu.trans hux) []
    obtain ⟨pos', inside', hm, hpos'⟩ := exists_position_inside hxx inside
    refine offence?_ne_none (h := h) hx hm ?_
    rw [← hpos', ← hpos]
    exact hnone _
  · obtain ⟨pos, inside, -, hpos⟩ := exists_position hr []
    have hnil := (hpos []).symm.trans (hnone _)
    cases hnil
  · refine Option.eq_none_iff_forall_ne_some.2 fun err he ↦ ?_
    have hb := blames_of_offenceAt (fun _ hx ↦ by cases hx) he
    cases err with
    | resource n kind =>
      obtain ⟨r, -, -, hr⟩ := hb
      exact hres r hr
    | recursiveReference =>
      obtain ⟨c, hr, hc⟩ := hb
      exact hcircle _ hr hc
    | recursiveObject name =>
      obtain ⟨o, -, hr, ho⟩ := hb
      exact hcircle _ hr ho
    | recursiveArray => exact hb

end SharedValue.Heap
