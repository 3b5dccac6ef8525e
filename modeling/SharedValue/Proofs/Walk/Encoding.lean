import SharedValue.Proofs.Acyclic.Reachable
import SharedValue.Proofs.Walk.Graph
import SharedValue.Proofs.Walk.Marks

/-!
# Encoding reports exactly the offences

A value can be encoded exactly if nothing that is come to from it is a resource or lies on a circle,
and otherwise encoding fails with the first offence that a walk from the left to the right meets.
Each step of the walk is one lemma (`agrees_elements`, `agrees_content`), and that the walk is never
cut follows from what is ahead of it (`agrees_of_trail`).
-/

namespace SharedValue

namespace Heap

variable {h : Heap} {t : TableId} {v : Value} {inside : List Value} {path : List Handle}

/-- Whether a result of encoding a value that is met inside others is the right one: the first
offence if there is one. -/
def Agrees (h : Heap) (inside : List Value) (v : Value) : Except EncodeError Event → Prop
  | .ok _ => ∀ pos, h.offenceAt? inside v pos = none
  | .error err => h.FirstOffence inside v err

/-- A value that is wrong itself. -/
theorem agrees_of_offence {err : EncodeError} (ho : h.offence? inside v = some err) :
    h.Agrees inside v (.error err) :=
  ⟨[], ho, fun _ hlt ↦ absurd hlt (List.not_lt_nil _)⟩

/-- A value that has no children and is not wrong itself. -/
theorem agrees_leaf (ho : h.offence? inside v = none) (hc : h.children v = []) (e : Event) :
    h.Agrees inside v (.ok e) :=
  offenceAt?_eq_none ho fun u hu ↦ by
    rw [hc] at hu
    cases hu

/-! ### Elements -/

/-- If all elements are encoded, each has an encoding. -/
theorem encodeAll_eq_ok {encode : Value → Except EncodeError Event} {pairs : List (Key × Value)}
    {items : List (Key × Event)} (he : encodeAll encode pairs = .ok items) :
    ∀ u ∈ pairs.map (·.2), ∃ e, encode u = .ok e := by
  induction pairs generalizing items with
  | nil => exact fun _ hu ↦ by cases hu
  | cons p rest ih =>
    rw [encodeAll] at he
    split at he
    · cases he
    next e heq =>
      intro u hu
      rcases List.mem_cons.1 hu with rfl | hu
      · exact ⟨e, heq⟩
      · obtain ⟨bs, hrest, -⟩ := Except.map_eq_ok_iff.1 he
        exact ih hrest u hu

/-- If not, the failure is that of the first element without one. -/
theorem encodeAll_eq_error {encode : Value → Except EncodeError Event} {pairs : List (Key × Value)}
    {err : EncodeError} (he : encodeAll encode pairs = .error err) :
    ∃ (i : Nat) (u : Value), (pairs.map (·.2))[i]? = some u ∧ encode u = .error err ∧
      ∀ j < i, ∀ x, (pairs.map (·.2))[j]? = some x → ∃ e, encode x = .ok e := by
  induction pairs with
  | nil => cases he
  | cons p rest ih =>
    rw [encodeAll] at he
    split at he
    next e heq =>
      refine ⟨0, p.2, rfl, ?_, fun _ hj ↦ absurd hj (Nat.not_lt_zero _)⟩
      rw [heq, Except.error.inj he]
    next e heq =>
      cases hrest : encodeAll encode rest with
      | ok bs =>
        rw [hrest] at he
        cases he
      | error err' =>
        rw [hrest] at he
        obtain ⟨i, u, hi, hu, hbefore⟩ := ih (hrest.trans he)
        refine ⟨i + 1, u, hi, hu, fun j hj x hx ↦ ?_⟩
        cases j with
        | zero => exact ⟨e, Option.some.inj hx ▸ heq⟩
        | succ j => exact hbefore j (Nat.lt_of_succ_lt_succ hj) x hx

/-- **Elements in turn**: the result is right if it is for each of them. -/
theorem agrees_elements {encode : Value → Except EncodeError Event}
    (ho : h.offence? inside v = none)
    (hc : h.children v = h.values t)
    (hp : ∀ u ∈ h.values t, h.Agrees (v :: inside) u (encode u)) :
    h.Agrees inside v (h.encodeElements t encode) := by
  rw [encodeElements_eq]
  cases he : encodeAll encode (h.pairs t) with
  | ok items =>
    refine offenceAt?_eq_none ho fun u hu ↦ ?_
    rw [hc] at hu
    obtain ⟨e, heq⟩ := encodeAll_eq_ok he u hu
    have ha := hp u hu
    rwa [heq] at ha
  | error err =>
    obtain ⟨i, u, hi, heq, hbefore⟩ := encodeAll_eq_error he
    have ha := hp u (List.mem_of_getElem? hi)
    rw [heq] at ha
    refine FirstOffence.of_child (i := i) ho (by rw [hc]; exact hi) ha fun j hj x hx ↦ ?_
    rw [hc] at hx
    obtain ⟨e, heq'⟩ := hbefore j hj x hx
    have ha' := hp x (List.mem_of_getElem? hx)
    rwa [heq'] at ha'

/-- The content of a cell. -/
theorem agrees_content {r : Except EncodeError Event} {u : Value} (ho : h.offence? inside v = none)
    (hc : h.children v = [u]) (ha : h.Agrees (v :: inside) u r) : h.Agrees inside v r := by
  cases r with
  | ok e =>
    refine offenceAt?_eq_none ho fun x hx ↦ ?_
    rw [hc] at hx
    rw [List.mem_singleton.1 hx]
    exact ha
  | error err =>
    refine FirstOffence.of_child (i := 0) ho ?_ ha fun _ hj ↦ absurd hj (Nat.not_lt_zero _)
    rw [hc]
    rfl

/-! ### Walks -/

/-- Whether the cells and objects among the values on the way are those that a walk is inside of. -/
structure Tracks (inside : List Value) (path : List Handle) : Prop where
  cell : ∀ c, .cell c ∈ path ↔ .reference c ∈ inside
  object : ∀ o, .object o ∈ path ↔ .object o ∈ inside

theorem Tracks.nil : Tracks [] [] :=
  ⟨fun _ ↦ iff_of_false List.not_mem_nil List.not_mem_nil,
    fun _ ↦ iff_of_false List.not_mem_nil List.not_mem_nil⟩

/-- Entering an array leaves the path, since no array is marked. -/
theorem Tracks.array (ht : Tracks inside path) (t : TableId) :
    Tracks (.array t :: inside) path where
  cell c := by simp [ht.cell]
  object o := by simp [ht.object]

/-- Entering a cell through a reference adds the cell. -/
theorem Tracks.reference (ht : Tracks inside path) (c : CellId) :
    Tracks (.reference c :: inside) (.cell c :: path) where
  cell d := by simp [ht.cell]
  object o := by simp [ht.object]

/-- Entering an object adds it. -/
theorem Tracks.enter_object (ht : Tracks inside path) (o : ObjectId) :
    Tracks (.object o :: inside) (.object o :: path) where
  cell c := by simp [ht.cell]
  object o' := by simp [ht.object]

/-- Whether encoding a value inside of `path` at depth `n` gives the right result, and the same
result at every greater depth. -/
structure Settles (h : Heap) (inside : List Value) (path : List Handle) (n : Nat) (v : Value) :
    Prop where
  agrees : h.Agrees inside v (h.encodeWithin n path v)
  stable : ∀ {depth}, n ≤ depth → h.encodeWithin depth path v = h.encodeWithin n path v

/-- A walk that is settled at a depth is settled at any greater one. -/
theorem Settles.mono {n m : Nat} (hs : h.Settles inside path n v) (hle : n ≤ m) :
    h.Settles inside path m v where
  agrees := by
    rw [hs.stable hle]
    exact hs.agrees
  stable := fun hm ↦ (hs.stable (hle.trans hm)).trans (hs.stable hle).symm

/-- Encoding the elements is a matter of the encodings of their values. -/
theorem encodeAll_congr {f g : Value → Except EncodeError Event} {pairs : List (Key × Value)}
    (hfg : ∀ u ∈ pairs.map (·.2), f u = g u) : encodeAll f pairs = encodeAll g pairs := by
  induction pairs with
  | nil => rfl
  | cons p rest ih =>
    rw [encodeAll, encodeAll, hfg p.2 List.mem_cons_self,
      ih fun u hu ↦ hfg u (List.mem_cons_of_mem _ hu)]

/-- So is encoding an array. -/
theorem encodeElements_congr {f g : Value → Except EncodeError Event}
    (hfg : ∀ u ∈ h.values t, f u = g u) : h.encodeElements t f = h.encodeElements t g := by
  have hall : encodeAll f (h.pairs t) = encodeAll g (h.pairs t) := encodeAll_congr hfg
  rw [encodeElements_eq, encodeElements_eq, hall]

/-- An array, one level above its elements. -/
theorem settles_array {n : Nat}
    (hp : ∀ u ∈ h.values t, h.Settles (.array t :: inside) path n u) :
    h.Settles inside path (n + 1) (.array t) where
  agrees := by
    rw [encodeWithin]
    exact agrees_elements rfl rfl fun u hu ↦ (hp u hu).agrees
  stable := fun {depth} hle ↦ by
    cases depth with
    | zero => cases hle
    | succ depth =>
      rw [encodeWithin, encodeWithin]
      exact encodeElements_congr fun u hu ↦ (hp u hu).stable (Nat.le_of_succ_le_succ hle)

/-- An object, one level above its properties. -/
theorem settles_object {n : Nat} {o : ObjectId} (ht : Tracks inside path)
    (hp : .object o ∉ path → ∀ u ∈ h.values (h.properties o),
      h.Settles (.object o :: inside) (.object o :: path) n u) :
    h.Settles inside path (n + 1) (.object o) where
  agrees := by
    rw [encodeWithin]
    split
    next hm => exact agrees_of_offence (if_pos ((ht.object o).1 hm))
    next hn =>
      exact agrees_elements (if_neg fun hm ↦ hn ((ht.object o).2 hm)) rfl fun u hu ↦
        (hp hn u hu).agrees
  stable := fun {depth} hle ↦ by
    cases depth with
    | zero => cases hle
    | succ depth =>
      rw [encodeWithin, encodeWithin]
      split
      · rfl
      next hn =>
        exact encodeElements_congr fun u hu ↦ (hp hn u hu).stable (Nat.le_of_succ_le_succ hle)

/-- A reference, one level above the content of its cell. -/
theorem settles_reference {n : Nat} {c : CellId} (ht : Tracks inside path)
    (hp : .cell c ∉ path → h.Settles (.reference c :: inside) (.cell c :: path) n (h.cell c)) :
    h.Settles inside path (n + 1) (.reference c) where
  agrees := by
    rw [encodeWithin]
    split
    next hm => exact agrees_of_offence (if_pos ((ht.cell c).1 hm))
    next hn =>
      exact agrees_content (if_neg fun hm ↦ hn ((ht.cell c).2 hm)) rfl (hp hn).agrees
  stable := fun {depth} hle ↦ by
    cases depth with
    | zero => cases hle
    | succ depth =>
      rw [encodeWithin, encodeWithin]
      split
      · rfl
      next hn => exact (hp hn).stable (Nat.le_of_succ_le_succ hle)

/-- A value that is not gone into. -/
theorem settles_leaf (harray : ∀ t, v ≠ .array t) (hv : ¬ IsEntered v) (n : Nat) :
    h.Settles inside path n v := by
  cases v with
  | array t => exact absurd rfl (harray t)
  | object o => exact absurd (.inr ⟨o, rfl⟩) hv
  | reference c => exact absurd (.inl ⟨c, rfl⟩) hv
  | resource r =>
    refine ⟨?_, fun _ ↦ ?_⟩
    · rw [encodeWithin]
      exact agrees_of_offence rfl
    · rw [encodeWithin, encodeWithin]
  | _ =>
    refine ⟨?_, fun _ ↦ ?_⟩
    · rw [encodeWithin]
      exact agrees_leaf rfl rfl _
    · rw [encodeWithin, encodeWithin]

/-- **A walk is never cut**: what is ahead of it is enough. -/
theorem settles_of_trail (ha : h.Acyclic) (hv : h.Valid) (hva : h.Admits v)
    (hp : h.Trail path) (ht : Tracks inside path) :
    h.Settles inside path (h.ahead path v + 1) v := by
  induction hn : h.ahead path v using Nat.strongRecOn generalizing v inside path with
  | ind n ih =>
    cases v with
    | array t =>
      refine settles_array fun u hu ↦ ?_
      have hlt := ahead_lt_of_mem_values ha hv (admits_array_iff.1 hva) hu path
      rw [hn] at hlt
      exact (ih _ hlt (hv.admits_of_mem_values hu) hp (ht.array t) rfl).mono hlt
    | object o =>
      refine settles_object ht fun hm u hu ↦ ?_
      have hp' := hp.cons ⟨admits_object_iff.1 hva, .inr ⟨o, rfl⟩⟩ hm
      have hlt := ahead_lt_of_enter hp' u (.object o)
      rw [hn] at hlt
      exact (ih _ hlt (hv.admits_of_mem_values hu) hp' (ht.enter_object o) rfl).mono hlt
    | reference c =>
      refine settles_reference ht fun hm ↦ ?_
      have hp' := hp.cons ⟨admits_reference_iff.1 hva, .inl ⟨c, rfl⟩⟩ hm
      have hlt := ahead_lt_of_enter hp' (h.cell c) (.reference c)
      rw [hn] at hlt
      exact (ih _ hlt (hv.admits_cell c) hp' (ht.reference c) rfl).mono hlt
    | _ =>
      refine settles_leaf (fun _ he ↦ by cases he) (fun he ↦ ?_) _
      rcases he with ⟨c, he⟩ | ⟨o, he⟩ <;> cases he

/-- An object that is not there has no properties. -/
theorem values_of_not_sound {o : ObjectId} (hs : ¬ h.Sound (.object o)) :
    h.values (h.properties o) = [] := by
  have hprops : h.properties o = ⟨h.tables.fresh⟩ := by
    rw [properties, Option.eq_none_iff_forall_ne_some.2 fun r hr ↦ hs ⟨r, hr⟩]
    rfl
  have ht : h.table (h.properties o) = Table.empty := by
    rw [hprops, table, Store.get?_of_fresh_le (Nat.le_refl _)]
    rfl
  rw [values, ht]
  rfl

/-- **Encoding is settled** for every value, also one that mentions what is not there. -/
theorem settles (ha : h.Acyclic) (hv : h.Valid) (v : Value) : h.Settles [] [] h.extent v := by
  have hadm : ∀ {u inside}, h.Admits u → Tracks inside [] →
      h.Settles inside [] (h.extent - 1) u := fun {u _} hu ht ↦
    (settles_of_trail ha hv hu (.nil h) ht).mono (Nat.le_sub_one_of_lt (h.ahead_nil_lt_extent u))
  rw [h.extent_eq_add_one]
  by_cases hva : h.Admits v
  · exact (hadm hva .nil).mono (Nat.le_succ _)
  · cases v with
    | array t =>
      exact settles_array fun u hu ↦ hadm (hv.admits_of_mem_values hu) (Tracks.nil.array t)
    | object o =>
      refine settles_object .nil fun _ u hu ↦ ?_
      rw [values_of_not_sound fun hs ↦ hva (admits_object_iff.2 hs)] at hu
      cases hu
    | reference c =>
      refine settles_reference .nil fun _ ↦ ?_
      rw [cell_of_not_sound fun hs ↦ hva (admits_reference_iff.2 hs)]
      refine settles_leaf (fun _ he ↦ by cases he) (fun he ↦ ?_) _
      rcases he with ⟨d, he⟩ | ⟨o, he⟩ <;> cases he
    | _ =>
      refine settles_leaf (fun _ he ↦ by cases he) (fun he ↦ ?_) _
      rcases he with ⟨c, he⟩ | ⟨o, he⟩ <;> cases he

/-- Encoding gives the first offence, if there is one. -/
theorem encode_eq_error_iff (ha : h.Acyclic) (hv : h.Valid) (v : Value) (err : EncodeError) :
    h.encode v = .error err ↔ h.FirstOffence [] v err := by
  have hagrees := (settles ha hv v).agrees
  rw [encode]
  cases he : h.encodeWithin h.extent [] v with
  | ok e =>
    rw [he] at hagrees
    refine iff_of_false (fun heq ↦ by cases heq) fun ⟨pos, hpos, _⟩ ↦ ?_
    rw [hagrees pos] at hpos
    cases hpos
  | error err' =>
    rw [he] at hagrees
    refine ⟨fun heq ↦ Except.error.inj heq ▸ hagrees, fun hf ↦ ?_⟩
    rw [FirstOffence.eq hagrees hf]

/-- Encoding succeeds where there is no offence. -/
theorem exists_encode_eq_ok_iff (ha : h.Acyclic) (hv : h.Valid) (v : Value) :
    (∃ e, h.encode v = .ok e) ↔ ∀ pos, h.offenceAt? [] v pos = none := by
  have hagrees := (settles ha hv v).agrees
  rw [encode]
  cases he : h.encodeWithin h.extent [] v with
  | ok e =>
    rw [he] at hagrees
    exact iff_of_true ⟨e, rfl⟩ hagrees
  | error err =>
    rw [he] at hagrees
    obtain ⟨pos, hpos, -⟩ := hagrees
    refine iff_of_false (fun ⟨e, heq⟩ ↦ by cases heq) fun hnone ↦ ?_
    rw [hnone pos] at hpos
    cases hpos

end Heap

/-! ### Programs -/

namespace Workspace

variable {w : Workspace}

/-- **Encoding reports exactly the bad graphs.** In every workspace that a program leads to, a value
is encoded exactly if nothing that is come to from it is a resource or lies on a circle. Otherwise
the failure is the first offence from the left to the right, and it names a resource, or a cell or
an object that is inside itself. The walk that encodes the value comes to its end with that result
at any depth from `Heap.extent` on, and wherever it ends, it leaves the marks as it found them. -/
theorem Reachable.encoding_exact (hr : w.Reachable) (v : Value) :
    ((∃ e, w.heap.encode v = .ok e) ↔
      (∀ u, w.heap.Reaches v u → ¬ Relation.TransGen w.heap.Points u u) ∧
        ∀ r, ¬ w.heap.Reaches v (.resource r)) ∧
      (∀ err, w.heap.encode v = .error err ↔ w.heap.FirstOffence [] v err) ∧
      (∀ err, w.heap.encode v = .error err → w.heap.Blames v err) ∧
      (∀ depth, w.heap.extent ≤ depth → w.heap.encodeMarking depth v [] = (w.heap.encode v, [])) ∧
      ∀ depth m, (w.heap.encodeMarking depth v m).2 = m := by
  have ha := hr.acyclic
  have hv := hr.valid.heap
  have herr := Heap.encode_eq_error_iff ha hv v
  refine ⟨(Heap.exists_encode_eq_ok_iff ha hv v).trans (Heap.no_offence_iff ha hv v), herr,
    fun err he ↦ ?_, fun depth hle ↦ ?_, fun depth m ↦ ?_⟩
  · obtain ⟨pos, hpos, -⟩ := (herr err).1 he
    exact Heap.blames_of_offenceAt (fun _ hx ↦ by cases hx) hpos
  · rw [Heap.encodeMarking_eq, Heap.encode, (Heap.settles ha hv v).stable hle]
  · rw [Heap.encodeMarking_eq]

/-- The array refers to the cell that it is in. It has no encoding, the failure names the circle,
and no mark is left. -/
theorem Reachable.encoding_exact_circularEnd :
    circularEnd.Reachable ∧ (¬ ∃ e, circularEnd.heap.encode (.array ⟨0⟩) = .ok e) ∧
      circularEnd.heap.FirstOffence [] (.array ⟨0⟩) .recursiveReference ∧
      circularEnd.heap.Blames (.array ⟨0⟩) .recursiveReference ∧
      (circularEnd.heap.encodeMarking circularEnd.heap.extent (.array ⟨0⟩) []).2 = [] := by
  obtain ⟨hok, herr, hblames, -, hmarks⟩ := reachable_circularEnd.encoding_exact (.array ⟨0⟩)
  have he : circularEnd.heap.encode (.array ⟨0⟩) = .error .recursiveReference := by rfl
  refine ⟨reachable_circularEnd, fun ⟨e, hoke⟩ ↦ ?_, (herr _).1 he, hblames _ he, hmarks _ _⟩
  rw [he] at hoke
  cases hoke

end Workspace

end SharedValue
