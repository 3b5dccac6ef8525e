import SharedValue.Proofs.Acyclic.Clear

/-!
# Writing keeps a heap acyclic

One operation on the array at a place after the other: it separates the place, and then its table
gains values that are held, which do not lead there. So the heap stays acyclic, and whatever table
was clear before stays clear, which is what the next operation of a command rests on. Elements that
are open for writing are in clear tables, and acts on them keep these clear (`acyclic_perform`); the
one thing to look out for is that an act may give a value to be held, and this value must not lead
to the element either.
-/

namespace SharedValue.Workspace

variable {w w' : Workspace} {borrowed : List CellId} {t : TableId} {k : Key} {l : Label}
  {v : Value} {vs : List Value} {p : Place} {e : Element} {operands : List Value}

/-- Null leads nowhere. -/
theorem not_within_null {h : Heap} : ∀ v ∈ ({.null} : Set Value), ¬ h.Within t v := by
  rintro _ rfl
  exact Heap.not_within_of_ne_array fun _ he ↦ by cases he

theorem not_within_null_or {h : Heap} (hv : ¬ h.Within t v) :
    ∀ u ∈ ({.null, v} : Set Value), ¬ h.Within t u := by
  rintro u (rfl | rfl)
  · exact Heap.not_within_of_ne_array fun _ he ↦ by cases he
  · exact hv

theorem not_within_singleton {h : Heap} (hv : ¬ h.Within t v) :
    ∀ u ∈ ({v} : Set Value), ¬ h.Within t u := by
  rintro _ rfl
  exact hv

/-! ### Elements -/

section Open

variable (ha : w.heap.Acyclic) (hv : w.Valid) (hp : w.Entered borrowed p)
  (hops : ∀ v ∈ operands, w.heap.Admits v)

/-- Making an element ready puts at most a null into the separated table. -/
theorem gains_openElement (w : Workspace) (p : Place) (l : Label) (operands : List Value) :
    (w.separate p operands).1.heap.Gains (w.separate p operands).2 {.null}
      (w.openElement p l operands).1.heap := by
  rw [openElement_eq]
  exact Heap.gains_materialize _ _ rfl

include ha hv hops in
/-- So it makes no circle. -/
theorem acyclic_openElement (l : Label) : (w.openElement p l operands).1.heap.Acyclic :=
  (w.gains_openElement p l operands).acyclic (acyclic_separate ha hv hops) not_within_null

/-- An element that is opened is in a clear table. -/
theorem Entered.clear_openElement (hp : w.Entered borrowed p) (hv : w.Valid)
    (hops : ∀ v ∈ operands, w.heap.Admits v) (hk : w.heap.Knows (w.tableAt p)) (l : Label) :
    (w.openElement p l operands).1.Clear borrowed (w.openElement p l operands).2.table := by
  have hc := hp.clear_separate hv hops hk
  have hv₁ := (quietly_separate hv p hops).valid hv
  have hq := Heap.quietly_materialize hv₁.heap hc.knows.writable l.normalize_isNormal
  exact hc.gains (hq.knows hc.knows) (w.gains_openElement p l operands) not_within_null

end Open

/-! ### Storing under a key -/

/-- Assigning to a key puts the value and nulls into the separated table. -/
theorem gains_storeKey (w : Workspace) (p : Place) (l : Label) (v : Value) (operands : List Value) :
    (w.separate p operands).1.heap.Gains (w.separate p operands).2 {.null, v}
      (w.storeKey p l v operands).1.heap := by
  rw [storeKey_eq]
  exact Heap.gains_store _ _ (.inl rfl) (.inr rfl)

/-- It makes no circle either, because what is held does not lead back to the place. -/
theorem acyclic_storeKey (ha : w.heap.Acyclic) (hv : w.Valid) (hp : w.Entered borrowed p)
    (hops : ∀ v ∈ operands, w.heap.Admits v) (hm : v ∈ w.held) (l : Label) :
    (w.storeKey p l v operands).1.heap.Acyclic :=
  (w.gains_storeKey p l v operands).acyclic (acyclic_separate ha hv hops)
    (not_within_null_or (hp.not_within_separate hv hops hm))

/-- A clear table stays clear when a held value is stored. -/
theorem Clear.storeKey (hc : w.Clear borrowed t) (hv : w.Valid)
    (hops : ∀ v ∈ operands, w.heap.Admits v) (hm : v ∈ w.held) (l : Label) :
    (w.storeKey p l v operands).1.Clear borrowed t := by
  have hc₁ := hc.separate (p := p) hv hops
  refine hc₁.gains ((quietly_storeKey hv p l hops (hv.admits_held hm)).heap_quietly.knows hc.knows)
    (w.gains_storeKey p l v operands) (not_within_null_or (hc₁.held ?_))
  rwa [held_separate]

/-- And a place that is entered stays entered. -/
theorem Entered.storeKey (hp : w.Entered borrowed p) (hv : w.Valid)
    (hops : ∀ v ∈ operands, w.heap.Admits v) (hm : v ∈ w.held) (l : Label) :
    (w.storeKey p l v operands).1.Entered borrowed p := by
  cases p with
  | element e =>
    have hq := quietly_storeKey hv (.element e) l hops (hv.admits_held hm)
    exact ⟨hp.1.storeKey hv hops hm l, fun c hs ↦
      hp.2 c (Heap.Quietly.find?_binding hq.heap_quietly hp.1.knows hs)⟩
  | _ => exact hp

theorem held_storeKey (w : Workspace) (p : Place) (l : Label) (v : Value) (operands : List Value) :
    (w.storeKey p l v operands).1.held = w.held := by
  rw [storeKey_eq]
  exact w.held_separate p operands

/-- Assigning to any number of keys makes no circle, by induction on the pairs: the place is entered
after each of them. -/
theorem acyclic_extend (ha : w.heap.Acyclic) (hv : w.Valid) (hp : w.Entered borrowed p)
    {pairs : List (Label × Value)} (hm : ∀ q ∈ pairs, q.2 ∈ w.held) :
    (w.extend p pairs).heap.Acyclic := by
  induction pairs generalizing w with
  | nil => exact ha
  | cons q rest ih =>
    obtain ⟨l, v⟩ := q
    have hmv : v ∈ w.held := hm (l, v) List.mem_cons_self
    have hrest : ∀ q ∈ rest, q.2 ∈ w.held := fun q hq ↦ hm q (List.mem_cons_of_mem _ hq)
    have hops : ∀ u ∈ v :: rest.map (·.2), w.heap.Admits u := by
      intro u hu
      refine hv.admits_held ?_
      rcases List.mem_cons.1 hu with rfl | hu
      · exact hmv
      · obtain ⟨q, hq, rfl⟩ := List.mem_map.1 hu
        exact hrest q hq
    have hv₁ := (quietly_storeKey hv p l hops (hv.admits_held hmv)).valid hv
    have hheld := w.held_storeKey p l v (v :: rest.map (·.2))
    exact ih (acyclic_storeKey ha hv hp hops hmv l) hv₁ (hp.storeKey hv hops hmv l)
      fun q hq ↦ hheld ▸ hrest q hq

/-! ### Appending -/

/-- What appending comes to: nothing, or a separation and a new key with null. -/
theorem append_cases (w : Workspace) (p : Place) (operands : List Value) :
    w.append p operands = (w, .error .slotOccupied) ∨
      ∃ n, (w.heap.table (w.tableAt p)).find? (.int n) = none ∧ w.append p operands =
        ({ (w.separate p operands).1 with
            heap := (w.separate p operands).1.heap.setTable (w.separate p operands).2
              (((w.separate p operands).1.heap.table (w.separate p operands).2).insertNew
                (Label.int n) (.value .null)) },
          .ok ⟨(w.separate p operands).2, .int n⟩) := by
  rw [append]
  dsimp only
  split
  · exact .inl rfl
  next n _ =>
    split
    · exact .inl rfl
    next hs =>
      exact .inr ⟨n, Table.find?_eq_none_iff.2 (Bool.eq_false_iff.2 hs), rfl⟩

section Append

variable (hv : w.Valid) (hops : ∀ v ∈ operands, w.heap.Admits v)

include hv hops in
/-- What appending makes of the workspace after the separation. -/
theorem exists_gains_of_append (hr : (w.append p operands).2 = .ok e) :
    e.table = (w.separate p operands).2 ∧ (w.append p operands).1.held = w.held ∧
      (w.append p operands).1 = { (w.separate p operands).1 with
        heap := (w.append p operands).1.heap } ∧
      (w.separate p operands).1.heap.Gains (w.separate p operands).2 {.null}
        (w.append p operands).1.heap := by
  rcases w.append_cases p operands with he | ⟨n, hf, he⟩
  · rw [he] at hr
    cases hr
  · rw [he] at hr ⊢
    rw [← Except.ok.inj hr]
    refine ⟨rfl, w.held_separate p operands, rfl, Heap.gains_insertNew ?_ fun hz ↦ by cases hz⟩
    rw [table_separate hv p hops]
    exact hf

/-- Appending that fails has changed nothing. -/
theorem append_eq_self_of_error {err : ValueError} (hr : (w.append p operands).2 = .error err) :
    (w.append p operands).1 = w := by
  rcases w.append_cases p operands with he | ⟨n, -, he⟩
  · rw [he]
  · rw [he] at hr
    cases hr

include hv hops in
/-- Appending makes no circle. -/
theorem acyclic_append (ha : w.heap.Acyclic) : (w.append p operands).1.heap.Acyclic := by
  cases hr : (w.append p operands).2 with
  | error err => rwa [append_eq_self_of_error hr]
  | ok e =>
    obtain ⟨-, -, -, hg⟩ := exists_gains_of_append hv hops hr
    exact hg.acyclic (acyclic_separate ha hv hops) not_within_null

include hv hops in
theorem Clear.append (hc : w.Clear borrowed t) : (w.append p operands).1.Clear borrowed t := by
  cases hr : (w.append p operands).2 with
  | error err => rwa [append_eq_self_of_error hr]
  | ok e =>
    have hk := (quietly_append hv p hops).heap_quietly.knows hc.knows
    obtain ⟨-, -, he, hg⟩ := exists_gains_of_append hv hops hr
    rw [he] at hk ⊢
    exact (hc.separate hv hops).gains hk hg not_within_null

theorem Entered.clear_append (hp : w.Entered borrowed p) (hv : w.Valid)
    (hops : ∀ v ∈ operands, w.heap.Admits v) (hk : w.heap.Knows (w.tableAt p))
    (hr : (w.append p operands).2 = .ok e) : (w.append p operands).1.Clear borrowed e.table := by
  have hc := hp.clear_separate hv hops hk
  obtain ⟨ht, -, he, hg⟩ := exists_gains_of_append hv hops hr
  have hk' : (w.append p operands).1.heap.Knows (w.separate p operands).2 := by
    rcases w.append_cases p operands with herr | ⟨n, -, hok⟩
    · rw [herr] at hr
      cases hr
    · rw [hok]
      exact Heap.knows_setTable hc.knows hc.knows
  rw [ht]
  rw [he] at hk' ⊢
  exact hc.gains hk' hg not_within_null

end Append

/-- Assigning to an element puts the value into its table only. -/
theorem gains_assign (w : Workspace) (e : Element) (v : Value) :
    w.heap.Gains e.table {v} (w.assign e v).heap :=
  Heap.gains_replace e rfl

/-- Appending a value that is held makes no circle. -/
theorem acyclic_push (ha : w.heap.Acyclic) (hv : w.Valid) (hp : w.Entered borrowed p)
    (hm : v ∈ w.held) : (w.push p v).1.heap.Acyclic := by
  have hops := (hv.admits_held hm).of_mem_singleton
  have ha₁ := acyclic_append (p := p) hv hops ha
  rw [push]
  split
  next heq =>
    rw [heq] at ha₁
    exact ha₁
  next w₁ e heq =>
    obtain ⟨ht, -, -, hg⟩ := exists_gains_of_append (e := e) hv hops (by rw [heq])
    rw [heq] at ha₁ hg
    refine (gains_assign w₁ e v).acyclic ha₁ (not_within_singleton ?_)
    rw [ht]
    exact hg.not_within (hp.not_within_separate hv hops hm) not_within_null

theorem Clear.assign (hc : w.Clear borrowed t) (hv : w.Valid) (hm : v ∈ w.held) (e : Element) :
    (w.assign e v).Clear borrowed t :=
  hc.gains ((quietly_assign hv e (hv.admits_held hm)).heap_quietly.knows hc.knows)
    (gains_assign w e v) (not_within_singleton (hc.held hm))

theorem Clear.push (hc : w.Clear borrowed t) (hv : w.Valid) (hm : v ∈ w.held) :
    (w.push p v).1.Clear borrowed t := by
  have hops := (hv.admits_held hm).of_mem_singleton
  have hc₁ := hc.append (p := p) hv hops
  have hv₁ := (quietly_append hv p hops).valid hv
  rw [Workspace.push]
  split
  next heq =>
    rw [heq] at hc₁
    exact hc₁
  next w₁ e heq =>
    obtain ⟨-, hheld, -⟩ := exists_gains_of_append (e := e) hv hops (by rw [heq])
    rw [heq] at hc₁ hv₁ hheld
    exact hc₁.assign hv₁ (hheld ▸ hm) e

end SharedValue.Workspace
