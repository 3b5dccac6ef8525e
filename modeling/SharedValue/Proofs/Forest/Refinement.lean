import SharedValue.Proofs.Forest.Commands

/-!
# Sharing is not seen

A program of operations on arrays, cells and objects goes in step with the same program on a forest:
each of its statements gives the views that the forest gives, and whatever is at a root afterwards
shows the tree that the forest has there (`run_refines`). A forest has no sharing, so an array
behaves as if copying it had copied all its pairs, and those of the arrays nested in it.

Ending a statement delivers its result to a register and releases what nothing mentions. Neither is
seen from a root: what is inside a root is mentioned (`Represents.settle`).
-/

namespace SharedValue

/-! ### Readings of an array -/

/-- Whether the readings of an array are those of a list of pairs of trees. -/
structure Heap.Reads (h : Heap) (t : TableId) (ps : Pairs Tree) : Prop where
  /-- The pairs, in order. -/
  pairs : List.Forall₂ (fun p q ↦ p.1 = q.1 ∧ h.Shows p.2 q.2.shown) (h.pairs t) ps
  len : h.len t = ps.length
  isList : h.isList t = true ↔ ∀ (i : Nat) (k : Key), ps.keys[i]? = some k →
    k.int?.map Int64.toInt = some (i : Int)
  nextIndex : h.nextIndex t = nextKey ps.keys
  get : ∀ k, Option.Rel h.Shows (h.get? t k) (Forest.look ps k.normalize)
  contains : ∀ k, h.contains t k = (Forest.look ps k.normalize).isSome

namespace Heap

variable {h : Heap} {t : TableId} {ps : Pairs Tree}

/-- The pairs of an array are those of its tree, with null for what was never written. -/
theorem Shows.pairs_rel (hS : h.Shows (.array t) (.array ps)) :
    List.Forall₂ (fun p q ↦ p.1 = q.1 ∧ h.Shows p.2 q.2.shown) (h.pairs t) ps := by
  have hm := hS.matches_table
  rw [Table.Matches] at hm
  rw [Heap.pairs, Table.pairs_eq_slots, Table.slots]
  clear hS
  generalize (h.table t).entries = entries at hm
  induction hm with
  | nil => exact .nil
  | @cons e p _ _ hp _ ih =>
    obtain ⟨hkey, v, hslot, hv⟩ := hp
    rw [List.map_cons, hslot]
    exact .cons ⟨hkey, hv.shown⟩ ih

/-- The keys of an array are those of its tree. -/
theorem Shows.keys_eq (hS : h.Shows (.array t) (.array ps)) :
    (h.table t).keys h.cell = ps.keys := by
  have hrel := hS.pairs_rel
  rw [Heap.pairs] at hrel
  rw [Table.keys, Pairs.keys]
  clear hS
  generalize (h.table t).pairs h.cell = shown at hrel
  induction hrel with
  | nil => rfl
  | cons hp _ ih => rw [List.map_cons, List.map_cons, ih, hp.1]

/-- **An array that shows a list of pairs has its readings.** -/
theorem Shows.reads (hS : h.Shows (.array t) (.array ps)) (hv : h.Valid)
    (ht : h.Sound (.table t)) : h.Reads t ps where
  pairs := hS.pairs_rel
  len := by
    rw [Heap.len, Table.len, if_pos ht.bindings_eq_zero]
    exact hS.matches_table.length_eq
  isList := by
    rw [Heap.isList, Table.isList_iff, hS.keys_eq]
  nextIndex := by
    rw [Heap.nextIndex, (hv.table_wellFormed t).nextFree_eq_nextKey, hS.matches_table.keys_eq]
  get := get?_rel hS
  contains := contains_eq hS

end Heap

/-! ### What a change leaves alone -/

namespace Forest

variable {F F' F'' : Forest} {root : Root} {path : List Key} {k : Key} {S : Tree}

/-- Whether the trees at all roots but one, and but for the cells, are as they were. A cell may be
written to through a reference that stands in any array. -/
def Spares (root : Root) (F F' : Forest) : Prop :=
  ∀ r, r ≠ root → (∀ c, r ≠ .cell c) → F'.get r = F.get r

theorem Spares.refl (root : Root) (F : Forest) : Spares root F F := fun _ _ _ ↦ rfl

theorem Spares.trans (h : Spares root F F') (h' : Spares root F' F'') : Spares root F F'' :=
  fun r hne hcell ↦ (h' r hne hcell).trans (h r hne hcell)

/-- Another tree under a root spares the other roots. -/
theorem spares_put (F : Forest) (root : Root) (path : List Key) (S : Tree) :
    Spares root F (F.put root path S) :=
  fun _ hne _ ↦ get_set_of_ne F hne _

theorem spares_ready (F : Forest) (root : Root) (path : List Key) (k : Key) :
    Spares root F (F.ready root path k) := by
  rw [ready]
  split
  · exact spares_put F root path _
  · exact spares_put F root path _
  · exact .refl root F

/-- Assigning spares every root but the one in hand and the cells. -/
theorem spares_assign (F : Forest) (root : Root) (path : List Key) (k : Key) (S : Tree) :
    Spares root F (F.assign root path k S) := by
  rw [assign]
  split
  next c _ => exact fun _ _ hcell ↦ get_set_of_ne F (hcell c) S
  · exact spares_put F root path _

theorem spares_push (F : Forest) (root : Root) (path : List Key) (S : Tree) :
    Spares root F (F.push root path S).1 := by
  rw [push]
  split
  · exact .refl root F
  · exact spares_put F root path _

theorem spares_unset (F : Forest) (root : Root) (path : List Key) (k : Key) :
    Spares root F (F.unset root path k).1 := by
  rw [unset]
  split
  · exact .refl root F
  · exact spares_put F root path _

/-- Assigning to several keys spares them too, by induction on the pairs. -/
theorem spares_extend {pairs : List (Key × Tree)} (he : F.extend root path pairs = some F') :
    Spares root F F' := by
  induction pairs generalizing F with
  | nil =>
    obtain rfl := Option.some.inj he
    exact .refl root F
  | cons p rest ih =>
    obtain ⟨k, S⟩ := p
    rw [extend] at he
    split at he
    · cases he
    · exact (spares_assign F root path k S).trans (ih he)

/-- A deed changes the array that it is done in. -/
theorem spares_act {d : Deed Tree} {r : Except ValueError View}
    (ha : F.act root path k d = some (F', r)) : Spares root F F' := by
  cases d with
  | read =>
    obtain ⟨rfl, -⟩ := Prod.mk.inj (Option.some.inj ha)
    exact .refl root F
  | assign S =>
    rw [act] at ha
    split at ha
    · cases ha
    · obtain ⟨rfl, -⟩ := Prod.mk.inj (Option.some.inj ha)
      exact spares_assign F root path k S
  | replace S =>
    rw [act] at ha
    split at ha
    · cases ha
    · obtain ⟨rfl, -⟩ := Prod.mk.inj (Option.some.inj ha)
      exact spares_assign F root path k S
  | overwrite S =>
    obtain ⟨rfl, -⟩ := Prod.mk.inj (Option.some.inj ha)
    exact spares_put F root path _
  | push S =>
    rw [act] at ha
    split at ha
    · obtain ⟨rfl, -⟩ := Prod.mk.inj (Option.some.inj ha)
      exact .refl root F
    · obtain ⟨rfl, -⟩ := Prod.mk.inj (Option.some.inj ha)
      exact spares_push F root (path ++ [k]) S

/-- So does what is done to an element. -/
theorem spares_perform {deeds : List (Deed Tree)} {r : Except ValueError (List View)}
    (hp : F.perform root path k deeds = some (F', r)) : Spares root F F' := by
  induction deeds generalizing F r with
  | nil =>
    obtain ⟨rfl, -⟩ := Prod.mk.inj (Option.some.inj hp)
    exact .refl root F
  | cons d rest ih =>
    rw [perform] at hp
    split at hp
    · cases hp
    next F₁ err ha =>
      obtain ⟨rfl, -⟩ := Prod.mk.inj (Option.some.inj hp)
      exact spares_act ha
    next F₁ view ha =>
      obtain ⟨⟨F₂, r₂⟩, hrest, he⟩ := Option.map_eq_some_iff.1 hp
      obtain ⟨rfl, -⟩ := Prod.mk.inj he
      exact (spares_act ha).trans (ih hrest)

/-- And so does every change. -/
theorem spares_edit {e : Edit Key Tree} {r : Except ValueError (List View)}
    (he : F.edit root path e = some (F', r)) : Spares root F F' := by
  cases e with
  | clear =>
    obtain ⟨rfl, -⟩ := Prod.mk.inj (Option.some.inj he)
    exact spares_put F root path _
  | insert k S =>
    rw [edit] at he
    split at he
    · cases he
    · obtain ⟨rfl, -⟩ := Prod.mk.inj (Option.some.inj he)
      exact spares_assign F root path k S
  | push S =>
    obtain ⟨rfl, -⟩ := Prod.mk.inj (Option.some.inj he)
    exact spares_push F root path S
  | unset k =>
    obtain ⟨rfl, -⟩ := Prod.mk.inj (Option.some.inj he)
    exact spares_unset F root path k
  | extend pairs =>
    obtain ⟨F₁, hext, he⟩ := Option.map_eq_some_iff.1 he
    obtain ⟨rfl, -⟩ := Prod.mk.inj he
    exact spares_extend hext
  | «open» k deeds => exact (spares_ready F root path k).trans (spares_perform he)
  | append deeds =>
    have hpush := spares_push F root path .null
    rw [edit] at he
    split at he
    next F₁ err heq =>
      obtain ⟨rfl, -⟩ := Prod.mk.inj (Option.some.inj he)
      rwa [heq] at hpush
    next F₁ n heq =>
      rw [heq] at hpush
      exact hpush.trans (spares_perform he)

/-- Going down a path to write spares the other roots. -/
theorem spares_enter (F : Forest) (root : Root) (path keys : List Key) :
    Spares root F (F.enter root path keys).1 := by
  induction keys generalizing F path with
  | nil => exact .refl root F
  | cons k rest ih =>
    rw [enter]
    split
    · exact .refl root F
    · exact (spares_ready F root path k).trans (ih _ _)

/-- **A change of an array changes the tree at its own root**, and otherwise at most what cells
hold. -/
theorem spares_editTarget {target : Target} {e : Edit KeyTerm String}
    {r : Except ValueError (List View)} (he : F.editTarget target e = some (F', r)) :
    Spares (F.rootOf target.register) F F' := by
  rw [editTarget] at he
  split at he
  · obtain ⟨rfl, -⟩ := Prod.mk.inj (Option.some.inj he)
    exact .refl _ F
  next keys e' hc =>
    have henter := spares_enter F (F.rootOf target.register) [] keys
    split at he
    next F₁ err heq =>
      obtain ⟨rfl, -⟩ := Prod.mk.inj (Option.some.inj he)
      rwa [heq] at henter
    next F₁ path heq =>
      rw [heq] at henter
      exact henter.trans (spares_edit he)

/-- A statement that changes an array leaves the trees in other registers and in objects alone. -/
theorem get_step_of_ne {target : Target} {e : Edit KeyTerm String} {into : Option String}
    {r : Except Failure (List View)} (hs : F.step (.edit target e) into = some (F', r)) {root : Root}
    (hne : root ≠ F.rootOf target.register) (hcell : ∀ c, root ≠ .cell c)
    (hinto : ∀ name, into = some name → root ≠ .register name) : F'.get root = F.get root := by
  obtain ⟨⟨F₁, r₁⟩, hc, he⟩ := Option.map_eq_some_iff.1 hs
  obtain ⟨⟨F₂, r₂⟩, hedit, he'⟩ := Option.map_eq_some_iff.1 hc
  obtain ⟨rfl, rfl⟩ := Prod.mk.inj he'
  obtain ⟨rfl, -⟩ := Prod.mk.inj he
  have hdeliver : (F₂.deliver into (result id r₂)).get root = F₂.get root := by
    rw [deliver.eq_def]
    split
    next name S _ => exact get_set_of_ne F₂ (hinto name rfl) S
    · rfl
  exact hdeliver.trans (spares_editTarget hedit root hne hcell)

end Forest

/-! ### The end of a statement -/

/-- Whether what a statement reports shows what a forest gives. -/
def Report.Gives (report : Report) (r : Except Failure (List View)) : Prop :=
  Alike (List.Forall₂ (Outcome.Gives report.heap.Shows)) report.result r

namespace Workspace

variable {w w' : Workspace} {F F' : Forest} {root : Root} {x : TableId} {v : Value} {S : Tree}

/-- What is inside a root is mentioned when a command has ended. -/
theorem mem_mentioned_of_present (hp : w.settle.Present root)
    (hval : w.settle.valueAt root.place = .array x) : .table x ∈ w.mentioned := by
  have hold := holds_root hp hval
  cases root with
  | register name => exact mem_mentioned_of_register hold rfl
  | cell c => exact List.mem_append_right _ (Heap.mem_handles_of_cell hold rfl)
  | object o =>
    obtain ⟨r, hr, rfl⟩ := hold
    exact List.mem_append_right _ (Heap.mem_handles_of_object hr)

/-- A root that is there after a release was there before, with the same value. -/
theorem present_of_present_settle (hp : w.settle.Present root) :
    w.Present root ∧ w.settle.valueAt root.place = w.valueAt root.place := by
  have hpart := (released_settle w).part
  cases root with
  | register name => exact ⟨trivial, rfl⟩
  | cell c =>
    obtain ⟨v, hv⟩ := hp
    refine ⟨⟨v, hpart.cell hv⟩, ?_⟩
    show w.settle.heap.cell c = w.heap.cell c
    rw [Heap.cell, Heap.cell, hv, hpart.cell hv]
  | object o =>
    obtain ⟨r, hr⟩ := hp
    refine ⟨⟨r, hpart.object hr⟩, ?_⟩
    show Value.array (w.settle.heap.properties o) = .array (w.heap.properties o)
    rw [Heap.properties, Heap.properties, hr, hpart.object hr]
    rfl

/-- **The end of a command is not seen from a root.** -/
theorem Represents.settle (hr : w.Represents F) (hv : w.Valid) : w.settle.Represents F := by
  have hpart := (released_settle w).part
  have htallies : w.settle.Tallies F :=
    { registers := hr.tallies.registers
      cells := hr.tallies.cells.trans hpart.fresh_cells.symm
      objects := hr.tallies.objects.trans hpart.fresh_objects.symm
      resources := hr.tallies.resources.trans hpart.fresh_resources.symm
      resource := fun hi ↦ hr.tallies.resource (hpart.resource hi) }
  refine hr.congr hv htallies fun {r} hp ↦ ?_
  obtain ⟨hp', hval⟩ := present_of_present_settle hp
  refine ⟨hp', hval, fun {x} hx ↦ ?_⟩
  obtain ⟨y, hy, hb⟩ := hx
  rw [← hval] at hy
  exact (agree_settle (mem_mentioned_of_below (mem_mentioned_of_present hp hy) hb)).table

/-- A result that gives a value gives a tree that it shows. -/
theorem firstValue?_rel {r : Except Failure (List Outcome)} {r' : Except Failure (List View)}
    (ha : Alike w.Answers r r') : Option.Rel w.Offers (firstValue? r) (Forest.firstTree? r') := by
  cases ha with
  | error e => exact .none
  | @ok os views h =>
    show Option.Rel w.Offers (List.findSome? _ os) (List.findSome? _ views)
    induction h with
    | nil => exact .none
    | cons hg _ ih =>
      rw [List.findSome?_cons, List.findSome?_cons]
      cases hg with
      | value hS => exact .some hS
      | done => exact ih
      | flag b => exact ih
      | index n => exact ih

/-- Delivering a result. -/
theorem Represents.follows_deliver (hr : w.Represents F) (hv : w.Valid) (into : Option String)
    {r : Except Failure (List Outcome)} {r' : Except Failure (List View)}
    (ha : Alike w.Answers r r') : Follows w (w.deliver into r) (F.deliver into r') := by
  have hrel := firstValue?_rel ha
  rw [Workspace.deliver.eq_def, Forest.deliver.eq_def]
  generalize firstValue? r = ov at hrel
  generalize Forest.firstTree? r' = oS at hrel
  cases into with
  | none => cases hrel <;> exact hr.follows hv
  | some name =>
    cases hrel with
    | none => exact hr.follows hv
    | some ho =>
      have hp : w.Present (.register name) := trivial
      have hq := quietly_setRegister name (hv.admits_held ho.held)
      exact hr.follows_putAt hv hp trivial ho.shows (hq.valid hv)

/-! ### Statements and programs -/

/-- **A statement goes in step.** -/
theorem Represents.step (hr : w.Represents F) (hv : w.Valid) (c : ArrayCommand)
    (into : Option String) :
    Option.Rel (fun p q ↦ p.1.Represents q.1 ∧ p.2.Gives q.2) (w.step ⟨.array c, into⟩)
      (F.step c into) := by
  have hstep := hr.inStep_arrayCommand hv c
  have hcarry : w.carryOut (.array c) = w.arrayCommand c := rfl
  rw [Workspace.step, Forest.step, hcarry]
  generalize w.arrayCommand c = x at hstep
  generalize F.arrayCommand c = y at hstep
  cases hstep with
  | none => exact .none
  | some hf ha =>
    have hend := hf.represents.follows_deliver hf.valid into ha
    refine .some ⟨hend.represents.settle hend.valid, ?_⟩
    exact ha.imp fun hos ↦ hos.imp fun _ _ hg ↦ hg.imp Offers.shows

/-- The statements of a program on arrays, cells and objects. -/
def arrayProgram (program : List (ArrayCommand × Option String)) : List Statement :=
  program.map fun s ↦ ⟨.array s.1, s.2⟩

/-- **A program goes in step**, by induction on its statements. -/
theorem Represents.run (hr : w.Represents F) (hv : w.Valid)
    (program : List (ArrayCommand × Option String)) :
    Option.Rel (fun p q ↦ p.1.Represents q.1 ∧ List.Forall₂ Report.Gives p.2 q.2)
      (w.run (arrayProgram program)) (F.run program) := by
  induction program generalizing w F with
  | nil => exact .some ⟨hr, .nil⟩
  | cons s rest ih =>
    obtain ⟨c, into⟩ := s
    have hstep := hr.step hv c into
    have hvalid : ∀ {w' report}, w.step ⟨.array c, into⟩ = some (w', report) → w'.Valid :=
      fun hs ↦ valid_step hv hs
    rw [arrayProgram, List.map_cons, Workspace.run, Forest.run, ← arrayProgram]
    generalize w.step ⟨.array c, into⟩ = x at hstep hvalid
    generalize F.step c into = y at hstep
    cases hstep with
    | none => exact .none
    | @some p q h =>
      have hrest := ih h.1 (hvalid rfl)
      dsimp only
      generalize p.1.run (arrayProgram rest) = x' at hrest
      generalize q.1.run rest = y' at hrest
      cases hrest with
      | none => exact .none
      | some h' => exact .some ⟨h'.1, .cons h.2 h'.2⟩

/-- The empty workspace goes with the empty forest. -/
theorem represents_empty : empty.Represents .empty where
  tallies := ⟨fun _ ↦ rfl, rfl, rfl, rfl, fun hi ↦ nomatch hi⟩
  shows := fun {root} hp ↦ by
    cases root with
    | register name => exact Heap.shows_of_flat rfl
    | cell c => obtain ⟨v, hv⟩ := hp; cases hv
    | object o => obtain ⟨r, hr⟩ := hp; cases hr

/-- **Sharing is not seen.** A program on arrays, cells and objects has a result exactly if it has
one on a forest, where copying an array copies its pairs. Then each statement gives what it gives on
the forest, every register, cell and object shows its tree there, and so does each array nested in
one, in all its readings. In particular a change of an array leaves what any other register and any
object shows as it was. -/
theorem run_refines_forest (program : List (ArrayCommand × Option String)) :
    Option.Rel (fun p q ↦ p.1.Represents q.1 ∧ List.Forall₂ Report.Gives p.2 q.2 ∧
        ∀ {t ps}, p.1.heap.Sound (.table t) → p.1.heap.Shows (.array t) (.array ps) →
          p.1.heap.Reads t ps)
      (empty.run (arrayProgram program)) (Forest.empty.run program) ∧
    ∀ {w reports}, empty.run (arrayProgram program) = some (w, reports) →
      ∀ {target e into w' report},
        w.step ⟨.array (.edit target e), into⟩ = some (w', report) →
        ∀ {root}, root ≠ w.rootOf target.register → (∀ c, root ≠ .cell c) →
          (∀ name, into = some name → root ≠ .register name) → w.Present root → w'.Present root →
            ∃ S, w.heap.Shows (w.valueAt root.place) S ∧
              w'.heap.Shows (w'.valueAt root.place) S := by
  have hrun := represents_empty.run valid_empty program
  have hvalid : ∀ {w reports}, empty.run (arrayProgram program) = some (w, reports) → w.Valid :=
    fun hr ↦ valid_run valid_empty hr
  generalize empty.run (arrayProgram program) = x at hrun hvalid
  generalize Forest.empty.run program = y at hrun
  cases hrun with
  | none => exact ⟨.none, fun hr ↦ nomatch hr⟩
  | @some p q h =>
    obtain ⟨w, reports⟩ := p
    have hv := hvalid rfl
    refine ⟨.some ⟨h.1, h.2, fun ht hS ↦ hS.reads hv.heap ht⟩, fun {w₀ reports₀} hr ↦ ?_⟩
    obtain ⟨rfl, -⟩ := Prod.mk.inj (Option.some.inj hr)
    intro target e into w' report hs root hne hcell hinto hp hp'
    have hstep := h.1.step hv (.edit target e) into
    rw [hs] at hstep
    cases hF : q.1.step (.edit target e) into with
    | none =>
      rw [hF] at hstep
      cases hstep
    | some z =>
      rw [hF] at hstep
      cases hstep with
      | some hend =>
        rw [← h.1.rootOf_eq] at hne
        have hsame := Forest.get_step_of_ne hF hne hcell hinto
        exact ⟨_, h.1.shows hp, hsame ▸ hend.1.shows hp'⟩

/-- Puts a list into a list and copies that. -/
def nesting : List (ArrayCommand × Option String) :=
  [(.constant (.int 7), some "x"), (.list ["x"], some "a"), (.list ["a"], some "b"),
    (.copy "b", some "c")]

/-- Where that ends. -/
def nestedCopy : Workspace := ((empty.run (arrayProgram nesting)).map (·.1)).getD empty

/-- Appending to the inner list of the copy leaves the original as it was. -/
theorem run_refines_forest_nesting : ∃ reports w' report,
    empty.run (arrayProgram nesting) = some (nestedCopy, reports) ∧
      nestedCopy.step ⟨.array (.edit ⟨"c", [.key (.int 0)]⟩ (.push "x")), none⟩ = some (w', report) ∧
        ∃ S, nestedCopy.heap.Shows (nestedCopy.operand "b") S ∧
          w'.heap.Shows (w'.operand "b") S := by
  obtain ⟨reports, hrun⟩ :
      ∃ reports, empty.run (arrayProgram nesting) = some (nestedCopy, reports) := ⟨_, rfl⟩
  obtain ⟨w', report, hstep⟩ : ∃ w' report,
      nestedCopy.step ⟨.array (.edit ⟨"c", [.key (.int 0)]⟩ (.push "x")), none⟩ =
        some (w', report) := ⟨_, _, rfl⟩
  have hne : Root.register "b" ≠ nestedCopy.rootOf "c" := by decide
  have hcell : ∀ c, Root.register "b" ≠ .cell c := fun _ he ↦ nomatch he
  have hinto : ∀ name, none = some name → Root.register "b" ≠ .register name :=
    fun _ he ↦ nomatch he
  exact ⟨reports, w', report, hrun, hstep,
    (run_refines_forest nesting).2 hrun hstep hne hcell hinto trivial trivial⟩

end Workspace

end SharedValue
