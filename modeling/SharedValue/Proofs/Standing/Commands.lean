import SharedValue.Proofs.Standing.Operations

/-!
# Statements that leave an array standing

A command reaches an array through places: the register or the cell that a target names, a table of
variables, the properties of an object, and the elements that are opened on the way down. From all
of these the array in a register is apart as long as the register itself is not the target, so
whatever else a statement does, the array stands (`Standing.step`). New things never stand in its
way, for they are made in tables that were not there before. -/

namespace SharedValue

/-- Whether a command changes the array in a register under the name of that register, or empties
the register. -/
def Command.WritesTo (a : String) : Command → Prop
  | .array (.edit target _) => target.register = a
  | .array (.drop name) => name = a
  | _ => False

/-- Whether a statement neither changes the array in a register under the name of that register nor
puts its result there. -/
def Statement.LeavesAlone (a : String) (s : Statement) : Prop :=
  ¬ s.command.WritesTo a ∧ s.into ≠ some a

namespace Workspace

variable {w w' w'' : Workspace} {q : Named} {t u x : TableId} {p : Place} {e : Element}

/-! ### Elements that are apart -/

theorem Standing.insert (hst : w.Standing q t) (ha : w.Apart q t p) (k : KeySource) (v : Value) :
    w.Stands q t (w.insert p k v).1 := by
  rw [Workspace.insert]
  split
  · exact .refl w q t
  · exact hst.storeKey ha _ v [v]

theorem Standing.unset (hst : w.Standing q t) (ha : w.Apart q t p) (k : KeySource) :
    w.Stands q t (w.unset p k).1 := by
  rw [Workspace.unset]
  split
  · exact .refl w q t
  · exact hst.unsetKey ha _

theorem Standing.openAt (hst : w.Standing q t) (ha : w.Apart q t p) (k : KeySource) :
    w.Stands q t (w.openAt p k).1 ∧
      ∀ e, (w.openAt p k).2 = .ok e → ¬ (w.openAt p k).1.heap.Below t e.table := by
  rw [Workspace.openAt]
  split
  · exact ⟨.refl w q t, fun _ he ↦ by cases he⟩
  next l _ =>
    obtain ⟨hs, hb⟩ := hst.openElement ha l []
    exact ⟨hs, fun e he ↦ Except.ok.inj he ▸ hb⟩

/-- A path that starts apart ends apart. -/
theorem Standing.followWriting (hst : w.Standing q t) (ha : w.Apart q t p) (path : List Value) :
    w.Stands q t (w.followWriting p path).1 ∧
      ∀ p', (w.followWriting p path).2 = .ok p' → (w.followWriting p path).1.Apart q t p' := by
  induction path generalizing w p with
  | nil =>
    rw [Workspace.followWriting]
    split
    · exact ⟨.refl w q t, fun _ hp ↦ by cases hp⟩
    · exact ⟨.refl w q t, fun p' hp ↦ Except.ok.inj hp ▸ ha⟩
  | cons k path ih =>
    obtain ⟨hs, hb⟩ := hst.openAt ha (.value k)
    rw [Workspace.followWriting]
    split
    · exact ⟨.refl w q t, fun _ hp ↦ by cases hp⟩
    · split
      next heq =>
        rw [heq] at hs
        exact ⟨hs, fun _ hp ↦ by cases hp⟩
      next w₁ e heq =>
        rw [heq] at hs hb
        obtain ⟨hs', ha'⟩ := ih (hs.standing hst) (apart_element (hb e rfl))
        exact ⟨hs.trans hs', ha'⟩

theorem Standing.act (hst : w.Standing q t) (he : ¬ w.heap.Below t e.table)
    (borrowed : List CellId) (a : Act) : w.Stands q t (w.act e borrowed a).1 := by
  cases a with
  | read => exact stands_hold w q t _
  | assign v => exact hst.assign he v
  | replace v => exact (hst.replace he v).trans (stands_hold _ q t _)
  | overwrite v => exact hst.of_leaves_singleton (w.heap.leaves_write e v) he
  | isBound => exact .refl w q t
  | diagnose => exact .refl w q t
  | push v =>
    have hs := hst.push (apart_element he) v
    rw [Workspace.act]
    split
    · exact .refl w q t
    · split <;> next heq =>
        rw [heq] at hs
        exact hs

theorem Standing.perform (hst : w.Standing q t) (he : ¬ w.heap.Below t e.table)
    (borrowed : List CellId) (acts : List Act) : w.Stands q t (w.perform e borrowed acts).1 := by
  induction acts generalizing w with
  | nil => exact .refl w q t
  | cons a rest ih =>
    have hs := hst.act he borrowed a
    rw [Workspace.perform]
    split
    next heq =>
      rw [heq] at hs
      exact hs
    next w₁ o heq =>
      rw [heq] at hs
      have hrest := hs.trans (ih (hs.standing hst) fun hb ↦ he (hs.below_iff.1 hb))
      split <;> next heq₂ =>
        rw [heq₂] at hrest
        exact hrest

/-! ### Changes of an array -/

theorem stands_of_some {ε : Type} {r r' : ε} (hs : w.Stands q t w'')
    (hr : some (w'', r') = some (w', r)) : w.Stands q t w' :=
  (Prod.mk.inj (Option.some.inj hr)).1 ▸ hs

theorem Standing.performDeeds (hst : w.Standing q t) (he : ¬ w.heap.Below t e.table)
    {borrowed : List CellId} {deeds : List (Deed Value)} {r : Except ValueError (List Outcome)}
    (hr : w.performDeeds e borrowed deeds = some (w', r)) : w.Stands q t w' := by
  rw [Workspace.performDeeds] at hr
  split at hr
  · cases hr
  · exact stands_of_some (hst.perform he borrowed _) hr

/-- **A change of an array at a place that is apart.** -/
theorem Standing.edit (hst : w.Standing q t) (ha : w.Apart q t p) {borrowed : List CellId}
    {c : Edit Label Value} {r : Except ValueError (List Outcome)}
    (hr : w.edit p borrowed c = some (w', r)) : w.Stands q t w' := by
  cases c with
  | clear => exact stands_of_some (hst.clear ha) hr
  | insert l v =>
    rw [Workspace.edit] at hr
    split at hr
    · cases hr
    · exact stands_of_some ((hst.storeKey ha l v [v]).trans (stands_hold _ q t _)) hr
  | push v =>
    have hs := hst.push ha v
    rw [Workspace.edit] at hr
    split at hr <;> next heq =>
      rw [heq] at hs
      exact stands_of_some hs hr
  | unset l => exact stands_of_some (hst.unsetKey ha l.key) hr
  | extend pairs =>
    rw [Workspace.edit] at hr
    split at hr
    · cases hr
    · exact stands_of_some (hst.extend ha pairs) hr
  | «open» l deeds =>
    obtain ⟨hs, hb⟩ := hst.openElement ha l []
    exact hs.trans ((hs.standing hst).performDeeds hb hr)
  | append deeds =>
    obtain ⟨hs, hb⟩ := hst.append ha []
    rw [Workspace.edit] at hr
    split at hr
    next heq =>
      rw [heq] at hs
      exact stands_of_some hs hr
    next heq =>
      rw [heq] at hs hb
      exact hs.trans ((hs.standing hst).performDeeds (hb _ rfl) hr)

theorem Standing.editFrom (hst : w.Standing q t) (ha : w.Apart q t p) {path : List Label}
    {borrowed : List CellId} {c : Edit Label Value} {r : Except ValueError (List Outcome)}
    (hr : w.editFrom p path borrowed c = some (w', r)) : w.Stands q t w' := by
  obtain ⟨hs, hap⟩ := hst.followWriting ha (path.map Label.toValue)
  rw [Workspace.editFrom] at hr
  split at hr
  next heq =>
    rw [heq] at hs
    exact stands_of_some hs hr
  next p' heq =>
    rw [heq] at hs hap
    exact hs.trans ((hs.standing hst).edit (hap p' rfl) hr)

/-! ### Keys and operands -/

theorem stands_keySource (w : Workspace) (q : Named) (t : TableId) (k : KeyTerm) :
    w.Stands q t (w.keySource k).1 := by
  obtain ⟨n, source, heq, -⟩ := w.keySource_eq k
  rw [heq]
  exact stands_withBuffers w q t n

theorem stands_keySources (w : Workspace) (q : Named) (t : TableId)
    (pairs : List (KeyTerm × String)) : w.Stands q t (w.keySources pairs).1 := by
  induction pairs generalizing w with
  | nil => exact .refl w q t
  | cons p rest ih => exact (stands_keySource w q t p.1).trans (ih _)

theorem stands_labelsOf (w : Workspace) (q : Named) (t : TableId) (ks : List KeyTerm) :
    w.Stands q t (w.labelsOf ks).1 := by
  obtain ⟨n, r, heq, -⟩ := w.labelsOf_eq ks
  rw [heq]
  exact stands_withBuffers w q t n

theorem stands_prepare (w : Workspace) (q : Named) (t : TableId) (path : List KeyTerm)
    (c : Edit KeyTerm String) : w.Stands q t (w.prepare path c).1 := by
  rcases w.prepare_eq path c with ⟨n, err, heq, -⟩ | ⟨n, ls, c', heq, -⟩
  · rw [heq]
    exact stands_withBuffers w q t n
  · rw [heq]
    exact (stands_withBuffers w q t n).trans (stands_hold _ q t _)

theorem stands_lookIn {α : Type} (w : Workspace) (q : Named) (t : TableId)
    (s : Except ValueError TableId) (k : KeyTerm) (look : Heap → TableId → Key → α) :
    w.Stands q t (w.lookIn s k look).1 := by
  rw [lookIn.eq_def]
  split
  · exact .refl w q t
  next s =>
    obtain ⟨n, r, heq, -⟩ := w.withLabel_eq k fun l ↦ look w.heap s l.key
    rw [heq]
    exact stands_withBuffers w q t n

theorem stands_readingTarget (w : Workspace) (q : Named) (t : TableId) (target : Target) :
    w.Stands q t (w.readingTarget target).1 := by
  have hs := stands_labelsOf w q t target.path
  rw [readingTarget]
  split <;> next heq =>
    rw [heq] at hs
    exact hs

/-- A register other than the place of an array leads to a place that is apart. -/
theorem apart_placeOf {name : String} (hne : .register name ≠ q.place) :
    w.Apart q t (w.placeOf name) := by
  rw [placeOf]
  split
  · exact w.apart_content q t _
  · exact ⟨hne, fun he ↦ by cases he⟩

/-- Changing an array that is not named by the place of the array that stands. -/
theorem Standing.editTarget (hst : w.Standing q t) {target : Target}
    (hne : .register target.register ≠ q.place) {c : Edit KeyTerm String}
    {r : Except ValueError (List Outcome)} (hr : w.editTarget target c = some (w', r)) :
    w.Stands q t w' := by
  have hs := stands_prepare w q t target.path c
  rw [Workspace.editTarget] at hr
  split at hr
  next heq =>
    rw [heq] at hs
    exact stands_of_some hs hr
  next heq =>
    rw [heq] at hs
    exact hs.trans ((hs.standing hst).editFrom (apart_placeOf hne) hr)

theorem Stands.giving (hs : w.Stands q t w') (v : Option Value) : w.Stands q t (w'.giving v).1 :=
  hs.trans (stands_hold w' q t _)

/-! ### The array in a register -/

variable {a s : String}

/-- A table of variables is apart from the array in a register. -/
theorem apart_symbols (w : Workspace) (a : String) (t : TableId) (s : String) :
    w.Apart (.register a) t (.symbols s) :=
  ⟨fun h ↦ (by cases h), fun h ↦ by cases h⟩

theorem apart_properties (w : Workspace) (a : String) (t : TableId) (o : ObjectId) :
    w.Apart (.register a) t (.properties o) :=
  ⟨fun h ↦ (by cases h), fun h ↦ by cases h⟩

section Register

variable (hst : w.Standing (.register a) t)

include hst

theorem Standing.openSymbol (k : KeySource) (operands : List Value) :
    w.Stands (.register a) t (w.openSymbol s k operands).1 ∧
      ∀ e, (w.openSymbol s k operands).2 = .ok e →
        ¬ (w.openSymbol s k operands).1.heap.Below t e.table := by
  rw [Workspace.openSymbol]
  split
  · exact ⟨.refl w _ t, fun _ he ↦ by cases he⟩
  next l _ =>
    obtain ⟨hs, hb⟩ := hst.openElement (w.apart_symbols a t s) l operands
    exact ⟨hs, fun e he ↦ Except.ok.inj he ▸ hb⟩

theorem Standing.setSymbol (k : KeySource) (v : Value) :
    w.Stands (.register a) t (w.setSymbol s k v).1 := by
  obtain ⟨hs, hb⟩ := hst.openSymbol (s := s) k [v]
  rw [Workspace.setSymbol]
  split <;> next heq =>
    rw [heq] at hs hb
    first
      | exact hs
      | exact hs.trans ((hs.standing hst).assign (hb _ rfl) v)

theorem Standing.bindKey (l : Label) (c : CellId) :
    w.Stands (.register a) t (w.bindKey s l c) := by
  obtain ⟨hs, hb⟩ := hst.separate (w.apart_symbols a t s) []
  rw [bindKey_eq]
  exact hs.write hst (Heap.leaves_bind _ _ _ c) hb

theorem Standing.bindKey_newCell (v : Value) (l : Label) : w.Stands (.register a) t
    (Workspace.bindKey { w with heap := (w.heap.newCell v).1 } s l (w.heap.newCell v).2) := by
  have hs := hst.of_leaves_empty (w.heap.leaves_newCell v ∅)
  exact hs.trans ((hs.standing hst).bindKey l _)

theorem Standing.declareSymbol (k : KeySource) :
    w.Stands (.register a) t (w.declareSymbol s k).1 := by
  rw [Workspace.declareSymbol]
  split
  · exact .refl w _ t
  · split
    · exact .refl w _ t
    · exact hst.bindKey_newCell _ _
    · exact hst.bindKey_newCell _ _

theorem Standing.unsetSymbol (k : KeySource) : w.Stands (.register a) t (w.unsetSymbol s k).1 := by
  rw [Workspace.unsetSymbol]
  split
  · exact .refl w _ t
  · show w.Stands _ t (w.unsetSymbolKey s _)
    rw [unsetSymbolKey]
    split
    · exact .refl w _ t
    · exact hst.unsetKey (w.apart_symbols a t s) _
    · split
      · exact .refl w _ t
      · exact hst.of_leaves_empty (w.heap.leaves_setCell _ _ _)

theorem Standing.newSymbolTable (config : Config) :
    w.Stands (.register a) t (w.newSymbolTable s config) := by
  have hs := hst.of_leaves_empty (w.heap.leaves_newTable Table.empty)
  exact ⟨rfl, hs.fresh, hs.table⟩

theorem Standing.iterateWriting (writes : List (CellId × Value)) (entries : List Entry) :
    w.Stands (.register a) t (w.iterateWriting writes entries).1 := by
  induction hlen : entries.length using Nat.strongRecOn generalizing w entries with
  | ind n ih =>
    rw [Workspace.iterateWriting]
    split
    · exact .refl w _ t
    next shown rest hn =>
      have hs := hst.of_leaves_empty (w.heap.leaves_setCells writes)
      exact hs.trans
        (ih rest.length (hlen ▸ Table.length_lt_of_nextShown hn) (hs.standing hst) rest rfl)

/-! ### New arrays -/

theorem Standing.collect (pairs : List (Label × Value)) :
    w.Stands (.register a) t (w.collect pairs).1 :=
  hst.of_leaves_empty (.of_newTable (T := Table.empty) (Heap.leaves_storeAll _ _ pairs))

theorem Standing.assignPairs (hu : ¬ w.heap.Below t u) (pairs : List (KeySource × Value)) :
    w.Stands (.register a) t (w.assignPairs u pairs).1 := by
  induction pairs generalizing w with
  | nil => exact .refl w _ t
  | cons p rest ih =>
    rw [Workspace.assignPairs]
    split
    · exact .refl w _ t
    next l _ =>
      have hs := hst.of_leaves_singleton (w.heap.leaves_store u l.normalize p.2) hu
      exact hs.trans (ih (hs.standing hst) fun hb ↦ hu (hs.below_iff.1 hb))

theorem Standing.newFromPairs (pairs : List (KeySource × Value)) :
    w.Stands (.register a) t (w.newFromPairs pairs).1 := by
  have hs := hst.of_leaves_empty (w.heap.leaves_newTable Table.empty)
  have hall := hs.trans ((hs.standing hst).assignPairs (u := w.copyId)
    (fun hb ↦ Nat.lt_irrefl _ (hst.lt_fresh (hs.below_iff.1 hb))) pairs)
  rw [Workspace.newFromPairs]
  dsimp only
  split <;> next heq =>
    rw [show Workspace.assignPairs _ w.copyId pairs = _ from heq] at hall
    exact hall

theorem Standing.construct (c : Constant) :
    w.Stands (.register a) t (w.construct c.literal).1 := by
  cases c with
  | string b =>
    rw [Constant.literal, Workspace.construct]
    exact hst.of_leaves_empty (w.heap.leaves_newStr b _)
  | resource n kind =>
    rw [Constant.literal, Workspace.construct]
    exact hst.of_leaves_empty
      ((w.heap.leaves_newStr kind _).trans (Heap.leaves_newResource _ n _ _))
  | _ =>
    rw [Constant.literal, Workspace.construct]
    exact .refl w _ t

/-! ### Commands -/

theorem Standing.arrayCommand {c : ArrayCommand} (hc : ¬ (Command.array c).WritesTo a)
    {r : Except Failure (List Outcome)} (hr : w.arrayCommand c = some (w', r)) :
    w.Stands (.register a) t w' := by
  cases c with
  | constant c =>
    obtain ⟨w₁, v, heq, -⟩ := exists_construct_constant w c
    have hs := hst.construct c
    rw [Workspace.arrayCommand, heq] at hr
    rw [heq] at hs
    exact stands_of_some (hs.giving _) hr
  | copy name => exact stands_of_some (stands_hold w _ t _) hr
  | list names =>
    rw [Workspace.arrayCommand] at hr
    split at hr
    · exact stands_of_some ((hst.of_leaves_empty (w.heap.leaves_newTable _)).giving _) hr
    · cases hr
  | cell name =>
    exact stands_of_some ((hst.of_leaves_empty (w.heap.leaves_newCell _ _)).giving _) hr
  | object className name =>
    rw [Workspace.arrayCommand] at hr
    split at hr
    · exact stands_of_some ((hst.of_leaves_empty ((w.heap.leaves_newStr className _).trans
        (Heap.leaves_newObject _ _ _ _))).giving _) hr
    · exact stands_of_some (.refl w _ t) hr
  | edit target e =>
    obtain ⟨⟨w₁, r₁⟩, hx, he⟩ := Option.map_eq_some_iff.1 hr
    rw [← (Prod.mk.inj he).1]
    exact hst.editTarget (fun h ↦ hc (Place.register.inj h)) hx
  | get target k =>
    have hs := (stands_readingTarget w (.register a) t target).trans
      (stands_lookIn _ _ t (w.readingTarget target).2 k fun h t k ↦ h.get? t k)
    rw [Workspace.arrayCommand] at hr
    dsimp only at hr
    split at hr <;> next heq =>
      rw [heq] at hs
      first
        | exact stands_of_some hs hr
        | exact stands_of_some (hs.giving _) hr
  | contains target k =>
    exact stands_of_some ((stands_readingTarget w (.register a) t target).trans
      (stands_lookIn _ _ t (w.readingTarget target).2 k fun h t k ↦ h.contains t k)) hr
  | getProperty name k =>
    rw [Workspace.arrayCommand] at hr
    split at hr
    next o ho =>
      have hs := stands_lookIn w (.register a) t (.ok (w.heap.properties o)) k
        fun h t k ↦ h.get? t k
      split at hr <;> next heq =>
        rw [heq] at hs
        first
          | exact stands_of_some hs hr
          | exact stands_of_some (hs.giving _) hr
    · exact stands_of_some (.refl w _ t) hr
  | setProperty name k operand =>
    rw [Workspace.arrayCommand] at hr
    split at hr
    next o ho =>
      have hs := (stands_hold w (.register a) t [w.operand operand]).trans
        (stands_keySource _ _ t k)
      have hs' := hs.trans ((hs.standing hst).insert (apart_properties _ a t o)
        ((w.hold [w.operand operand]).keySource k).2 (w.operand operand))
      dsimp only at hr
      split at hr <;> next heq =>
        rw [heq] at hs'
        first
          | exact stands_of_some hs' hr
          | exact stands_of_some (hs'.giving _) hr
    · exact stands_of_some (.refl w _ t) hr
  | unsetProperty name k =>
    rw [Workspace.arrayCommand] at hr
    split at hr
    next o ho =>
      have hs := stands_keySource w (.register a) t k
      exact stands_of_some (hs.trans ((hs.standing hst).unset (apart_properties _ a t o)
        (w.keySource k).2)) hr
    · exact stands_of_some (.refl w _ t) hr
  | properties name =>
    rw [Workspace.arrayCommand] at hr
    split at hr
    · exact stands_of_some ((hst.of_leaves_empty (w.heap.leaves_copyArray _)).giving _) hr
    · exact stands_of_some (.refl w _ t) hr
  | getCell name =>
    rw [Workspace.arrayCommand] at hr
    split at hr
    · exact stands_of_some (stands_hold w _ t _) hr
    · exact stands_of_some (.refl w _ t) hr
  | setCell name operand =>
    rw [Workspace.arrayCommand] at hr
    split at hr
    · exact stands_of_some ((hst.of_leaves_empty (w.heap.leaves_setCell _ _ _)).giving _) hr
    · exact stands_of_some (.refl w _ t) hr
  | drop name =>
    have hne : a ≠ name := fun he ↦ hc he.symm
    obtain ⟨rfl, -⟩ := Prod.mk.inj (Option.some.inj hr)
    refine ⟨?_, Nat.le_refl _, fun _ ↦ rfl⟩
    show ((w.registers.erase name).get? a).getD _ = _
    rw [Registry.get?_erase, if_neg hne]
    rfl

theorem Standing.symbolCommand (c : SymbolCommand) :
    w.Stands (.register a) t (w.symbolCommand s c).1 := by
  have hkey := fun k ↦ stands_keySource w (.register a) t k
  have hkeyed := fun vs k ↦ (stands_hold w (.register a) t vs).trans (stands_keySource _ _ t k)
  cases c with
  | create config => exact hst.newSymbolTable config
  | declare k =>
    have hs := (hkey k).trans (((hkey k).standing hst).declareSymbol (s := s) (w.keySource k).2)
    rw [Workspace.symbolCommand]
    dsimp only
    split <;> next heq =>
      rw [heq] at hs
      first
        | exact hs
        | exact hs.giving _
  | bind k cell =>
    rw [Workspace.symbolCommand]
    split
    next c hc =>
      dsimp only
      rw [bindSymbol]
      split
      · exact hkey k
      · exact (hkey k).trans (((hkey k).standing hst).bindKey _ c)
    · exact .refl w _ t
  | get k =>
    rw [Workspace.symbolCommand]
    dsimp only
    split
    · exact hkey k
    · exact (hkey k).giving _
  | set k operand =>
    have hs := hkeyed [w.operand operand] k
    exact hs.trans ((hs.standing hst).setSymbol _ _)
  | «open» k deeds =>
    have hs := hkeyed ((deeds.map w.deedOf).filterMap Deed.operand?) k
    obtain ⟨hs', hb⟩ := (hs.standing hst).openSymbol (s := s)
      ((w.hold ((deeds.map w.deedOf).filterMap Deed.operand?)).keySource k).2 []
    have hall := hs.trans hs'
    rw [Workspace.symbolCommand]
    dsimp only
    split <;> next heq =>
      rw [heq] at hall hb
      first
        | exact hall
        | exact hall.trans ((hall.standing hst).perform (hb _ rfl) [] _)
  | contains k => exact hkey k
  | unset k => exact (hkey k).trans (((hkey k).standing hst).unsetSymbol _)
  | copy => exact (hst.of_leaves_empty (w.heap.leaves_copyArray _)).giving _
  | snapshot => exact (hst.of_leaves_empty (w.heap.leaves_snapshot _)).giving _
  | iterate writes => exact (hst.iterateWriting _ _).trans (stands_hold _ _ t _)

theorem Standing.editVariable {k : KeyTerm} {path : List KeyTerm} {c : Edit KeyTerm String}
    {r : Except ValueError (List Outcome)} (hr : w.editVariable s k path c = some (w', r)) :
    w.Stands (.register a) t w' := by
  have hs := stands_prepare w (.register a) t path c
  rw [Workspace.editVariable] at hr
  split at hr
  next heq =>
    rw [heq] at hs
    exact stands_of_some hs hr
  next w₁ ls c' heq =>
    rw [heq] at hs
    have hs₁ := hs.trans (stands_keySource w₁ _ t k)
    obtain ⟨hs₂, hb⟩ := (hs₁.standing hst).openSymbol (s := s) (w₁.keySource k).2 []
    have hall := hs₁.trans hs₂
    dsimp only at hr
    split at hr <;> next heq₂ =>
      rw [heq₂] at hall hb
      first
        | exact stands_of_some hall hr
        | exact hall.trans ((hall.standing hst).editFrom (apart_element (hb _ rfl)) hr)

/-- **A command that does not write to the array in a register leaves it standing.** -/
theorem Standing.carryOut (hv : w.Valid) {c : Command} (hc : ¬ c.WritesTo a)
    {r : Except Failure (List Outcome)} (hr : w.carryOut c = some (w', r)) :
    w.Stands (.register a) t w' := by
  cases c with
  | array c => exact hst.arrayCommand hc hr
  | symbols s c =>
    rw [Workspace.carryOut] at hr
    split at hr
    · exact stands_of_some (hst.symbolCommand c) hr
    · exact stands_of_some (.refl w _ t) hr
  | editVariable s k path c =>
    rw [Workspace.carryOut] at hr
    split at hr
    · obtain ⟨⟨w₁, r₁⟩, hx, he⟩ := Option.map_eq_some_iff.1 hr
      rw [← (Prod.mk.inj he).1]
      exact hst.editVariable hx
    · exact stands_of_some (.refl w _ t) hr
  | collect pairs =>
    have hs := stands_labelsOf w (.register a) t (pairs.map (·.1))
    rw [Workspace.carryOut] at hr
    dsimp only at hr
    split at hr
    next heq =>
      rw [heq] at hs
      exact stands_of_some hs hr
    next w₁ ls heq =>
      rw [heq] at hs
      exact stands_of_some ((hs.trans ((hs.standing hst).collect _)).giving _) hr
  | fromPairs pairs =>
    have hs := stands_keySources w (.register a) t pairs
    have hall := hs.trans ((hs.standing hst).newFromPairs (w.keySources pairs).2)
    rw [Workspace.carryOut] at hr
    dsimp only at hr
    split at hr <;> next heq =>
      rw [heq] at hall
      first
        | exact stands_of_some hall hr
        | exact stands_of_some (hall.giving _) hr
  | toArray name =>
    have hs := hst.of_leaves_empty (w.heap.leaves_toArray (w.operand name))
    rw [Workspace.carryOut] at hr
    split at hr <;> next heq =>
      obtain ⟨rfl, -⟩ := Prod.mk.inj heq
      first
        | exact stands_of_some hs hr
        | exact stands_of_some (hs.giving _) hr
  | decode e =>
    have hs := hst.of_leaves_empty (Heap.leaves_decode hv.heap e)
    rw [Workspace.carryOut] at hr
    split at hr <;> next heq =>
      rw [heq] at hs
      first
        | exact stands_of_some hs hr
        | exact stands_of_some (hs.giving _) hr

end Register

/-! ### Statements -/

/-- An array in a place of a program is mentioned when a command has ended. -/
theorem mem_mentioned_of_named (hval : w.valueAt q.place = .array t) : .table t ∈ w.mentioned := by
  cases q with
  | register name => exact mem_mentioned_of_register (mem_registers hval fun h ↦ nomatch h) rfl
  | symbols name =>
    rw [Named.place, valueAt] at hval
    split at hval
    next s hs =>
      rw [← Value.array.inj hval]
      exact List.mem_append_left _ (mem_roots_of_symbolTable (w := { w with held := [] })
        (Registry.mem_of_get? hs))
    · cases hval

/-- The end of a command leaves every array standing. -/
theorem Standing.settle (hst : w.Standing q t) : w.Stands q t w.settle where
  value := by cases q <;> rfl
  fresh := Nat.le_of_eq (Heap.fresh_tables_release _ _).symm
  table := fun hb ↦
    (agree_settle (mem_mentioned_of_below (mem_mentioned_of_named hst.value) hb)).table

/-- Delivering a result elsewhere. -/
theorem stands_deliver (w : Workspace) (t : TableId) {into : Option String}
    (hinto : ∀ name, q = .register name → into ≠ some name) (r : Except Failure (List Outcome)) :
    w.Stands q t (w.deliver into r) := by
  obtain ⟨registers, heq, hother⟩ := deliver_eq w into r
  rw [heq]
  refine ⟨?_, Nat.le_refl _, fun _ ↦ rfl⟩
  cases q with
  | register name =>
    show (registers.get? name).getD _ = _
    rw [hother (hinto name rfl)]
    rfl
  | symbols name => rfl

/-- A statement leaves standing what its command does, if its result is delivered elsewhere. -/
theorem Standing.step_of_carryOut (hst : w.Standing q t) {s : Statement} {report : Report}
    (hc : ∀ {w₁ r}, w.carryOut s.command = some (w₁, r) → w.Stands q t w₁)
    (hinto : ∀ name, q = .register name → s.into ≠ some name)
    (hr : w.step s = some (w', report)) : w.Stands q t w' := by
  rw [Workspace.step] at hr
  split at hr
  · cases hr
  next w₁ r heq =>
    have hs := (hc heq).trans (stands_deliver w₁ t hinto r)
    exact stands_of_some (hs.trans (hs.standing hst).settle) hr

/-- **A statement that leaves a register alone leaves the array in it standing.** -/
theorem Standing.step (hst : w.Standing (.register a) t) (hv : w.Valid) {s : Statement}
    (hs : s.LeavesAlone a) {report : Report} (hr : w.step s = some (w', report)) :
    w.Stands (.register a) t w' :=
  hst.step_of_carryOut (hst.carryOut hv hs.1) (fun _ he ↦ Named.register.inj he ▸ hs.2) hr

end Workspace

end SharedValue
