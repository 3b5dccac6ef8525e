import SharedValue.Proofs.Lending

/-!
# Operations that fail

The operations on one key, of arrays, of the properties of objects and of tables of variables, first
coerce the key and touch nothing before. So they fail exactly where coercing the key fails, with the
limit that holds for them, and a failure leaves the workspace as it was. Two operations can fail
otherwise: reading a variable follows the value that is found too, and appending needs a next free
key.

An operation can also be stopped, by a cell that is lent (`SharedValue.Proofs.Lending`), and then it
neither fails nor comes to an end. This is so for an array in a cell and a key that leads to this
very cell.

* `KeyOperation.attempt_eq_some_iff`, `KeyOperation.attempt_eq_self`: the operations on one key;
* `KeyOperation.attempt?_eq`: what stops them;
* `Workspace.append_eq_error_iff`, `Workspace.push_eq_error_iff`: appending.
-/

namespace SharedValue

/-- The failure of a result. -/
def failure? {α : Type} : Except ValueError α → Option ValueError
  | .error err => some err
  | .ok _ => none

/-- An operation on one key. The properties of an object are an array at a place. -/
inductive KeyOperation
  | openAt (p : Place)
  | insert (p : Place) (v : Value)
  | unset (p : Place)
  | get (p : Place)
  | contains (p : Place)
  | declareSymbol (s : String)
  | bindSymbol (s : String) (c : CellId)
  | getSymbol (s : String)
  | setSymbol (s : String) (v : Value)
  | openSymbol (s : String) (operands : List Value)
  | containsSymbol (s : String)
  | unsetSymbol (s : String)

namespace KeyOperation

open Workspace

variable {w : Workspace} {k : KeySource} {err : ValueError} {s : String}

/-- The place of the array that an operation works on. -/
def place : KeyOperation → Place
  | openAt p | insert p _ | unset p | get p | contains p => p
  | declareSymbol s | bindSymbol s _ | getSymbol s | setSymbol s _ | openSymbol s _
  | containsSymbol s | unsetSymbol s => .symbols s

/-- The values that an operation holds while it runs. -/
def operands : KeyOperation → List Value
  | insert _ v | setSymbol _ v => [v]
  | openSymbol _ vs => vs
  | _ => []

/-- The workspace after an operation, and its failure. -/
def attempt (w : Workspace) (k : KeySource) : KeyOperation → Workspace × Option ValueError
  | openAt p => ((w.openAt p k).1, failure? (w.openAt p k).2)
  | insert p v => ((w.insert p k v).1, failure? (w.insert p k v).2)
  | unset p => ((w.unset p k).1, failure? (w.unset p k).2)
  | get p => (w, failure? (w.get p k))
  | contains p => (w, failure? (w.contains p k))
  | declareSymbol s => ((w.declareSymbol s k).1, failure? (w.declareSymbol s k).2)
  | bindSymbol s c => ((w.bindSymbol s k c).1, failure? (w.bindSymbol s k c).2)
  | getSymbol s => (w, failure? (w.getSymbol s k))
  | setSymbol s v => ((w.setSymbol s k v).1, failure? (w.setSymbol s k v).2)
  | openSymbol s operands => ((w.openSymbol s k operands).1, failure? (w.openSymbol s k operands).2)
  | containsSymbol s => (w, failure? (w.containsSymbol s k))
  | unsetSymbol s => ((w.unsetSymbol s k).1, failure? (w.unsetSymbol s k).2)

/-- How many cells an operation follows at most. -/
def limit (w : Workspace) : KeyOperation → Nat
  | openAt _ | insert _ _ | unset _ | get _ | contains _ => defaultReferenceDepth
  | declareSymbol s | bindSymbol s _ | getSymbol s | setSymbol s _ | openSymbol s _
  | containsSymbol s | unsetSymbol s => (w.configOf s).maxReferenceDepth

/-- Whether reading a variable finds a value that leads into a circle, or through more cells than
are followed. -/
def FindsOverlong (w : Workspace) (k : KeySource) (s : String) : Prop :=
  ∃ l v, w.symbolLabel s k = .ok l ∧ w.heap.get? (w.tableAt (.symbols s)) l.key = some v ∧
    w.heap.Overlong (w.configOf s).maxReferenceDepth v

/-- **An operation whose key is not coerced** fails with that failure and does nothing. -/
theorem attempt_of_error (op : KeyOperation)
    (hk : k.label? w.heap (op.limit w) = .error err) : op.attempt w k = (w, some err) := by
  cases op <;> rw [limit] at hk <;>
    simp only [attempt, Workspace.openAt, Workspace.insert, Workspace.unset, Workspace.get,
      Workspace.contains, Workspace.declareSymbol, Workspace.bindSymbol, Workspace.getSymbol,
      Workspace.setSymbol, Workspace.openSymbol, Workspace.containsSymbol, Workspace.unsetSymbol,
      symbolLabel, hk, failure?, bind, Except.bind]

/-- **Once its key is coerced an operation succeeds**, but for the reading of a variable. -/
theorem attempt_of_ok (op : KeyOperation) (hop : ∀ s, op ≠ .getSymbol s) {l : Label}
    (hk : k.label? w.heap (op.limit w) = .ok l) : (op.attempt w k).2 = none := by
  cases op with
  | getSymbol s => exact absurd rfl (hop s)
  | declareSymbol s =>
    rw [limit] at hk
    rw [attempt, Workspace.declareSymbol, symbolLabel, hk]
    dsimp only
    split <;> rfl
  | _ =>
    rw [limit] at hk
    simp only [attempt, Workspace.openAt, Workspace.insert, Workspace.unset, Workspace.get,
      Workspace.contains, Workspace.bindSymbol, Workspace.setSymbol, Workspace.openSymbol,
      Workspace.containsSymbol, Workspace.unsetSymbol, symbolLabel, hk, failure?, bind, Except.bind,
      pure, Except.pure]

/-- Once its key is coerced, reading a variable looks the key up and follows what is found. -/
theorem attempt_getSymbol_of_ok {l : Label} (hk : w.symbolLabel s k = .ok l) :
    ((getSymbol s).attempt w k).2 =
      (w.heap.get? (w.tableAt (.symbols s)) l.key).bind fun v ↦
        failure? (w.heap.dereference (w.configOf s).maxReferenceDepth v) := by
  rw [attempt, Workspace.getSymbol, hk]
  simp only [bind, Except.bind]
  cases w.heap.get? (w.tableAt (.symbols s)) l.key with
  | none => rfl
  | some v =>
    cases hd : w.heap.dereference (w.configOf s).maxReferenceDepth v <;>
      simp [hd, failure?, pure, Except.pure]

theorem failure?_eq_some_iff {α : Type} {x : Except ValueError α} :
    failure? x = some err ↔ x = .error err := by
  cases x with
  | error e =>
    exact ⟨fun he ↦ congrArg _ (Option.some.inj he), fun he ↦ congrArg some (Except.error.inj he)⟩
  | ok a => exact iff_of_false (fun he ↦ by cases he) fun he ↦ by cases he

theorem attempt_getSymbol_eq_some_iff {l : Label} (hk : w.symbolLabel s k = .ok l) :
    ((getSymbol s).attempt w k).2 = some err ↔
      err = .referenceDepth (w.configOf s).maxReferenceDepth ∧ FindsOverlong w k s := by
  rw [attempt_getSymbol_of_ok hk, Option.bind_eq_some_iff]
  constructor
  · rintro ⟨v, hv, he⟩
    obtain ⟨rfl, hover⟩ := Heap.dereference_eq_error_iff.1 (failure?_eq_some_iff.1 he)
    exact ⟨rfl, l, v, hk, hv, hover⟩
  · rintro ⟨rfl, l', v, hl', hv, hover⟩
    rw [hk] at hl'
    rw [← Except.ok.inj hl'] at hv
    exact ⟨v, hv, failure?_eq_some_iff.2 (Heap.dereference_eq_error_iff.2 ⟨rfl, hover⟩)⟩

/-- **The failures of an operation on one key**: that the key is not coerced, and that what is read
leads too far. -/
theorem attempt_eq_some_iff (op : KeyOperation) {key : Value} :
    (op.attempt w (.value key)).2 = some err ↔ w.heap.KeyFailure (op.limit w) key err ∨
      ∃ s, op = .getSymbol s ∧ err = .referenceDepth (w.configOf s).maxReferenceDepth ∧
        FindsOverlong w (.value key) s := by
  rw [← Heap.coerceKey_eq_error_iff]
  cases hk : w.heap.coerceKey (op.limit w) key with
  | error e =>
    have hk' : (KeySource.value key).label? w.heap (op.limit w) = .error e := hk
    rw [attempt_of_error op hk']
    refine ⟨fun he ↦ .inl (congrArg _ (Option.some.inj he)), ?_⟩
    rintro (he | ⟨s, rfl, rfl, l, v, hl, -⟩)
    · exact congrArg some (Except.error.inj he)
    · -- the key of the variable would be coerced with the same limit
      have hl' : w.heap.coerceKey _ key = .ok l := hl
      rw [limit, hl'] at hk
      cases hk
  | ok l =>
    by_cases hop : ∃ s, op = .getSymbol s
    · obtain ⟨s, rfl⟩ := hop
      have hk' : w.symbolLabel s (.value key) = .ok l := hk
      rw [attempt_getSymbol_eq_some_iff hk']
      refine ⟨fun he ↦ .inr ⟨s, rfl, he⟩, ?_⟩
      rintro (he | ⟨s', hs, he⟩)
      · cases he
      · rwa [KeyOperation.getSymbol.inj hs]
    · have hk' : (KeySource.value key).label? w.heap (op.limit w) = .ok l := hk
      rw [attempt_of_ok op (fun s hs ↦ hop ⟨s, hs⟩) hk']
      refine iff_of_false (fun he ↦ by cases he) ?_
      rintro (he | ⟨s, hs, -⟩)
      · cases he
      · exact hop ⟨s, hs⟩

/-- **An operation that fails does nothing.** -/
theorem attempt_eq_self (op : KeyOperation) (he : (op.attempt w k).2 = some err) :
    (op.attempt w k).1 = w := by
  cases hk : k.label? w.heap (op.limit w) with
  | error e => rw [attempt_of_error op hk]
  | ok l =>
    by_cases hop : ∃ s, op = .getSymbol s
    · obtain ⟨s, rfl⟩ := hop
      rfl
    · rw [attempt_of_ok op (fun s hs ↦ hop ⟨s, hs⟩) hk] at he
      cases he

/-! ### Operations and lent cells -/

/-- The cell that an array is in which is written to: it is lent while the operation runs. -/
def lends (w : Workspace) : KeyOperation → List CellId
  | openAt p | insert p _ | unset p =>
    match w.seat p with
    | .content c => [c]
    | _ => []
  | _ => []

/-- What an operation does once its key is coerced, and its failure, unless it comes to a lent
cell. -/
def carryOn? (w : Workspace) (lent : List CellId) (l : Label) :
    KeyOperation → Option (Workspace × Option ValueError)
  | openAt p => do return ((← w.openElement? lent p l []).1, none)
  | insert p v => do return ((← w.storeKey? lent p l v [v]).1, none)
  | unset p => do return ((← w.unsetKey? lent p l.key).1, none)
  | get p | contains p => do
    let _ ← w.heap.lookUp? lent (w.tableAt p) l.key
    return (w, none)
  | declareSymbol s => do return (← w.declare? lent s l, none)
  | bindSymbol s c => do return (← w.bindKey? lent s l c, none)
  | getSymbol s => do
    match ← w.heap.lookUp? lent (w.tableAt (.symbols s)) l.key with
    | none => return (w, none)
    | some v => return (w, failure? (← w.heap.dereference? lent (w.configOf s).maxReferenceDepth v))
  | setSymbol s v => do
    let (w, e) ← w.openElement? lent (.symbols s) l [v]
    return (← w.assign? lent e v, none)
  | openSymbol s operands => do return ((← w.openElement? lent (.symbols s) l operands).1, none)
  | containsSymbol s => do
    let _ ← w.heap.lookUp? lent (w.tableAt (.symbols s)) l.key
    return (w, none)
  | unsetSymbol s => do return (← w.unsetSymbolKey? lent s l.key, none)

/-- The workspace after an operation, and its failure, while cells are lent. Gives nothing if the
operation comes to one of them, or to the cell that it lends itself. -/
def attempt? (w : Workspace) (lent : List CellId) (key : Value) (op : KeyOperation) :
    Option (Workspace × Option ValueError) := do
  match ← w.heap.coerceKey? (op.lends w ++ lent) (op.limit w) key with
  | .error err => return (w, some err)
  | .ok l => op.carryOn? w (op.lends w ++ lent) l

/-- The cells that an operation comes to once its key is coerced. -/
def visited (w : Workspace) (k : Key) : KeyOperation → List CellId
  | openAt p | get p | contains p => (w.heap.binding? ⟨w.tableAt p, k⟩).toList
  | insert p _ => (w.heap.binding? ⟨w.tableAt p, k⟩).toList ++ w.heap.through ⟨w.tableAt p, k⟩
  | openSymbol s _ | containsSymbol s | unsetSymbol s =>
    (w.heap.binding? ⟨w.tableAt (.symbols s), k⟩).toList
  | setSymbol s _ => (w.heap.binding? ⟨w.tableAt (.symbols s), k⟩).toList ++
    w.heap.through ⟨w.tableAt (.symbols s), k⟩
  | getSymbol s => (w.heap.binding? ⟨w.tableAt (.symbols s), k⟩).toList ++
    match w.heap.get? (w.tableAt (.symbols s)) k with
    | some v => w.heap.inspected (w.configOf s).maxReferenceDepth v
    | none => []
  | unset _ | declareSymbol _ | bindSymbol _ _ => []

/-- The cells that an operation comes to: those of the chain of its key, as far as it is followed,
and if the key is coerced those that the operation goes on to. -/
def touched (w : Workspace) (key : Value) (op : KeyOperation) : List CellId :=
  w.heap.inspected (op.limit w) key ++
    match w.heap.coerceKey (op.limit w) key with
    | .ok l => op.visited w l.key
    | .error _ => []

section Lending

variable {key : Value} {l : Label} (hv : w.Valid) (lent : List CellId)

include hv in
/-- What is assigned to a variable goes through the cell that the variable refers to. -/
theorem assign?_openElement (s : String) (l : Label) {v : Value} (hadm : w.heap.Admits v) :
    assign? (w.openElement (.symbols s) l [v]).1 lent (w.openElement (.symbols s) l [v]).2 v =
      unlessLent lent (w.heap.through ⟨w.tableAt (.symbols s), l.normalize.key⟩)
        ((w.openElement (.symbols s) l [v]).1.assign (w.openElement (.symbols s) l [v]).2 v) := by
  rw [assign?_eq, openElement_eq]
  dsimp only
  rw [Heap.through_materialize, through_separate hv hadm.of_mem_singleton]

include hv in
/-- **Once its key is coerced an operation is stopped by the cells that it visits**, and by no
others. -/
theorem carryOn?_eq (op : KeyOperation) (hops : ∀ v ∈ op.operands, w.heap.Admits v)
    (hl : w.heap.coerceKey (op.limit w) key = .ok l) : op.carryOn? w lent l =
      unlessLent lent (op.visited w l.key) (op.attempt w (.value key)) := by
  have hl : (KeySource.value key).label? w.heap (op.limit w) = .ok l := hl
  have hnormal := Heap.isNormal_of_label? hl
  have hkey := Label.key_normalize_of_isNormal hnormal
  have hread := fun t ↦ w.heap.lookUp?_eq lent t l.key
  rw [Key.normalize_of_isNormal hnormal] at hread
  have hsucceeds := fun hop ↦ attempt_of_ok op hop hl
  cases op with
  | openAt p =>
    rw [limit] at hl
    simp only [attempt, Workspace.openAt, hl, failure?]
    rw [visited, ← hkey]
    exact bind_unlessLent_some (openElement?_eq hv hops lent p l) rfl
  | insert p v =>
    rw [limit] at hl
    simp only [attempt, Workspace.insert, insertKey, hl, failure?]
    rw [visited, ← hkey]
    exact bind_unlessLent_some (storeKey?_eq hv hops lent p l v) rfl
  | unset p =>
    rw [limit] at hl
    simp only [attempt, Workspace.unset, hl, failure?]
    rw [carryOn?, unsetKey?_eq hv]
    exact (unlessLent_nil lent _).symm
  | get p | contains p | containsSymbol s =>
    refine bind_unlessLent_some (hread _) (congrArg some (Prod.ext rfl ?_))
    exact (hsucceeds fun _ he ↦ by cases he).symm
  | declareSymbol s =>
    rw [carryOn?, declare?_eq hv lent hl, visited, unlessLent_nil]
    exact congrArg some (Prod.ext rfl (hsucceeds fun _ he ↦ by cases he).symm)
  | bindSymbol s c =>
    have hl : w.symbolLabel s (.value key) = .ok l := hl
    simp only [attempt, Workspace.bindSymbol, hl, failure?]
    rw [carryOn?, bindKey?_eq hv]
    exact (unlessLent_nil lent _).symm
  | getSymbol s =>
    have hfound := attempt_getSymbol_of_ok hl
    rw [carryOn?, visited]
    cases hg : w.heap.get? (w.tableAt (.symbols s)) l.key with
    | none =>
      rw [hg] at hfound
      refine (bind_unlessLent_some (hread _) ?_).trans (by rw [List.append_nil])
      rw [hg]
      exact congrArg some (Prod.ext rfl hfound.symm)
    | some v =>
      rw [hg] at hfound
      refine bind_unlessLent (hread _) ?_
      rw [hg]
      refine bind_unlessLent_some (w.heap.dereference?_eq lent _ v) ?_
      exact congrArg some (Prod.ext rfl hfound.symm)
  | setSymbol s v =>
    have hl : w.symbolLabel s (.value key) = .ok l := hl
    have hassign := assign?_openElement hv lent s l (hops v List.mem_cons_self)
    simp only [attempt, Workspace.setSymbol, Workspace.openSymbol, hl, failure?]
    rw [visited, ← hkey]
    exact bind_unlessLent (openElement?_eq hv hops lent (.symbols s) l)
      (bind_unlessLent_some hassign rfl)
  | openSymbol s operands =>
    have hl : w.symbolLabel s (.value key) = .ok l := hl
    simp only [attempt, Workspace.openSymbol, hl, failure?]
    rw [visited, ← hkey]
    exact bind_unlessLent_some (openElement?_eq hv hops lent (.symbols s) l) rfl
  | unsetSymbol s =>
    have hl : w.symbolLabel s (.value key) = .ok l := hl
    have hempty := unsetSymbolKey?_eq (s := s) hv lent l.key
    rw [Key.normalize_of_isNormal hnormal] at hempty
    simp only [attempt, Workspace.unsetSymbol, hl, failure?]
    exact bind_unlessLent_some hempty rfl

include hv in
/-- **An operation does what it does with nothing lent, unless a cell that it comes to is lent.** -/
theorem attempt?_eq (op : KeyOperation) (hops : ∀ v ∈ op.operands, w.heap.Admits v) :
    op.attempt? w lent key =
      unlessLent (op.lends w ++ lent) (op.touched w key) (op.attempt w (.value key)) := by
  rw [touched]
  refine bind_unlessLent (w.heap.coerceKey?_eq _ _ key) ?_
  cases hk : w.heap.coerceKey (op.limit w) key with
  | error err =>
    have hk' : (KeySource.value key).label? w.heap (op.limit w) = .error err := hk
    rw [attempt_of_error op hk']
    exact (unlessLent_nil _ _).symm
  | ok l => exact carryOn?_eq hv _ op hops hk

end Lending

end KeyOperation

namespace Workspace

variable {w : Workspace} {p : Place} {err : ValueError}

/-! ### Appending -/

/-- **Appending fails exactly where the largest integer is a stored key.** -/
theorem append_eq_error_iff (hv : w.Valid) (operands : List Value) :
    (w.append p operands).2 = .error err ↔ err = .slotOccupied ∧
      .int Int64.maxValue ∈ (w.heap.table (w.tableAt p)).storedKeys := by
  have hfree := (hv.heap.table_wellFormed (w.tableAt p)).nextFree_isNextFree
  rw [append]
  cases hn : (w.heap.table (w.tableAt p)).nextFree with
  | none =>
    rw [hn] at hfree
    exact ⟨fun he ↦ ⟨(Except.error.inj he).symm, hfree⟩, fun he ↦ congrArg _ he.1.symm⟩
  | some n =>
    rw [hn] at hfree
    have hnot : ¬ (w.heap.table (w.tableAt p)).stores (.int n) = true := fun hs ↦
      Int.lt_irrefl _ (hfree.2.1 n (Table.stores_iff_mem.1 hs))
    dsimp only
    rw [if_neg hnot]
    refine iff_of_false (fun he ↦ by cases he) fun he ↦ ?_
    exact Int.not_lt.2 (le_maxValue n) (hfree.2.1 _ he.2)

theorem push_eq_error_iff (hv : w.Valid) (v : Value) :
    (w.push p v).2 = .error err ↔ err = .slotOccupied ∧
      .int Int64.maxValue ∈ (w.heap.table (w.tableAt p)).storedKeys := by
  rw [← append_eq_error_iff hv [v], push]
  obtain ⟨w₁, r⟩ := w.append p [v]
  cases r with
  | error e =>
    exact ⟨fun he ↦ congrArg _ (Except.error.inj he), fun he ↦ congrArg _ (Except.error.inj he)⟩
  | ok e => exact iff_of_false (fun he ↦ by cases he) fun he ↦ by cases he

theorem push_eq_self_of_error {v : Value} (he : (w.push p v).2 = .error err) :
    (w.push p v).1 = w := by
  have hself : ∀ e, (w.append p [v]).2 = .error e → (w.append p [v]).1 = w := fun _ ↦
    append_eq_self_of_error
  rw [push] at he ⊢
  revert hself he
  obtain ⟨w₁, r⟩ := w.append p [v]
  cases r with
  | error e => exact fun _ hself ↦ hself e rfl
  | ok e => exact fun he ↦ by cases he

/-! ### Programs -/

/-- **Failures are exact and do nothing.** In every workspace that a program leads to, while any
cells are lent:

* An operation on one key is stopped exactly if it comes to a lent cell, or to the cell that the
  array is in which it writes to. It comes to the cells of the chain of its key, as far as it
  follows them; to the cell that its key is bound to; to the cell that an assignment goes through;
  and for the reading of a variable to those of the chain of what is found.
* An operation that is not stopped fails exactly if its key leads into a circle of cells, through
  more cells than the operation follows, or to an array or an object; reading a variable fails also
  if what is found leads too far. A failure leaves the whole workspace as it was.
* Appending comes to no cell. It fails exactly if the largest integer is a stored key, and a failure
  leaves the whole workspace as it was.

The values that an operation is given are values that are there. -/
theorem Reachable.failures_exact (hr : w.Reachable) (key : Value) (lent : List CellId) :
    (∀ op : KeyOperation, (∀ v ∈ op.operands, w.heap.Admits v) →
      (op.attempt? w lent key = none ↔ ∃ c ∈ op.touched w key, c ∈ op.lends w ++ lent) ∧
      ∀ w' failure, op.attempt? w lent key = some (w', failure) →
        (w', failure) = op.attempt w (.value key) ∧
        (∀ err, failure = some err ↔ w.heap.KeyFailure (op.limit w) key err ∨
          ∃ s, op = .getSymbol s ∧ err = .referenceDepth (w.configOf s).maxReferenceDepth ∧
            KeyOperation.FindsOverlong w (.value key) s) ∧
        (failure ≠ none → w' = w)) ∧
    (∀ p operands, (∀ v ∈ operands, w.heap.Admits v) →
      w.append? lent p operands = some (w.append p operands) ∧
      ∀ err, ((w.append p operands).2 = .error err ↔ err = .slotOccupied ∧
        .int Int64.maxValue ∈ (w.heap.table (w.tableAt p)).storedKeys) ∧
        ((w.append p operands).2 = .error err → (w.append p operands).1 = w)) ∧
    ∀ p v, w.heap.Admits v → w.push? lent p v = some (w.push p v) ∧
      ∀ err, ((w.push p v).2 = .error err ↔ err = .slotOccupied ∧
        .int Int64.maxValue ∈ (w.heap.table (w.tableAt p)).storedKeys) ∧
        ((w.push p v).2 = .error err → (w.push p v).1 = w) := by
  have hv := hr.valid
  refine ⟨fun op hops ↦ ?_, fun p operands hops ↦ ?_, fun p v hadm ↦ ?_⟩
  · rw [op.attempt?_eq hv lent hops]
    refine ⟨unlessLent_eq_none_iff, fun w' failure hattempt ↦ ?_⟩
    have hsame := eq_of_unlessLent hattempt
    obtain ⟨hw, hfailure⟩ := Prod.mk.inj hsame
    refine ⟨hsame.symm, fun err ↦ hfailure ▸ op.attempt_eq_some_iff, fun hne ↦ ?_⟩
    obtain ⟨err, he⟩ := Option.ne_none_iff_exists'.1 hne
    exact hw.symm.trans (op.attempt_eq_self (hfailure.trans he))
  · exact ⟨append?_eq hv hops lent p, fun err ↦
      ⟨append_eq_error_iff hv operands, append_eq_self_of_error⟩⟩
  · exact ⟨push?_eq hv lent p hadm, fun err ↦ ⟨push_eq_error_iff hv v, push_eq_self_of_error⟩⟩

/-- A program that puts a reference to a cell into that cell, besides an empty list and a cell with
this list. -/
def selfReferringProgram : List Statement :=
  [⟨.array (.constant .null), some "n"⟩, ⟨.array (.cell "n"), some "c"⟩,
    ⟨.array (.setCell "c" "c"), none⟩, ⟨.array (.list []), some "a"⟩,
    ⟨.array (.cell "a"), some "d"⟩]

/-- Where that program ends. -/
def selfReferringEnd : Workspace := ((empty.run selfReferringProgram).map (·.1)).getD empty

theorem reachable_selfReferringEnd : selfReferringEnd.Reachable := ⟨selfReferringProgram, _, rfl⟩

theorem circular_selfReferringEnd : selfReferringEnd.heap.Circular (.reference ⟨0⟩) :=
  ⟨⟨0⟩, ⟨0⟩, rfl, .refl, .single rfl⟩

/-- A key in a circle fails at the list. At the list in the cell a key that leads to the cell stops
the assignment, which would otherwise fail for the list at the end of the chain. -/
theorem Reachable.failures_exact_selfReferringEnd :
    selfReferringEnd.Reachable ∧
      (KeyOperation.insert (.register "a") .null).attempt? selfReferringEnd [] (.reference ⟨0⟩) =
        some (selfReferringEnd, some (.referenceDepth 64)) ∧
      (KeyOperation.insert (.content ⟨1⟩) .null).attempt? selfReferringEnd [] (.reference ⟨1⟩) =
        none := by
  have hnull : ∀ v ∈ [Value.null], selfReferringEnd.heap.Admits v := fun v hv ↦ by
    rw [List.mem_singleton.1 hv]
    exact Heap.admits_of_handle?_eq_none rfl
  obtain ⟨hcircle, -⟩ := reachable_selfReferringEnd.failures_exact (.reference ⟨0⟩) []
  obtain ⟨hstopped, hfails⟩ := hcircle (.insert (.register "a") .null) hnull
  obtain ⟨hown, -⟩ := reachable_selfReferringEnd.failures_exact (.reference ⟨1⟩) []
  obtain ⟨hown, -⟩ := hown (.insert (.content ⟨1⟩) .null) hnull
  refine ⟨reachable_selfReferringEnd, ?_, hown.2 ⟨⟨1⟩, List.mem_cons_self, List.mem_cons_self⟩⟩
  cases hattempt : (KeyOperation.insert (.register "a") .null).attempt? selfReferringEnd []
    (.reference ⟨0⟩) with
  | none =>
    obtain ⟨c, -, hc⟩ := hstopped.1 hattempt
    cases hc
  | some result =>
    obtain ⟨w', failure⟩ := result
    obtain ⟨-, hfailure, hself⟩ := hfails w' failure hattempt
    have he := (hfailure (.referenceDepth 64)).2 (.inl (.depth (.inl circular_selfReferringEnd)))
    rw [he, hself fun hn ↦ by rw [he] at hn; cases hn]

end Workspace

end SharedValue
