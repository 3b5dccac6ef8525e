import SharedValue.Proofs.Acyclic.Reachable
import SharedValue.Proofs.Failures
import SharedValue.Proofs.KeySpace.Bare
import SharedValue.Proofs.KeySpace.OtherKeys
import SharedValue.Proofs.KeySpace.Spelling
import SharedValue.Proofs.Readings

/-!
# One key space

Every key has one slot, however it is spelled. The key of an operation is coerced before anything
else is done, so an operation goes on with the key that came out, and two spellings of a key can
differ in nothing but the buffer that a text came in, which no operation looks at. The operations
that take a key as such normalize it instead, and so do those that take several in turn. And since
writing goes to one element of the array, the slots under all other keys stay as they are.

* `KeyOperation.run_congr`: an operation does not depend on how its key is spelled;
* `KeyOperation.slotAt_run`: an operation leaves the slots under other keys alone;
* `Reachable.one_key_space`: both, with the spellings of a key.
-/

namespace SharedValue

/-- What an operation on one key gives. -/
inductive KeyAnswer
  | done
  | value (v : Option Value)
  | flag (b : Bool)
  | element (e : Element)
  | cell (c : CellId)

namespace KeyOperation

open Workspace

variable {w w' : Workspace} {k k' : KeySource} {l : Label}

/-- The workspace after an operation, and what the operation gives. -/
def run (w : Workspace) (k : KeySource) : KeyOperation → Workspace × Except ValueError KeyAnswer
  | openAt p => ((w.openAt p k).1, (w.openAt p k).2.map .element)
  | insert p v => ((w.insert p k v).1, (w.insert p k v).2.map .value)
  | unset p => ((w.unset p k).1, (w.unset p k).2.map fun _ ↦ .done)
  | get p => (w, (w.get p k).map .value)
  | contains p => (w, (w.contains p k).map .flag)
  | declareSymbol s => ((w.declareSymbol s k).1, (w.declareSymbol s k).2.map .cell)
  | bindSymbol s c => ((w.bindSymbol s k c).1, (w.bindSymbol s k c).2.map fun _ ↦ .done)
  | getSymbol s => (w, (w.getSymbol s k).map .value)
  | setSymbol s v => ((w.setSymbol s k v).1, (w.setSymbol s k v).2.map fun _ ↦ .done)
  | openSymbol s operands =>
    ((w.openSymbol s k operands).1, (w.openSymbol s k operands).2.map .element)
  | containsSymbol s => (w, (w.containsSymbol s k).map .flag)
  | unsetSymbol s => ((w.unsetSymbol s k).1, (w.unsetSymbol s k).2.map fun _ ↦ .done)

/-- What is made of a result makes no difference to its failure. -/
theorem failure?_map {α β : Type} (f : α → β) (x : Except ValueError α) :
    failure? (x.map f) = failure? x := by
  cases x <;> rfl

/-- An attempt is a run of which only the failure is kept. -/
theorem attempt_eq_run (op : KeyOperation) :
    op.attempt w k = ((op.run w k).1, failure? (op.run w k).2) := by
  cases op <;> simp only [attempt, run, failure?_map]

/-- Once its key is coerced an operation goes on with the key that came out. -/
theorem run_of_label? (op : KeyOperation) (hk : k.label? w.heap (op.limit w) = .ok l) :
    op.run w k = op.run w (.label l) := by
  -- what came out comes out of itself again
  have hl : (KeySource.label l).label? w.heap (op.limit w) = .ok l :=
    congrArg Except.ok (KeySource.normalize_of_label? hk)
  cases op <;> rw [limit] at hk hl <;>
    simp only [run, Workspace.openAt, Workspace.insert, Workspace.unset, Workspace.get,
      Workspace.contains, Workspace.declareSymbol, Workspace.bindSymbol, Workspace.getSymbol,
      Workspace.setSymbol, Workspace.openSymbol, Workspace.containsSymbol, Workspace.unsetSymbol,
      symbolLabel, hk, hl]

/-- **An operation has no use for the buffers of keys.** -/
theorem run_bare (op : KeyOperation) (w : Workspace) (l : Label) :
    op.run w.bare (.label l.bare) =
      ((op.run w (.label l)).1.bare, (op.run w (.label l)).2) := by
  cases op with
  | openAt p => simp [run, Workspace.openAt, KeySource.label?]
  | insert p v => simp [run, Workspace.insert, Workspace.insertKey, KeySource.label?]
  | unset p => simp [run, Workspace.unset, KeySource.label?]
  | get p => simp [run, Workspace.get, KeySource.label?, bind, Except.bind, pure]
  | contains p => simp [run, Workspace.contains, KeySource.label?]
  | declareSymbol s =>
    simp only [run, Workspace.declareSymbol, symbolLabel, KeySource.label?, heap_bare, tableAt_bare,
      Label.normalize_bare, Label.key_bare, Heap.table_bare, Table.find?_bare, Heap.newCell_bare]
    split
    · rfl
    · exact Prod.ext (bindKey_bare { w with heap := _ } s _ _) rfl
    · exact Prod.ext (bindKey_bare { w with heap := _ } s _ _) rfl
  | bindSymbol s c => simp [run, Workspace.bindSymbol, symbolLabel, KeySource.label?]
  | getSymbol s =>
    simp only [run, Workspace.getSymbol, symbolLabel, KeySource.label?, heap_bare, tableAt_bare,
      configOf_bare, Label.normalize_bare, Heap.get?_bare, Heap.dereference_bare]
    rfl
  | setSymbol s v =>
    simp [run, Workspace.setSymbol, Workspace.openSymbol, symbolLabel, KeySource.label?]
  | openSymbol s operands => simp [run, Workspace.openSymbol, symbolLabel, KeySource.label?]
  | containsSymbol s => simp [run, Workspace.containsSymbol, symbolLabel, KeySource.label?]
  | unsetSymbol s => simp [run, Workspace.unsetSymbol, symbolLabel, KeySource.label?]

/-- **An operation does not depend on how its key is spelled.** In workspaces that differ in buffers
alone it gives the same for two spellings of a key, and leaves workspaces that differ in buffers
alone. -/
theorem run_congr (op : KeyOperation) (hw : w.bare = w'.bare) {key : Key}
    (hk : k.key? w.heap (op.limit w) = some key) (hk' : k'.key? w'.heap (op.limit w') = some key) :
    (op.run w k).1.bare = (op.run w' k').1.bare ∧ (op.run w k).2 = (op.run w' k').2 := by
  obtain ⟨l, hl, rfl⟩ := KeySource.key?_eq_some_iff_exists.1 hk
  obtain ⟨l', hl', hkey⟩ := KeySource.key?_eq_some_iff_exists.1 hk'
  have hrun := op.run_bare w l
  rw [hw, Label.bare_eq_bare_iff.2 hkey.symm, run_bare] at hrun
  rw [run_of_label? op hl, run_of_label? op hl']
  exact ⟨(congrArg Prod.fst hrun).symm, (congrArg Prod.snd hrun).symm⟩

/-- An integer has no buffer, so the whole workspace is the same. -/
theorem run_eq_of_key?_int (op : KeyOperation) {n : Int64}
    (hk : k.key? w.heap (op.limit w) = some (.int n))
    (hk' : k'.key? w.heap (op.limit w) = some (.int n)) : op.run w k = op.run w k' := by
  obtain ⟨l, hl, hkey⟩ := KeySource.key?_eq_some_iff_exists.1 hk
  obtain ⟨l', hl', hkey'⟩ := KeySource.key?_eq_some_iff_exists.1 hk'
  rw [run_of_label? op hl, run_of_label? op hl',
    Label.eq_int_of_normalize (KeySource.normalize_of_label? hl) hkey,
    Label.eq_int_of_normalize (KeySource.normalize_of_label? hl') hkey']

private theorem exists_of_map_eq_ok {α : Type} {f : α → KeyAnswer} {x : Except ValueError α}
    {answer : KeyAnswer} (h : x.map f = .ok answer) : ∃ a, f a = answer := by
  cases x with
  | error err => cases h
  | ok a => exact ⟨a, Except.ok.inj h⟩

/-- The element that an operation opens is the one under its key. -/
theorem key_of_run (op : KeyOperation) {key : Key} (hk : k.key? w.heap (op.limit w) = some key)
    {e : Element} (he : (op.run w k).2 = .ok (.element e)) : e.key = key := by
  obtain ⟨l, hl, rfl⟩ := KeySource.key?_eq_some_iff_exists.1 hk
  have hn := KeySource.normalize_of_label? hl
  rw [run_of_label? op hl] at he
  cases op with
  | openAt p =>
    simp only [run, Workspace.openAt, KeySource.label?, hn] at he
    rw [← KeyAnswer.element.inj (Except.ok.inj he), openElement_eq, hn]
  | openSymbol s operands =>
    simp only [run, Workspace.openSymbol, symbolLabel, KeySource.label?, hn] at he
    rw [← KeyAnswer.element.inj (Except.ok.inj he), openElement_eq, hn]
  | _ =>
    dsimp only [run] at he
    obtain ⟨_, hanswer⟩ := exists_of_map_eq_ok he
    cases hanswer

/-! ### Other keys -/

/-- Whether an operation assigns to the cell that its array is in, because the key refers to it. -/
def Displaces (w : Workspace) (key : Key) : KeyOperation → Prop
  | insert p _ => ∃ c, w.heap.read ⟨w.tableAt p, key⟩ = .reference c ∧ w.seat p = .content c
  | _ => False

/-- **An operation on one key leaves the slots under the other keys alone**, unless it puts
something else in the place of the whole array. -/
theorem slotAt_run (op : KeyOperation) (hv : w.Valid) (ha : w.heap.Acyclic)
    (hops : ∀ v ∈ op.operands, w.heap.Admits v) {t : TableId} (hval : w.valueAt op.place = .array t)
    {key : Key} (hk : k.key? w.heap (op.limit w) = some key) (hd : ¬ op.Displaces w key) {j : Key}
    (hj : j ≠ key) : (op.run w k).1.slotAt op.place j = w.slotAt op.place j := by
  obtain ⟨l, hl, rfl⟩ := KeySource.key?_eq_some_iff_exists.1 hk
  have hn := KeySource.normalize_of_label? hl
  have hj' : j ≠ l.normalize.key := hn.symm ▸ hj
  have hj'' : j ≠ l.key.normalize := by rwa [← Label.key_normalize]
  rw [run_of_label? op hl]
  -- each operation is one write to the separated array, or none
  cases op with
  | get p | contains p | getSymbol s | containsSymbol s => rfl
  | openAt p =>
    simp only [run, Workspace.openAt, KeySource.label?, hn]
    exact slotAt_openElement hv ha hops hval l hj'
  | insert p v =>
    simp only [run, Workspace.insert, Workspace.insertKey, KeySource.label?, hn]
    refine slotAt_storeKey hv ha hops hval l v (fun c hread hseat ↦ hd ⟨c, ?_, hseat⟩) hj'
    rwa [hn, ← tableAt_of_valueAt hval] at hread
  | unset p =>
    simp only [run, Workspace.unset, KeySource.label?, hn]
    exact slotAt_unsetKey hv ha hval l.key hj''
  | bindSymbol s c =>
    simp only [run, Workspace.bindSymbol, symbolLabel, KeySource.label?, hn]
    exact slotAt_bindKey hv ha hval l c hj'
  | openSymbol s operands =>
    simp only [run, Workspace.openSymbol, symbolLabel, KeySource.label?, hn]
    exact slotAt_openElement hv ha hops hval l hj'
  | setSymbol s v =>
    simp only [run, Workspace.setSymbol, Workspace.openSymbol, symbolLabel, KeySource.label?, hn]
    exact slotAt_assign_openElement hv ha hops hval l v hj'
  | unsetSymbol s =>
    simp only [run, Workspace.unsetSymbol, symbolLabel, KeySource.label?, hn]
    exact slotAt_unsetSymbolKey hv ha hval l.key hj''
  | declareSymbol s =>
    simp only [run, Workspace.declareSymbol, symbolLabel, KeySource.label?, hn]
    split
    · rfl
    next v hf => exact slotAt_bindKey_newCell hv ha hval l (hv.heap.admits_value hf) hj'
    · exact slotAt_bindKey_newCell hv ha hval l Heap.admits_undefined hj'

end KeyOperation

/-! ### Several keys in turn -/

/-- Pairs with their keys as they are stored, without buffers. -/
def storedPairs (pairs : List (Label × Value)) : List (Label × Value) :=
  pairs.map fun q ↦ (q.1.normalize.bare, q.2)

/-- Storing under keys in turn, without buffers. -/
theorem Heap.storeAll_bare (h : Heap) (t : TableId) (pairs : List (Label × Value)) :
    h.bare.storeAll t (storedPairs pairs) = (h.storeAll t pairs).bare := by
  induction pairs generalizing h with
  | nil => rfl
  | cons q rest ih =>
    have hstore := h.store_bare t q.1.normalize q.2
    show ((h.bare.store t q.1.normalize.bare.normalize q.2).1).storeAll t (storedPairs rest) = _
    rw [Label.normalize_bare, Label.normalize_normalize, hstore, ih]
    rfl

namespace Workspace

variable {w w' : Workspace} {p : Place} {k k' : KeySource} {ps qs : List (Label × Value)}

/-! #### Keys in any spelling -/

/-- Making an element ready has its key normalized. -/
theorem openElement_normalize (w : Workspace) (p : Place) (l : Label) (operands : List Value) :
    w.openElement p l.normalize operands = w.openElement p l operands := by
  rw [openElement, openElement, Label.normalize_normalize]

/-- So has storing. -/
theorem storeKey_normalize (w : Workspace) (p : Place) (l : Label) (v : Value)
    (operands : List Value) : w.storeKey p l.normalize v operands = w.storeKey p l v operands := by
  rw [storeKey, storeKey, Label.normalize_normalize]

/-- So has binding. -/
theorem bindKey_normalize (w : Workspace) (s : String) (l : Label) (c : CellId) :
    w.bindKey s l.normalize c = w.bindKey s l c := by
  rw [bindKey, bindKey, Label.normalize_normalize]

/-- So has taking out. -/
theorem unsetKey_normalize (w : Workspace) (p : Place) (k : Key) :
    w.unsetKey p k.normalize = w.unsetKey p k := by
  rw [unsetKey, unsetKey, Key.normalize_normalize]

/-- So has deleting a variable. -/
theorem unsetSymbolKey_normalize (w : Workspace) (s : String) (k : Key) :
    w.unsetSymbolKey s k.normalize = w.unsetSymbolKey s k := by
  rw [unsetSymbolKey, unsetSymbolKey, Key.normalize_normalize, unsetKey_normalize]

/-- Assigning to keys in turn, without buffers. -/
theorem extend_bare (w : Workspace) (p : Place) (pairs : List (Label × Value)) :
    w.bare.extend p (storedPairs pairs) = (w.extend p pairs).bare := by
  induction pairs generalizing w with
  | nil => rfl
  | cons q rest ih =>
    -- the values that are still to come are operands, and they stay the same
    have hvalues : (storedPairs rest).map (·.2) = rest.map (·.2) := List.map_map ..
    have hstore := w.storeKey_bare p q.1.normalize q.2 (q.2 :: rest.map (·.2))
    rw [storeKey_normalize] at hstore
    show (w.bare.storeKey p q.1.normalize.bare q.2
      (q.2 :: (storedPairs rest).map (·.2))).1.extend p (storedPairs rest) = _
    rw [hvalues, hstore, ih]
    rfl

/-- **Assigning to keys in turn does not depend on how they are spelled.** -/
theorem extend_congr (hp : storedPairs ps = storedPairs qs) :
    (w.extend p ps).bare = (w.extend p qs).bare := by
  rw [← extend_bare, hp, extend_bare]

/-- Pairs with the same stored keys are collected into the same array. -/
theorem collect_congr (hp : storedPairs ps = storedPairs qs) :
    (w.collect ps).1.bare = (w.collect qs).1.bare ∧ (w.collect ps).2 = (w.collect qs).2 := by
  refine ⟨bare_congr rfl ?_, rfl⟩
  rw [← Heap.storeAll_bare, hp, Heap.storeAll_bare]

/-- Assigning pairs in two workspaces that differ in buffers alone. -/
theorem assignPairs_congr (hw : w.bare = w'.bare) (t : TableId) (pairs : List (KeySource × Value)) :
    (w.assignPairs t pairs).1.bare = (w'.assignPairs t pairs).1.bare ∧
      (w.assignPairs t pairs).2 = (w'.assignPairs t pairs).2 := by
  induction pairs generalizing w w' with
  | nil => exact ⟨hw, rfl⟩
  | cons q rest ih =>
    obtain ⟨k, v⟩ := q
    have hheap : w.heap.bare = w'.heap.bare := congrArg heap hw
    have hlabel : k.label? w.heap defaultReferenceDepth =
        k.label? w'.heap defaultReferenceDepth := by
      rw [← KeySource.label?_bare, hheap, KeySource.label?_bare]
    rw [assignPairs, assignPairs, hlabel]
    cases k.label? w'.heap defaultReferenceDepth with
    | error err => exact ⟨hw, rfl⟩
    | ok l => exact ih (bare_congr hw (Heap.store_congr hheap rfl t v).1)

/-- Assigning a pair, where its turn comes. -/
theorem assignPairs_cons_congr (t : TableId) (v : Value) (rest : List (KeySource × Value))
    {key : Key} (hk : k.key? w.heap defaultReferenceDepth = some key)
    (hk' : k'.key? w.heap defaultReferenceDepth = some key) :
    (w.assignPairs t ((k, v) :: rest)).1.bare = (w.assignPairs t ((k', v) :: rest)).1.bare ∧
      (w.assignPairs t ((k, v) :: rest)).2 = (w.assignPairs t ((k', v) :: rest)).2 := by
  obtain ⟨l, hl, rfl⟩ := KeySource.key?_eq_some_iff_exists.1 hk
  obtain ⟨l', hl', hkey⟩ := KeySource.key?_eq_some_iff_exists.1 hk'
  have hstored : l.normalize.key = l'.normalize.key := by
    rw [Label.key_normalize, Label.key_normalize, hkey]
  rw [assignPairs, assignPairs, hl, hl']
  exact assignPairs_congr (bare_congr rfl (Heap.store_congr rfl hstored t v).1) t rest

/-- Assigning in two parts is assigning them all, as long as the first part has no failure. -/
theorem assignPairs_append (w : Workspace) (t : TableId) (before rest : List (KeySource × Value)) :
    w.assignPairs t (before ++ rest) =
      match w.assignPairs t before with
      | (w₁, .error err) => (w₁, .error err)
      | (w₁, .ok ()) => w₁.assignPairs t rest := by
  induction before generalizing w with
  | nil => rfl
  | cons q before ih =>
    obtain ⟨k, v⟩ := q
    rw [List.cons_append, assignPairs, assignPairs]
    cases k.label? w.heap defaultReferenceDepth with
    | error err => rfl
    | ok l => exact ih _

/-- **Making an array of pairs does not depend on how a key is spelled** when its turn comes. -/
theorem newFromPairs_congr {w₁ : Workspace} {t : TableId} {before rest : List (KeySource × Value)}
    (hw : w.newFromPairs before = (w₁, .ok t)) (v : Value) {key : Key}
    (hk : k.key? w₁.heap defaultReferenceDepth = some key)
    (hk' : k'.key? w₁.heap defaultReferenceDepth = some key) :
    (w.newFromPairs (before ++ (k, v) :: rest)).1.bare =
        (w.newFromPairs (before ++ (k', v) :: rest)).1.bare ∧
      (w.newFromPairs (before ++ (k, v) :: rest)).2 =
        (w.newFromPairs (before ++ (k', v) :: rest)).2 := by
  rw [newFromPairs] at hw
  dsimp only at hw
  split at hw
  next w₂ hassign =>
    obtain ⟨rfl, -⟩ := Prod.mk.inj hw
    have hturn := assignPairs_cons_congr (w.heap.newTable Table.empty).2 v rest hk hk'
    rw [newFromPairs, newFromPairs]
    dsimp only
    rw [assignPairs_append, assignPairs_append, hassign]
    dsimp only
    generalize Workspace.assignPairs _ _ ((k, v) :: rest) = r at hturn ⊢
    generalize Workspace.assignPairs _ _ ((k', v) :: rest) = r' at hturn ⊢
    obtain ⟨a, x⟩ := r
    obtain ⟨b, y⟩ := r'
    obtain ⟨hbare, hsame⟩ := hturn
    obtain rfl : x = y := hsame
    cases x <;> exact ⟨hbare, rfl⟩
  · cases (Prod.mk.inj hw).2

/-! ### Keys that come out of coercing -/

/-- What is asked of coercing keys: only normal keys come out, each for its spellings and for
nothing else, and a normal key comes back from itself as a value. -/
structure NormalKeys (w : Workspace) : Prop where
  ofBytes : ∀ b, (Key.ofBytes b).IsNormal
  normalize : ∀ k : Key, k.normalize.IsNormal ∧ k.normalize.normalize = k.normalize
  label : ∀ (s : KeySource) limit l, s.label? w.heap limit = .ok l → l.key.IsNormal
  spells : ∀ (s : KeySource) limit key, key.IsNormal →
    (s.key? w.heap limit = some key ↔ s.Spells w.heap key limit)
  toValue : ∀ (l : Label) limit, l.key.IsNormal →
    (KeySource.value l.toValue).key? w.heap limit = some l.key

/-- All keys of a workspace are normal, and come out for their spellings only. -/
theorem normalKeys (w : Workspace) : w.NormalKeys where
  ofBytes := Key.ofBytes_isNormal
  normalize := fun k ↦ ⟨k.normalize_isNormal, k.normalize_normalize⟩
  label := fun _ _ _ ↦ Heap.isNormal_of_label?
  spells := fun _ _ _ ↦ KeySource.key?_eq_some_iff
  toValue := fun l limit hl ↦ by
    obtain ⟨key, buffer⟩ := l
    cases key with
    | int n => exact KeySource.key?_of_ne_reference fun _ he ↦ nomatch he
    | text b =>
      rw [Label.toValue, KeySource.key?_string, KeySource.key?_label]
      exact congrArg some (Key.normalize_of_isNormal hl)

/-! ### Spellings of one key -/

/-- Whether operations do not depend on how a key is spelled. What they give is the same, and so is
the workspace but for the buffers that text keys came in, which no operation looks at. Under an
integer the workspace is the same altogether. -/
structure SpellingFree (w : Workspace) : Prop where
  operation : ∀ (op : KeyOperation) w' k k' key, w.bare = w'.bare →
    k.key? w.heap (op.limit w) = some key → k'.key? w'.heap (op.limit w') = some key →
      (op.run w k).1.bare = (op.run w' k').1.bare ∧ (op.run w k).2 = (op.run w' k').2
  integer : ∀ (op : KeyOperation) k k' n, k.key? w.heap (op.limit w) = some (.int n) →
    k'.key? w.heap (op.limit w) = some (.int n) → op.run w k = op.run w k'
  /-- The operations that take a key as such, in any spelling. -/
  openElement : ∀ p l operands, w.openElement p l.normalize operands = w.openElement p l operands
  insertKey : ∀ p l v, w.insertKey p l.normalize v = w.insertKey p l v
  unsetKey : ∀ p k, w.unsetKey p k.normalize = w.unsetKey p k
  get? : ∀ t k, w.heap.get? t k.normalize = w.heap.get? t k
  contains : ∀ t k, w.heap.contains t k.normalize = w.heap.contains t k
  bindKey : ∀ s l c, w.bindKey s l.normalize c = w.bindKey s l c
  unsetSymbolKey : ∀ s k, w.unsetSymbolKey s k.normalize = w.unsetSymbolKey s k
  /-- The operations that take several keys in turn. -/
  extend : ∀ p ps qs, storedPairs ps = storedPairs qs → (w.extend p ps).bare = (w.extend p qs).bare
  collect : ∀ ps qs, storedPairs ps = storedPairs qs →
    (w.collect ps).1.bare = (w.collect qs).1.bare ∧ (w.collect ps).2 = (w.collect qs).2
  newFromPairs : ∀ before rest v k k' w₁ t key, w.newFromPairs before = (w₁, .ok t) →
    k.key? w₁.heap defaultReferenceDepth = some key →
    k'.key? w₁.heap defaultReferenceDepth = some key →
      (w.newFromPairs (before ++ (k, v) :: rest)).1.bare =
          (w.newFromPairs (before ++ (k', v) :: rest)).1.bare ∧
        (w.newFromPairs (before ++ (k, v) :: rest)).2 =
          (w.newFromPairs (before ++ (k', v) :: rest)).2

/-- No operation of a workspace depends on the spelling of its key. -/
theorem spellingFree (w : Workspace) : w.SpellingFree where
  operation := fun op _ _ _ _ hw ↦ op.run_congr hw
  integer := fun op _ _ _ ↦ op.run_eq_of_key?_int
  openElement := w.openElement_normalize
  insertKey := fun p l v ↦ w.storeKey_normalize p l v [v]
  unsetKey := w.unsetKey_normalize
  get? := fun t k ↦ by rw [Heap.get?, Heap.get?, Table.get?, Table.get?, Key.normalize_normalize]
  contains := fun t k ↦ by
    rw [Heap.contains, Heap.contains, Table.contains, Table.contains, Key.normalize_normalize]
  bindKey := w.bindKey_normalize
  unsetSymbolKey := w.unsetSymbolKey_normalize
  extend := fun _ _ _ ↦ extend_congr
  collect := fun _ _ ↦ collect_congr
  newFromPairs := fun _ _ v _ _ _ _ _ hw ↦ newFromPairs_congr hw v

/-! ### Slots of different keys -/

/-- Whether different keys have different slots. An operation under one key leaves the slots under
all others as they are. Assigning would not, if the array is in a cell that the key refers to, but
then it is not carried out, as that cell is borrowed. An element that was opened is the one under
the key, and writing to it leaves the others as they are. -/
structure SlotPerKey (w : Workspace) : Prop where
  slotAt : ∀ (op : KeyOperation) k key j t, k.key? w.heap (op.limit w) = some key → j ≠ key →
    w.valueAt op.place = .array t → (∀ v ∈ op.operands, w.heap.Admits v) → ¬ op.Displaces w key →
      (op.run w k).1.slotAt op.place j = w.slotAt op.place j
  refused : ∀ p v l t borrowed, w.valueAt p = .array t →
    (∀ c, w.seat p = .content c → c ∈ borrowed) →
    (KeyOperation.insert p v).Displaces w l.normalize.key → w.edit p borrowed (.insert l v) = none
  opened : ∀ (op : KeyOperation) k key e, k.key? w.heap (op.limit w) = some key →
    (op.run w k).2 = .ok (.element e) → e.key = key
  assign : ∀ e v j, j ≠ e.key → (w.assign e v).heap.slot? ⟨e.table, j⟩ = w.heap.slot? ⟨e.table, j⟩
  overwrite : ∀ e v j, j ≠ e.key →
    (w.overwrite e v).heap.slot? ⟨e.table, j⟩ = w.heap.slot? ⟨e.table, j⟩

/-- Every operation of a program has a slot of its own for each key. -/
theorem Reachable.slotPerKey (hw : w.Reachable) : w.SlotPerKey where
  slotAt := fun op _ _ _ _ hk hj hval hops hd ↦ op.slotAt_run hw.valid hw.acyclic hops hval hk hd hj
  refused := fun p v l t borrowed hval hb hd ↦ by
    obtain ⟨c, hread, hseat⟩ := hd
    rw [tableAt_of_valueAt hval] at hread
    exact edit_insert_of_refers hb hval l v hread hseat
  opened := fun op _ _ _ hk he ↦ op.key_of_run hk he
  assign := fun e v j hj ↦ (Heap.writesAt_replace (fun _ hc ↦ hc) v).find? hj
  overwrite := fun e v j hj ↦ (Heap.writesAt_write (fun _ hc ↦ hc) v).find? hj

/-- **One key space.** In every workspace that a program leads to, all keys that come out are normal
and each comes out for its spellings only; an operation on an array or a table of variables does the
same for all spellings of a key; and an operation under one key leaves the slots under all others
alone. -/
theorem Reachable.one_key_space (hw : w.Reachable) : w.NormalKeys ∧ w.SpellingFree ∧ w.SlotPerKey :=
  ⟨w.normalKeys, w.spellingFree, hw.slotPerKey⟩

/-- Setting a variable under the text of a number is setting it under the number, and leaves the
variable under another number as it was. -/
theorem Reachable.one_key_space_mixingEnd : mixingEnd.Reachable ∧
    (KeyOperation.setSymbol "s" .null).run mixingEnd (.label ⟨.text [0x32], .own 9⟩) =
      (KeyOperation.setSymbol "s" .null).run mixingEnd (.value (.int 2)) ∧
    ((KeyOperation.setSymbol "s" .null).run mixingEnd (.value (.int 2))).1.slotAt (.symbols "s")
      (.int 1) = some (.value (.int 7)) := by
  obtain ⟨-, hfree, hslots⟩ := reachable_mixingEnd.one_key_space
  have hkey : (KeySource.value (.int 2)).key? mixingEnd.heap
      ((KeyOperation.setSymbol "s" .null).limit mixingEnd) = some (.int 2) := rfl
  refine ⟨reachable_mixingEnd, hfree.integer _ _ _ 2 rfl hkey, ?_⟩
  refine hslots.slotAt _ _ _ (.int 1) ⟨0⟩ hkey (by decide) rfl (fun v hv ↦ ?_) fun hd ↦ hd
  rw [List.mem_singleton.1 hv]
  exact Heap.admits_null

end Workspace

end SharedValue
