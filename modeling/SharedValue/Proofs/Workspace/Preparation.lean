import SharedValue.Proofs.Workspace.Commands

/-!
# Looking up keys and operands

Before a statement changes an array, its keys are coerced and its operands are read. That makes no
difference to anything but the number of string buffers, and what it gives is a matter of the values
that registers and cells hold: `Workspace.keyOf` and `Edit.resolve` say what, without the buffers
that labels carry, and `Workspace.prepare_eq` says that this is what a statement finds. -/

namespace SharedValue

variable {κ κ' κ'' ν ν' ε : Type}

/-! ### Changes with other keys and operands -/

/-- A deed with other operands. -/
def Deed.map (f : ν → ν') : Deed ν → Deed ν'
  | .read => .read
  | .assign v => .assign (f v)
  | .replace v => .replace (f v)
  | .overwrite v => .overwrite (f v)
  | .push v => .push (f v)

namespace Edit

/-- A change with other keys. -/
def mapKeys (f : κ → κ') : Edit κ ν → Edit κ' ν
  | .clear => .clear
  | .insert k v => .insert (f k) v
  | .push v => .push v
  | .unset k => .unset (f k)
  | .extend pairs => .extend (pairs.map fun p ↦ (f p.1, p.2))
  | .open k deeds => .open (f k) deeds
  | .append deeds => .append deeds

/-- Looks up the keys and operands of a change. The first key that cannot be looked up makes it
fail. -/
def resolve (key : κ → Except ε κ') (operand : ν → ν') : Edit κ ν → Except ε (Edit κ' ν')
  | .clear => .ok .clear
  | .insert k v => (key k).map fun k ↦ .insert k (operand v)
  | .push v => .ok (.push (operand v))
  | .unset k => (key k).map .unset
  | .extend pairs =>
    ((pairs.map (·.1)).mapM key).map fun ks ↦ .extend (ks.zip (pairs.map fun p ↦ operand p.2))
  | .open k deeds => (key k).map fun k ↦ .open k (deeds.map (Deed.map operand))
  | .append deeds => .ok (.append (deeds.map (Deed.map operand)))

/-- Mapping keys twice is mapping them by both functions. -/
theorem mapKeys_mapKeys (f : κ → κ') (g : κ' → κ'') (e : Edit κ ν) :
    (e.mapKeys f).mapKeys g = e.mapKeys fun k ↦ g (f k) := by
  cases e with
  | extend pairs => simp [mapKeys]
  | _ => rfl

end Edit

namespace Workspace

variable {w w' : Workspace} {k : KeyTerm}

/-- A workspace with another number of string buffers. -/
def withBuffers (w : Workspace) (n : Nat) : Workspace :=
  { w with heap := { w.heap with buffers := n } }

/-- The key that a statement gives. -/
def keyOf (w : Workspace) : KeyTerm → Except ValueError Key
  | .register name => (w.heap.coerceKey defaultReferenceDepth (w.operand name)).map (·.key)
  | .key k => .ok k.normalize

/-! ### Keys -/

/-- Making a text takes a number of buffers and gives its bytes. -/
theorem newStr_eq (w : Workspace) (b : Bytes) :
    ∃ n s, w.newStr b = (w.withBuffers n, s) ∧ s.bytes = b := by
  rw [newStr, Heap.newStr]
  by_cases hb : Str.isInternable b
  · rw [if_pos hb]
    exact ⟨w.heap.buffers, ⟨b, .interned⟩, rfl, rfl⟩
  · rw [if_neg hb]
    exact ⟨w.heap.buffers + 1, ⟨b, .own w.heap.buffers⟩, rfl, rfl⟩

/-- So does making a key, which is looked up as the term is. -/
theorem keySource_eq (w : Workspace) (k : KeyTerm) : ∃ n source, w.keySource k =
    (w.withBuffers n, source) ∧
      (source.label? w.heap defaultReferenceDepth).map (·.key) = w.keyOf k := by
  cases k with
  | register name => exact ⟨w.heap.buffers, .value (w.operand name), rfl, rfl⟩
  | key k =>
    cases k with
    | int m => exact ⟨w.heap.buffers, .label (Label.int m), rfl, rfl⟩
    | text b =>
      obtain ⟨n, s, heq, rfl⟩ := w.newStr_eq b
      refine ⟨n, .label (Label.ofStr s), ?_, ?_⟩
      · rw [keySource, heq]
      · show Except.ok (Label.ofStr s).normalize.key = _
        rw [Label.key_normalize]
        rfl

theorem chase_withBuffers (w : Workspace) (n limit : Nat) (v : Value) :
    (w.withBuffers n).heap.chase limit v = w.heap.chase limit v := by
  induction limit generalizing v with
  | zero => cases v <;> rfl
  | succ limit ih =>
    cases v with
    | reference c => exact ih _
    | _ => rfl

/-- Coercing a key has no use for buffers. -/
theorem coerceKey_withBuffers (w : Workspace) (n limit : Nat) (v : Value) :
    (w.withBuffers n).heap.coerceKey limit v = w.heap.coerceKey limit v := by
  rw [Heap.coerceKey, Heap.coerceKey, Heap.dereference, Heap.dereference, chase_withBuffers]
  congr 1

/-- Buffers have no part in how a key is looked up. -/
@[simp]
theorem keyOf_withBuffers (w : Workspace) (n : Nat) : (w.withBuffers n).keyOf = w.keyOf := by
  funext k
  cases k with
  | register name => exact congrArg (Except.map _) (w.coerceKey_withBuffers n _ _)
  | key k => rfl

/-- A label is looked up as its key is. -/
theorem labelOf_eq (w : Workspace) (k : KeyTerm) :
    ∃ n r, w.labelOf k = (w.withBuffers n, r) ∧ r.map (·.key) = w.keyOf k := by
  obtain ⟨n, source, heq, hkey⟩ := w.keySource_eq k
  refine ⟨n, source.label? w.heap defaultReferenceDepth, ?_, hkey⟩
  rw [labelOf, heq]
  dsimp only
  congr 1
  cases source with
  | value v => exact w.coerceKey_withBuffers n _ v
  | label l => rfl

/-- The label that a key gives when its turn comes. -/
theorem exists_label_of_keySource (w : Workspace) (k : KeyTerm) :
    ∃ n source r, w.keySource k = (w.withBuffers n, source) ∧
      source.label? (w.withBuffers n).heap defaultReferenceDepth = r ∧
        r.map (·.key) = w.keyOf k := by
  obtain ⟨n, r, heq, hk⟩ := w.labelOf_eq k
  rw [labelOf] at heq
  generalize w.keySource k = source at heq
  obtain ⟨w₁, source⟩ := source
  obtain ⟨rfl, rfl⟩ := Prod.mk.inj heq
  exact ⟨n, source, _, rfl, rfl, hk⟩

/-- Keys that are looked up are normal. -/
theorem isNormal_of_keyOf {key : Key} (hk : w.keyOf k = .ok key) : key.IsNormal := by
  cases k with
  | register name =>
    rw [keyOf] at hk
    obtain ⟨l, hl, rfl⟩ := Except.map_eq_ok_iff.1 hk
    exact Heap.isNormal_of_label? (k := .value (w.operand name)) hl
  | key k =>
    rw [← Except.ok.inj hk]
    exact k.normalize_isNormal

/-- Labels are looked up in turn as their keys are, by induction on the path. -/
theorem labelsOf_eq (w : Workspace) (ks : List KeyTerm) :
    ∃ n r, w.labelsOf ks = (w.withBuffers n, r) ∧ r.map (List.map (·.key)) = ks.mapM w.keyOf := by
  induction ks generalizing w with
  | nil => exact ⟨w.heap.buffers, .ok [], rfl, rfl⟩
  | cons k rest ih =>
    obtain ⟨n, r, heq, hk⟩ := w.labelOf_eq k
    rw [labelsOf, heq, List.mapM_cons, ← hk]
    cases r with
    | error e => exact ⟨n, .error e, rfl, rfl⟩
    | ok l =>
      obtain ⟨n', r', heq', hrest⟩ := ih (w.withBuffers n)
      rw [keyOf_withBuffers] at hrest
      dsimp only
      rw [heq', ← hrest]
      cases r' with
      | error e => exact ⟨n', .error e, rfl, rfl⟩
      | ok ls => exact ⟨n', .ok (l :: ls), rfl, rfl⟩

/-- What is done under a label is done if its key is one. -/
theorem withLabel_eq {α : Type} (w : Workspace) (k : KeyTerm) (f : Label → α) :
    ∃ (n : Nat) (r : Except ValueError Label),
      w.withLabel k f = (w.withBuffers n, r.map f) ∧ r.map (·.key) = w.keyOf k := by
  obtain ⟨n, r, heq, hk⟩ := w.labelOf_eq k
  refine ⟨n, r, ?_, hk⟩
  rw [withLabel, heq]
  cases r <;> rfl

/-! ### Changes -/

theorem deedOf_eq (w : Workspace) (d : Deed String) : w.deedOf d = d.map w.operand := by
  cases d <;> rfl

/-- The keys and operands of a change. -/
theorem editOf_eq (w : Workspace) (e : Edit KeyTerm String) :
    ∃ (n : Nat) (r : Except ValueError (Edit Label Value)), w.editOf e = (w.withBuffers n, r) ∧
      r.map (Edit.mapKeys (·.key)) = e.resolve w.keyOf w.operand := by
  have hdeeds : w.deedOf = Deed.map w.operand := funext w.deedOf_eq
  -- a change under a key
  have hkeyed : ∀ (k : KeyTerm) (f : Label → Edit Label Value) (g : Key → Edit Key Value),
      (∀ l, (f l).mapKeys (·.key) = g l.key) →
        ∃ (n : Nat) (r : Except ValueError (Edit Label Value)),
          w.withLabel k f = (w.withBuffers n, r) ∧ r.map (Edit.mapKeys (·.key)) = (w.keyOf k).map g := by
    intro k f g hfg
    obtain ⟨n, r, heq, hk⟩ := w.withLabel_eq k f
    refine ⟨n, r.map f, heq, ?_⟩
    rw [← hk]
    cases r with
    | error e => rfl
    | ok l => exact congrArg Except.ok (hfg l)
  cases e with
  | insert k name => exact hkeyed k _ _ fun _ ↦ rfl
  | unset k => exact hkeyed k _ _ fun _ ↦ rfl
  | «open» k deeds =>
    rw [editOf, hdeeds]
    exact hkeyed k _ _ fun _ ↦ rfl
  | append deeds =>
    rw [editOf, hdeeds]
    exact ⟨w.heap.buffers, _, rfl, rfl⟩
  | extend pairs =>
    obtain ⟨n, r, heq, hks⟩ := w.labelsOf_eq (pairs.map (·.1))
    rw [editOf, heq, Edit.resolve, ← hks]
    cases r with
    | error e => exact ⟨n, .error e, rfl, rfl⟩
    | ok ls =>
      refine ⟨n, _, rfl, ?_⟩
      refine congrArg (fun ps ↦ Except.ok (Edit.extend ps)) ?_
      show (ls.zip _).map _ = (ls.map _).zip _
      rw [List.zip_map_left]
      rfl
  | _ => exact ⟨w.heap.buffers, _, rfl, rfl⟩

theorem map_normalize_of_mapM {ks : List KeyTerm} {keys : List Key}
    (hks : ks.mapM w.keyOf = .ok keys) : keys.map Key.normalize = keys := by
  induction ks generalizing keys with
  | nil =>
    rw [← Except.ok.inj hks]
    rfl
  | cons k rest ih =>
    rw [List.mapM_cons] at hks
    obtain ⟨key, hk, hks⟩ := Except.bind_eq_ok_iff.1 hks
    obtain ⟨keys', hrest, hks⟩ := Except.bind_eq_ok_iff.1 hks
    rw [← Except.ok.inj hks, List.map_cons, ih hrest,
      Key.normalize_of_isNormal (isNormal_of_keyOf hk)]

/-- The keys that a statement finds are normal. -/
theorem mapKeys_normalize_of_resolve {e : Edit KeyTerm String} {e' : Edit Key Value}
    (he : e.resolve w.keyOf w.operand = .ok e') : e'.mapKeys Key.normalize = e' := by
  cases e with
  | extend pairs =>
    rw [Edit.resolve] at he
    obtain ⟨keys, hks, rfl⟩ := Except.map_eq_ok_iff.1 he
    rw [Edit.mapKeys]
    have hzip : (keys.map Key.normalize).zip (pairs.map fun p ↦ w.operand p.2) = _ :=
      List.zip_map_left
    rw [map_normalize_of_mapM hks] at hzip
    exact congrArg Edit.extend hzip.symm
  | insert k name =>
    obtain ⟨key, hk, rfl⟩ := Except.map_eq_ok_iff.1 he
    rw [Edit.mapKeys, Key.normalize_of_isNormal (isNormal_of_keyOf hk)]
  | unset k =>
    obtain ⟨key, hk, rfl⟩ := Except.map_eq_ok_iff.1 he
    rw [Edit.mapKeys, Key.normalize_of_isNormal (isNormal_of_keyOf hk)]
  | «open» k deeds =>
    obtain ⟨key, hk, rfl⟩ := Except.map_eq_ok_iff.1 he
    rw [Edit.mapKeys, Key.normalize_of_isNormal (isNormal_of_keyOf hk)]
  | _ =>
    rw [← Except.ok.inj he]
    rfl

/-- The keys and operands of a change and the keys of the path to its array. -/
def changeOf (w : Workspace) (path : List KeyTerm) (e : Edit KeyTerm String) :
    Except ValueError (List Key × Edit Key Value) :=
  match path.mapM w.keyOf with
  | .error err => .error err
  | .ok keys => (e.resolve w.keyOf w.operand).map (keys, ·)

/-- **What a statement finds before it makes its change.** Nothing has changed until then but the
number of buffers and what is held. -/
theorem prepare_eq (w : Workspace) (path : List KeyTerm) (e : Edit KeyTerm String) :
    (∃ n err, w.prepare path e = (w.withBuffers n, .error err) ∧ w.changeOf path e = .error err) ∨
      ∃ n ls e', w.prepare path e = ((w.withBuffers n).hold e'.operands, .ok (ls, e')) ∧
        w.changeOf path e = .ok (ls.map (·.key), e'.mapKeys (·.key)) := by
  obtain ⟨n, r, heq, hks⟩ := w.labelsOf_eq path
  rw [prepare, changeOf, heq, ← hks]
  cases r with
  | error err => exact .inl ⟨n, err, rfl, rfl⟩
  | ok ls =>
    obtain ⟨n', r', heq', he⟩ := (w.withBuffers n).editOf_eq e
    rw [keyOf_withBuffers] at he
    have he : r'.map _ = e.resolve w.keyOf w.operand := he
    dsimp only [Except.map]
    rw [heq', ← he]
    cases r' with
    | error err => exact .inl ⟨n', err, rfl, rfl⟩
    | ok e' => exact .inr ⟨n', ls, e', rfl, rfl⟩

end Workspace

end SharedValue
