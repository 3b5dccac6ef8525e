import SharedValue.Proofs.OrderedMap.Naming

/-!
# Arrays are ordered maps

An array of a program is in a register, in the cell that a register holds, in a variable, or nested
in one of these, or it is the properties of an object (`ArrayName`). It is changed where it is: by
assigning to a key at once or through its element, appending, taking out, and clearing. The
properties of an object can be assigned to and taken out.

Between two changes the array may be copied, and with it every array that it is nested in, but it
always has the pairs of the mirror that makes the same changes, and the program ends early if and
only if the mirror refuses one of them (`Reachable.ordered_map`). -/

namespace SharedValue

/-! ### Statements that change an array -/

namespace ArrayName

/-- The command that changes the array with a name. The properties of an object are only assigned to
and taken out; for any other change the command reads them. -/
def command : ArrayName → Edit KeyTerm String → Command
  | .register name path, e => .array (.edit ⟨name, path.map .key⟩ e)
  | .variable s k path, e => .editVariable s (.key k) (path.map .key) e
  | .properties name, .insert k v => .array (.setProperty name k v)
  | .properties name, .unset k => .array (.unsetProperty name k)
  | .properties name, _ => .array (.properties name)

/-- Whether the array with a name can be changed so, as an ordered map is changed. -/
def Allows : ArrayName → Edit KeyTerm String → Prop
  | .properties _, .insert _ _ | .properties _, .unset _ => True
  | .properties _, _ => False
  | _, e => e.IsOfMap

/-- A statement that changes the array with a name, and the register for its result. -/
def editing (a : ArrayName) (p : Edit KeyTerm String × Option String) : Statement :=
  ⟨a.command p.1, p.2⟩

end ArrayName

namespace Workspace

variable {w w' w₁ : Workspace} {a : ArrayName} {base : Place} {path keys : List Key} {t : TableId}
  {m : Mirror} {borrowed : List CellId} {e : Edit KeyTerm String} {k : Key} {s name : String}

/-- The change that a statement makes, with its keys and operands looked up. A key that is none
makes it no change. -/
def changeIn (w : Workspace) (e : Edit KeyTerm String) : Option (Edit Key Value) :=
  (e.resolve w.keyOf w.operand).toOption

/-- The changes that statements make, each looked up when its turn comes. -/
def changes (w : Workspace) (a : ArrayName) :
    List (Edit KeyTerm String × Option String) → List (Edit Key Value)
  | [] => []
  | p :: rest =>
    (w.changeIn p.1).toList ++
      match w.step (a.editing p) with
      | none => []
      | some (w, _) => w.changes a rest

/-! ### Looking up what is to be done -/

/-- Looking up keys and operands leaves a change what it is. -/
theorem isOfMap_of_resolve {κ κ' ν ν' ε : Type} {key : κ → Except ε κ'} {operand : ν → ν'}
    {e : Edit κ ν} {e' : Edit κ' ν'} (he : e.IsOfMap) (hr : e.resolve key operand = .ok e') :
    e'.IsOfMap := by
  match e, he with
  | .clear, _ | .push _, _ =>
    rw [← Except.ok.inj hr]
    trivial
  | .insert _ _, _ | .unset _, _ | .open _ [.assign _], _ =>
    obtain ⟨k', -, rfl⟩ := Except.map_eq_ok_iff.1 hr
    trivial

/-- So does mapping its keys. -/
theorem isOfMap_of_mapKeys {κ κ' ν : Type} {f : κ → κ'} {e : Edit κ ν}
    (he : (e.mapKeys f).IsOfMap) : e.IsOfMap := by
  cases e with
  | «open» k deeds =>
    rcases deeds with _ | ⟨d, _ | ⟨d', rest⟩⟩
    · exact he
    · cases d <;> exact he
    · cases d <;> exact he
  | _ => exact he

/-- What looking up a path of keys and a change comes to: the change fails by one of its keys, or
its keys are as `changeIn` says and its operands are held. -/
theorem prepare_cases (w : Workspace) (keys : List Key) (he : e.IsOfMap) :
    (∃ n err, w.prepare (keys.map .key) e = (w.withBuffers n, .error err) ∧ w.changeIn e = none) ∨
    ∃ n ls e', w.prepare (keys.map .key) e =
        ((w.withBuffers n).hold e'.operands, .ok (ls, e')) ∧
      ls.map (·.key) = keys.map Key.normalize ∧ e'.IsOfMap ∧
      w.changeIn e = some (e'.mapKeys fun l ↦ l.normalize.key) := by
  have hchange : ∀ {x}, w.changeOf (keys.map .key) e = x →
      x = (e.resolve w.keyOf w.operand).map (keys.map Key.normalize, ·) := by
    rintro x rfl
    rw [changeOf, mapM_key]
  rcases w.prepare_eq (keys.map .key) e with ⟨n, err, heq, hc⟩ | ⟨n, ls, e', heq, hc⟩
  · refine .inl ⟨n, err, heq, ?_⟩
    have hr := hchange hc
    rw [changeIn]
    cases hres : e.resolve w.keyOf w.operand with
    | error err => rfl
    | ok e' =>
      rw [hres] at hr
      cases hr
  · refine .inr ⟨n, ls, e', heq, ?_⟩
    obtain ⟨e'', hres, hp⟩ := Except.map_eq_ok_iff.1 (hchange hc).symm
    obtain ⟨hls, rfl⟩ := Prod.mk.inj hp
    refine ⟨hls.symm, isOfMap_of_mapKeys (isOfMap_of_resolve he hres), ?_⟩
    have hnormal := mapKeys_normalize_of_resolve hres
    rw [Edit.mapKeys_mapKeys] at hnormal
    rw [changeIn, hres]
    simp only [Label.key_normalize]
    exact congrArg some hnormal.symm

/-- A key gives the same label whatever the settings are. -/
theorem exists_label_of_key (w : Workspace) (k : Key) : ∃ n source l,
    w.keySource (.key k) = (w.withBuffers n, source) ∧ l.key = k.normalize ∧
      ∀ h limit, KeySource.label? h limit source = .ok l := by
  cases k with
  | int i =>
    exact ⟨w.heap.buffers, .label (Label.int i), _, rfl, Label.key_normalize _, fun _ _ ↦ rfl⟩
  | text b =>
    obtain ⟨n, s, heq, rfl⟩ := w.newStr_eq b
    refine ⟨n, .label (Label.ofStr s), _, ?_, Label.key_normalize _, fun _ _ ↦ rfl⟩
    rw [keySource, heq]

/-! ### The change of one statement -/

/-- Texts that are made make no difference to a mirror. -/
theorem Mirrors.withBuffers (hm : w.Mirrors base t m) (n : Nat) :
    (w.withBuffers n).Mirrors base t m :=
  ⟨hm.slots, hm.content⟩

/-- Nor do values that are held. -/
theorem Mirrors.hold (hm : w.Mirrors base t m) (vs : List Value) : (w.hold vs).Mirrors base t m :=
  ⟨hm.slots, hm.content⟩

/-- The change of an array that a register and a path name. -/
theorem carried_editTarget (hv : w.Valid) (hl : w.Leads t (w.placeOf name) (keys.map Key.normalize))
    (hm : w.Mirrors (w.placeOf name) t m) (he : e.IsOfMap) :
    Option.Rel (fun q m' ↦ Carried (w.placeOf name) (keys.map Key.normalize) w.registers q.1 m')
      (w.editTarget ⟨name, keys.map .key⟩ e) (m.run (w.borrowedBy name) (w.changeIn e).toList) := by
  have hv₁ := (quietly_prepare hv (keys.map .key) e).1.valid hv
  have hs : w.Starts (.register name keys) (w.placeOf name) (keys.map Key.normalize)
      (w.borrowedBy name) := .register
  rw [editTarget]
  rcases w.prepare_cases keys he with ⟨n, err, heq, hc⟩ | ⟨n, ls, e', heq, hls, he', hc⟩
  · rw [heq, hc]
    exact .some (.of_leads (hl.withBuffers n) (hm.withBuffers n))
  · rw [heq] at hv₁ ⊢
    rw [hc]
    rw [← hls] at hl ⊢
    dsimp only
    exact Reached.carried_editFrom (.root hs.isOutside) hv₁ ((hl.withBuffers n).hold _)
      (placeOf_ne_symbols w name) (isNormal_of_map_key hls) ((hm.withBuffers n).hold _) he'
      (fun v hmem ↦ List.mem_append_right _ hmem) hs.mem_borrowed

section Variable

variable {l : Label} {ls : List Label} {e' : Edit Label Value}

/-- Changing an array in a variable, once its keys and operands are looked up: the entry is made
ready, and the array is changed from there. -/
theorem editVariable_eq {source : KeySource} {path : List KeyTerm}
    (hp : w.prepare path e = (w₁, .ok (ls, e'))) (hk : w₁.keySource (.key k) = (w', source))
    (hl : ∀ h limit, source.label? h limit = .ok l) :
    w.editVariable s (.key k) path e =
      (w'.openElement (.symbols s) l []).1.editFrom
        (.element (w'.openElement (.symbols s) l []).2) ls
        ((w'.openElement (.symbols s) l []).1.heap.binding?
          (w'.openElement (.symbols s) l []).2).toList e' := by
  rw [editVariable, hp]
  dsimp only
  rw [hk]
  dsimp only
  rw [openSymbol, symbolLabel, hl]

/-- The change of an array in an entry that is not bound. -/
theorem carried_editFrom_plain (hv : w.Valid)
    (hl : w.Leads t (.symbols s) (l.key :: ls.map (·.key))) (hnormal : l.key.IsNormal)
    (hls : ∀ l ∈ ls, l.key.IsNormal) (hm : w.Mirrors (.symbols s) t m) (he : e'.IsOfMap)
    (hheld : ∀ v ∈ e'.operands, v ∈ w.held) :
    Option.Rel (fun q m' ↦ Carried (.symbols s) (l.key :: ls.map (·.key)) w.registers q.1 m')
      ((w.openElement (.symbols s) l []).1.editFrom
        (.element (w.openElement (.symbols s) l []).2) ls
        ((w.openElement (.symbols s) l []).1.heap.binding?
          (w.openElement (.symbols s) l []).2).toList e')
      (m.run [] [e'.mapKeys fun l ↦ l.normalize.key]) := by
  obtain ⟨u, y, hval, hf, hr, hl₁, htable, ha, hv₁⟩ :=
    hl.separate hv (.root fun _ he ↦ by cases he)
  have hplain : (w.separate (.symbols s) []).1.heap.binding?
      ⟨(w.separate (.symbols s) []).2, l.key⟩ = none := by
    obtain ⟨z, -, hz⟩ := hl₁.exists_holds
    rw [Heap.binding?, Heap.slot?, show (Heap.table _ _).find? _ = _ from hz]
  rw [openElement_eq_of_array hv hval hnormal hf]
  dsimp only
  rw [hplain]
  exact ha.rel_carried (hr.carried_editFrom hv₁ hl₁ (fun _ he ↦ by cases he) hls
    (hm.of_table_eq ha htable) he (ha.held ▸ hheld) fun he ↦ by cases he)

/-- The change of an array in an entry that is bound to a cell. -/
theorem carried_editFrom_bound {c : CellId} (hc : w.Attached s l.key c) (hv : w.Valid)
    (hl : w.Leads t (.content c) (ls.map (·.key))) (hls : ∀ l ∈ ls, l.key.IsNormal)
    (hm : w.Mirrors (.content c) t m) (he : e'.IsOfMap) (hheld : ∀ v ∈ e'.operands, v ∈ w.held) :
    Option.Rel (fun q m' ↦ Carried (.content c) (ls.map (·.key)) w.registers q.1 m')
      ((w.openElement (.symbols s) l []).1.editFrom
        (.element (w.openElement (.symbols s) l []).2) ls
        ((w.openElement (.symbols s) l []).1.heap.binding?
          (w.openElement (.symbols s) l []).2).toList e')
      (m.run [c] [e'.mapKeys fun l ↦ l.normalize.key]) := by
  obtain ⟨u, hval, -⟩ := hl.exists_holds
  have hr : w.Reached (.content c) [] (.content c) := .root fun _ he ↦ by cases he
  rw [hc.openElement_eq hv hval rfl]
  dsimp only
  rw [hc.binding?, editFrom_of_binding hc.binding? he]
  exact hr.carried_editFrom hv hl (fun _ he ↦ by cases he) hls hm he hheld
    fun he ↦ List.mem_singleton.2 (Place.content.inj he).symm

/-- The change of an array in a variable. -/
theorem Starts.carried_editVariable (hs : w.Starts (.variable s k keys) base path borrowed)
    (hv : w.Valid) (hl : w.Leads t base path) (hm : w.Mirrors base t m) (he : e.IsOfMap) :
    Option.Rel (fun q m' ↦ Carried base path w.registers q.1 m')
      (w.editVariable s (.key k) (keys.map .key) e) (m.run borrowed (w.changeIn e).toList) := by
  have hv₁ := (quietly_prepare hv (keys.map .key) e).1.valid hv
  rcases w.prepare_cases keys he with ⟨n, err, heq, hc⟩ | ⟨n, ls, e', heq, hls, he', hc⟩
  · rw [editVariable, heq, hc]
    exact .some (.of_leads (hl.withBuffers n) (hm.withBuffers n))
  · rw [heq] at hv₁
    obtain ⟨n', source, l, hk, hlabel, hsource⟩ :=
      exists_label_of_key ((w.withBuffers n).hold e'.operands) k
    have hv₂ := (valid_withBuffers_iff (n := n')).2 hv₁
    have hl₂ := ((hl.withBuffers n).hold e'.operands).withBuffers n'
    have hm₂ := ((hm.withBuffers n).hold e'.operands).withBuffers n'
    have hnormal := isNormal_of_map_key hls
    rw [editVariable_eq heq hk hsource, hc]
    generalize hw₂ : ((w.withBuffers n).hold e'.operands).withBuffers n' = w₂ at hv₂ hl₂ hm₂ ⊢
    have hregisters : w₂.registers = w.registers := by rw [← hw₂]; rfl
    have hheld : ∀ v ∈ e'.operands, v ∈ w₂.held := by
      rw [← hw₂]
      exact fun v hmem ↦ List.mem_append_right _ hmem
    rw [← hregisters]
    cases hs with
    | plain =>
      rw [← hlabel, ← hls] at hl₂ ⊢
      have hkey : l.key.IsNormal := hlabel ▸ k.normalize_isNormal
      exact carried_editFrom_plain hv₂ hl₂ hkey hnormal hm₂ he' hheld
    | @bound _ _ _ c hatt =>
      have hatt₂ : w₂.Attached s l.key c := by
        rw [hlabel, ← hw₂]
        exact hatt
      rw [← hls] at hl₂ ⊢
      exact carried_editFrom_bound hatt₂ hv₂ hl₂ hnormal hm₂ he' hheld

end Variable

/-! ### Properties -/

section Properties

variable {o : ObjectId} (hv : w.Valid) (ho : w.operand name = .object o)
  (hl : w.Leads t (.properties o) []) (hm : w.Mirrors (.properties o) t m)

include hl in
/-- The properties of an object are where writing starts. -/
theorem located_properties : w.Located (.properties o) [] (.properties o) t := by
  cases hl with
  | here hval hold =>
    exact ⟨.root (fun _ he ↦ by cases he), hval, hold, fun _ he ↦ by cases he⟩

include hv ho hl hm

/-- Assigning to a property. -/
theorem carried_setProperty (k : KeyTerm) (v : String) :
    Option.Rel (fun q m' ↦ Carried (.properties o) [] w.registers q.1 m')
      (w.arrayCommand (.setProperty name k v)) (m.run [] (w.changeIn (.insert k v)).toList) := by
  obtain ⟨n, source, r, heq, hlabel, hk⟩ := exists_label_of_keySource (w.hold [w.operand v]) k
  have hq := (quietly_hold (admits_operand hv v).of_mem_singleton).valid hv
  have hv₁ := (valid_withBuffers_iff (n := n)).2 hq
  have hl₁ := (hl.hold [w.operand v]).withBuffers n
  have hm₁ := (hm.hold [w.operand v]).withBuffers n
  have hmem : w.operand v ∈ ((w.hold [w.operand v]).withBuffers n).held :=
    List.mem_append_right _ (List.mem_singleton_self _)
  have hchange : w.changeIn (.insert k v) =
      (r.toOption.map (·.key)).map fun k ↦ .insert k (w.operand v) := by
    show ((w.keyOf k).map fun k ↦ Edit.insert k (w.operand v)).toOption = _
    rw [show w.keyOf k = r.map (·.key) from hk.symm]
    cases r <;> rfl
  rw [Mirror.run_of_nothing_borrowed, hchange, arrayCommand, ho]
  dsimp only
  rw [heq]
  dsimp only
  rw [Workspace.insert, hlabel]
  cases r with
  | error err => exact .some (.of_leads hl₁ hm₁)
  | ok l =>
    have hc := (located_properties hl₁).carried_storeKey (l := l) hv₁ hm₁
      (hv₁.admits_held hmem).of_mem_singleton hmem fun _ _ he ↦ by cases he
    rw [Label.key_normalize_of_isNormal (Heap.isNormal_of_label? hlabel)] at hc
    exact .some (hc.hold _)

/-- Taking a property out. -/
theorem carried_unsetProperty (k : KeyTerm) :
    Option.Rel (fun q m' ↦ Carried (.properties o) [] w.registers q.1 m')
      (w.arrayCommand (.unsetProperty name k)) (m.run [] (w.changeIn (.unset k)).toList) := by
  obtain ⟨n, source, r, heq, hlabel, hk⟩ := exists_label_of_keySource w k
  have hv₁ := (valid_withBuffers_iff (n := n)).2 hv
  have hl₁ := hl.withBuffers n
  have hm₁ := hm.withBuffers n
  have hchange : w.changeIn (.unset k) = (r.toOption.map (·.key)).map .unset := by
    show ((w.keyOf k).map Edit.unset).toOption = _
    rw [← hk]
    cases r <;> rfl
  rw [Mirror.run_of_nothing_borrowed, hchange, arrayCommand, ho]
  dsimp only
  rw [heq]
  dsimp only
  rw [Workspace.unset, hlabel]
  cases r with
  | error err => exact .some (.of_leads hl₁ hm₁)
  | ok l =>
    have hc := (located_properties hl₁).carried_unsetKey hv₁ hm₁ l.key
    rw [Key.normalize_of_isNormal (Heap.isNormal_of_label? hlabel)] at hc
    exact .some hc

end Properties

/-! ### Statements -/

/-- A variable in a table that is there. -/
theorem Starts.has (hs : w.Starts (.variable s k keys) base path borrowed)
    (hl : w.Leads t base path) :
    w.symbolTables.has s = true := by
  rw [Registry.has_iff_mem]
  cases hs with
  | plain =>
    obtain ⟨x, -, S, hS, -⟩ := hl.exists_holds
    exact List.mem_map_of_mem hS
  | bound hc =>
    obtain ⟨S, hS, -⟩ := hc
    exact List.mem_map_of_mem (Registry.mem_of_get? hS)

/-- A command changes an array and returns its result. -/
theorem rel_carried_result {registers : Registry Value}
    {x : Option (Workspace × Except ValueError (List Outcome))} {y : Option Mirror}
    (h : Option.Rel (fun q m' ↦ Carried base path registers q.1 m') x y) :
    Option.Rel (fun q m' ↦ Carried base path registers q.1 m')
      (x.map fun (w, r) ↦ (w, result id r)) y := by
  cases h with
  | none => exact .none
  | some hc => exact .some hc

/-- **A command changes an array as the mirror is changed**, and is refused if and only if the
mirror refuses the change. -/
theorem Starts.carried (hs : w.Starts a base path borrowed) (hv : w.Valid)
    (hl : w.Leads t base path) (hm : w.Mirrors base t m) (he : a.Allows e) :
    Option.Rel (fun q m' ↦ Carried base path w.registers q.1 m') (w.carryOut (a.command e))
      (m.run borrowed (w.changeIn e).toList) := by
  cases a with
  | register name keys =>
    cases hs with
    | register => exact rel_carried_result (carried_editTarget hv hl hm he)
  | «variable» s k keys =>
    rw [ArrayName.command, carryOut, if_pos (hs.has hl)]
    exact rel_carried_result (hs.carried_editVariable hv hl hm he)
  | properties name =>
    cases hs with
    | properties ho =>
      cases e with
      | insert k v => exact carried_setProperty hv ho hl hm k v
      | unset k => exact carried_unsetProperty hv ho hl hm k
      | _ => exact absurd he id

/-- No change of an array binds a name. -/
theorem not_rebinds_command (w : Workspace) (a : ArrayName) (e : Edit KeyTerm String) :
    ¬ w.Rebinds (a.command e) s k := by
  cases a with
  | properties name => cases e <;> exact id
  | _ => exact id

/-- Whether a name means an array with a given mirror, with writing starting from a base. -/
structure Tracks (w : Workspace) (a : ArrayName) (base : Place) (path : List Key)
    (borrowed : List CellId) (m : Mirror) : Prop where
  starts : w.Starts a base path borrowed
  leads : ∃ t, w.Leads t base path ∧ w.Mirrors base t m

/-- Delivering a result to another register and ending the command. -/
theorem Starts.tracks_deliver (hs : w.Starts a base path borrowed)
    (hc : Carried base path w.registers w' m)
    (hatt : ∀ {s k c}, w.Attached s k c → w'.Attached s k c) {into : Option String}
    (hinto : ∀ name, a.register? = some name → into ≠ some name)
    (r : Except Failure (List Outcome)) :
    (w'.deliver into r).settle.Tracks a base path borrowed m := by
  obtain ⟨registers, heq, hother⟩ := deliver_eq w' into r
  obtain ⟨t, hl, hm⟩ := hc.leads
  have hl' : Leads { w' with registers := registers } t base path :=
    hl.withRegisters fun hb ↦ hother (hinto _ (hs.register?_eq hb))
  have hs' : Starts { w' with registers := registers } a base path borrowed :=
    hs.congr hl' (fun ha hb ↦ (hother (hinto _ ha)).trans (hc.register hb)) hatt
  obtain ⟨hend, htable⟩ := hl'.settle fun hval hold ↦ hs'.kept hval hold
  rw [heq]
  refine ⟨hs'.congr hend (fun _ _ ↦ rfl) fun h ↦ (attached_settle h).1, t, hend, ?_,
    fun {c} hb hsound ↦ ?_⟩
  · rw [htable]
    exact hm.slots
  · -- a cell that is left is as it was
    obtain ⟨v, hv⟩ := hsound
    have hv' := (released_settle { w' with registers := registers }).part.cell hv
    rw [← hm.content hb ⟨v, hv'⟩, Heap.cell, Heap.cell, hv, hv']

/-- **A statement changes an array as it changes its mirror.** -/
theorem Tracks.step (ht : w.Tracks a base path borrowed m) (hv : w.Valid)
    {s : Edit KeyTerm String × Option String} (he : a.Allows s.1)
    (hinto : ∀ name, a.register? = some name → s.2 ≠ some name) :
    Option.Rel (fun p m' ↦ p.1.Tracks a base path borrowed m') (w.step (a.editing s))
      (m.run borrowed (w.changeIn s.1).toList) := by
  obtain ⟨t, hl, hm⟩ := ht.leads
  have hcarried := ht.starts.carried hv hl hm he
  have hcarries : ∀ {w' r}, w.carryOut (a.command s.1) = some (w', r) →
      w.Carries (fun _ _ ↦ False) w' r :=
    fun hr ↦ carries_carryOut hv (not_rebinds_command w a s.1) hr
  rw [Workspace.step, ArrayName.editing]
  dsimp only
  generalize w.carryOut (a.command s.1) = x at hcarried hcarries
  generalize m.run borrowed _ = y at hcarried
  cases hcarried with
  | none => exact .none
  | @some q m' hc =>
    have heffect := (hcarries rfl).effect
    exact .some (ht.starts.tracks_deliver hc (fun ha ↦ (heffect.attached hv ha id).1) hinto q.2)

/-! ### Programs -/

/-- A program of changes, by induction on its statements: the changes that are left are looked up
where the first one has led to. -/
theorem Tracks.run (ht : w.Tracks a base path borrowed m) (hv : w.Valid)
    {edits : List (Edit KeyTerm String × Option String)}
    (hedits : ∀ s ∈ edits, a.Allows s.1 ∧ ∀ name, a.register? = some name → s.2 ≠ some name) :
    Option.Rel (fun p m' ↦ p.1.Tracks a base path borrowed m') (w.run (edits.map a.editing))
      (m.run borrowed (w.changes a edits)) := by
  induction edits generalizing w m with
  | nil => exact .some ht
  | cons s rest ih =>
    obtain ⟨he, hinto⟩ := hedits s List.mem_cons_self
    have hstep := ht.step hv he hinto
    have hvalid : ∀ {w' report}, w.step (a.editing s) = some (w', report) → w'.Valid :=
      fun hs ↦ valid_step hv hs
    rw [List.map_cons, Workspace.run, changes, Mirror.run_append]
    generalize w.step (a.editing s) = x at hstep hvalid
    generalize m.run borrowed (w.changeIn s.1).toList = y at hstep
    cases hstep with
    | none => exact .none
    | @some p m₁ h =>
      have hrest := ih h (hvalid rfl) fun s hmem ↦ hedits s (List.mem_cons_of_mem _ hmem)
      rw [Option.bind_some]
      dsimp only
      generalize p.1.run (rest.map a.editing) = x' at hrest
      generalize m₁.run borrowed (p.1.changes a rest) = y' at hrest
      cases hrest with
      | none => exact .none
      | some h' => exact .some h'

/-- The pairs of an array are those of its mirror. -/
theorem Mirrors.pairs_eq (hm : w.Mirrors base t m) (hv : w.Valid) (ht : w.heap.Sound (.table t)) :
    w.heap.pairs t = m.pairs := by
  rw [Heap.pairs, Table.pairs_eq_slots, hm.slots, Mirror.pairs]
  refine List.filterMap_congr fun p hp ↦ ?_
  -- no slot of an array is bound
  rw [← hm.slots] at hp
  obtain ⟨e, he, rfl⟩ := List.mem_map.1 hp
  obtain ⟨v, hs⟩ :=
    (hv.heap.table_wellFormed t).exists_value ht.bindings_eq_zero he
  rw [hs]
  rfl

/-- An array with a name is sound. -/
theorem Starts.sound (hs : w.Starts a base path borrowed) (hv : w.Valid)
    (hl : w.Leads t base path) :
    w.heap.Sound (.table t) := by
  cases hs with
  | register => exact hl.sound hv (placeOf_ne_symbols w _)
  | plain =>
    cases hl with
    | there _ _ hl => exact hl.sound hv fun _ he ↦ by cases he
  | _ => exact hl.sound hv fun _ he ↦ by cases he

/-- **An array is an ordered map.** However an array came about, and wherever a program can change
it, in a register, in a cell, in a variable, nested in one of these, or as the properties of an
object, after any number of changes through its name it has the slots and the pairs of the mirror
that made the same changes, and so have the cells that its slots refer to. A program of such changes
gets to its end if and only if the mirror makes them all: it ends early where an assignment goes
through a reference to the very cell that the array is in, and nowhere else. -/
theorem Reachable.ordered_map (hw : w.Reachable) (ht : w.arrayNamed a = .ok t)
    {edits : List (Edit KeyTerm String × Option String)}
    (hedits : ∀ s ∈ edits, a.Allows s.1 ∧ ∀ name, a.register? = some name → s.2 ≠ some name) :
    Option.Rel (fun p m ↦ ∃ t', p.1.arrayNamed a = .ok t' ∧ (p.1.heap.table t').slots = m.slots ∧
        p.1.heap.pairs t' = m.pairs ∧
        ∀ {c}, c ∉ w.borrowedFor a → p.1.heap.Sound (.cell c) → p.1.heap.cell c = m.content c)
      (w.run (edits.map a.editing))
      ((w.mirror t).run (w.borrowedFor a) (w.changes a edits)) := by
  have hv := hw.valid
  obtain ⟨base, path, borrowed, hs, hl⟩ := exists_starts hv ht
  rw [hs.borrowedFor_eq hl]
  have hrun := Tracks.run ⟨hs, t, hl, w.mirrors_mirror base t⟩ hv hedits
  have hvalid : ∀ {w' reports}, w.run (edits.map a.editing) = some (w', reports) → w'.Valid :=
    fun hr ↦ valid_run hv hr
  generalize w.run (edits.map a.editing) = x at hrun hvalid
  generalize (w.mirror t).run borrowed _ = y at hrun
  cases hrun with
  | none => exact .none
  | @some p m h =>
    obtain ⟨hs', t', hl', hm⟩ := h
    have hv' : p.1.Valid := hvalid rfl
    refine .some ⟨t', hs'.arrayNamed_eq hv' hl', hm.slots,
      hm.pairs_eq hv' (hs'.sound hv' hl'), fun {c} hc ↦ ?_⟩
    exact hm.content fun hb ↦ hc (hs.mem_borrowed hb)

/-- Puts an array of an integer and a reference into a register, into a list in another one, and
into the very cell that it refers to, and binds a variable to that cell. -/
def sharing : List Statement :=
  [⟨.array (.constant (.int 7)), some "x"⟩, ⟨.array (.cell "x"), some "c"⟩,
    ⟨.array (.list ["x", "c"]), some "b"⟩, ⟨.array (.list ["b"]), some "a"⟩,
    ⟨.array (.setCell "c" "b"), none⟩, ⟨.symbols "s" (.create {}), none⟩,
    ⟨.symbols "s" (.bind (.key (.text [118])) "c"), none⟩]

/-- Where that ends. -/
def sharedList : Workspace := ((empty.run sharing).map (·.1)).getD empty

/-- Takes the first element out, appends, assigns through the reference and puts the first element
back. -/
def reordering : List (Edit KeyTerm String × Option String) :=
  [(.unset (.key (.int 0)), none), (.push "c", none), (.insert (.key (.text [49])) "x", some "y"),
    (.open (.key (.int 0)) [.assign "x"], none)]

/-- The array in the list is changed so, in the order of its mirror, and the cell is written to. The
array in the variable has the same elements, but it is in that cell: the assignment is refused. -/
theorem Reachable.ordered_map_reordering : sharedList.Reachable ∧
    sharedList.arrayNamed (.register "a" [.int 0]) = .ok ⟨0⟩ ∧
      (∃ w' reports t',
        sharedList.run (reordering.map (ArrayName.register "a" [.int 0]).editing) =
            some (w', reports) ∧
          w'.arrayNamed (.register "a" [.int 0]) = .ok t' ∧ w'.heap.pairs t' =
            [(.int 1, .reference ⟨0⟩), (.int 2, .reference ⟨0⟩), (.int 0, .int 7)] ∧
          w'.heap.cell ⟨0⟩ = .int 7) ∧
      sharedList.arrayNamed (.variable "s" (.text [118]) []) = .ok ⟨0⟩ ∧
        sharedList.run (reordering.map (ArrayName.variable "s" (.text [118]) []).editing) =
          none := by
  have hreach : sharedList.Reachable := ⟨sharing, _, rfl⟩
  have hmap : ∀ s ∈ reordering, s.1.IsOfMap ∧ s.2 ≠ some "a" := by
    intro s hs
    simp only [reordering, List.mem_cons, List.not_mem_nil, or_false] at hs
    rcases hs with rfl | rfl | rfl | rfl <;> exact ⟨trivial, by decide⟩
  have hname : sharedList.arrayNamed (.register "a" [.int 0]) = .ok ⟨0⟩ := rfl
  have hlist := hreach.ordered_map hname fun s (hs : s ∈ reordering) ↦
    ⟨(hmap s hs).1, fun n hn ↦ Option.some.inj hn ▸ (hmap s hs).2⟩
  have hname' : sharedList.arrayNamed (.variable "s" (.text [118]) []) = .ok ⟨0⟩ := rfl
  have hvariable := hreach.ordered_map hname' fun s (hs : s ∈ reordering) ↦
    ⟨(hmap s hs).1, fun n hn ↦ by cases hn⟩
  -- where the program on the list ends, and what its mirror comes to
  obtain ⟨w', reports, hrun, hsound⟩ : ∃ w' reports,
      sharedList.run (reordering.map (ArrayName.register "a" [.int 0]).editing) =
        some (w', reports) ∧ w'.heap.Sound (.cell ⟨0⟩) := ⟨_, _, rfl, _, rfl⟩
  obtain ⟨m, hm, hpairs, hcontent⟩ : ∃ m, (sharedList.mirror ⟨0⟩).run
        (sharedList.borrowedFor (.register "a" [.int 0]))
        (sharedList.changes (.register "a" [.int 0]) reordering) = some m ∧
      m.pairs = [(.int 1, .reference ⟨0⟩), (.int 2, .reference ⟨0⟩), (.int 0, .int 7)] ∧
      m.content ⟨0⟩ = .int 7 := ⟨_, rfl, rfl, rfl⟩
  have hrefused : (sharedList.mirror ⟨0⟩).run
      (sharedList.borrowedFor (.variable "s" (.text [118]) []))
      (sharedList.changes (.variable "s" (.text [118]) []) reordering) = none := rfl
  rw [hrun, hm] at hlist
  rw [hrefused] at hvariable
  refine ⟨hreach, hname, ⟨w', reports, ?_⟩, hname', ?_⟩
  · cases hlist with
    | some h =>
      obtain ⟨t', ht', -, hpairs', hcell⟩ := h
      exact ⟨t', hrun, ht', hpairs'.trans hpairs, (hcell List.not_mem_nil hsound).trans hcontent⟩
  · generalize sharedList.run _ = x at hvariable ⊢
    cases hvariable
    rfl

end Workspace

end SharedValue
