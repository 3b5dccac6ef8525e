import SharedValue.Equality
import SharedValue.Proofs.Acyclic.Reachable
import SharedValue.Proofs.Readings
import SharedValue.Proofs.Walk.Depth

/-!
# Equality of content

Equality takes two shortcuts: a table is equal to itself without a look at its elements, and two
arrays with different numbers of elements are told apart before any two elements are. `SameContent`
takes none. It compares what iterations give, and so it does not know how arrays are stored. A
double that is not a number is not equal to itself, and where none is nested in a value the
shortcuts make no difference (`Reachable.equal_iff_sameContent`).

Objects and references are compared as such, so comparing never leaves the array that it starts
from, and comes to an end where no array contains itself.
-/

namespace SharedValue

/-! ### Doubles -/

namespace Double

variable {a b c : Double}

/-- Two doubles are equal if they are the same or both are zeros, and neither is a NaN. -/
theorem equal_iff : a.equal b = true ↔
    a.isNaN = false ∧ b.isNaN = false ∧ (a = b ∨ a.isZero = true ∧ b.isZero = true) := by
  simp [equal, and_assoc]

/-- A double is equal to itself unless it is a NaN. -/
theorem equal_self (ha : a.isNaN = false) : a.equal a = true :=
  equal_iff.2 ⟨ha, ha, .inl rfl⟩

theorem equal_symm (h : a.equal b = true) : b.equal a = true := by
  obtain ⟨ha, hb, h⟩ := equal_iff.1 h
  exact equal_iff.2 ⟨hb, ha, h.imp Eq.symm And.symm⟩

theorem equal_trans (h : a.equal b = true) (h' : b.equal c = true) : a.equal c = true := by
  obtain ⟨ha, -, h⟩ := equal_iff.1 h
  obtain ⟨-, hc, h'⟩ := equal_iff.1 h'
  refine equal_iff.2 ⟨ha, hc, ?_⟩
  rcases h with rfl | ⟨ha', hb'⟩
  · exact h'
  · rcases h' with rfl | ⟨-, hc'⟩
    · exact .inr ⟨ha', hb'⟩
    · exact .inr ⟨ha', hc'⟩

end Double

/-! ### Storage -/

namespace Table

/-- Whether two rows of entries differ only in how they are stored: in entries that show nothing,
and in slots that show the same. -/
inductive StoredAlike (content : CellId → Value) : List Entry → List Entry → Prop
  | nil : StoredAlike content [] []
  | left {e : Entry} {es es' : List Entry} (hnone : e.slot.load content = none)
      (hs : StoredAlike content es es') : StoredAlike content (e :: es) es'
  | right {e : Entry} {es es' : List Entry} (hnone : e.slot.load content = none)
      (hs : StoredAlike content es es') : StoredAlike content es (e :: es')
  | cons {e e' : Entry} {es es' : List Entry} (hkey : e.key = e'.key)
      (hload : e.slot.load content = e'.slot.load content)
      (hs : StoredAlike content es es') : StoredAlike content (e :: es) (e' :: es')

/-- **An iteration does not tell how entries are stored.** -/
theorem StoredAlike.pairs_eq {content : CellId → Value} {T T' : Table}
    (hs : StoredAlike content T.entries T'.entries) : T.pairs content = T'.pairs content := by
  rw [pairs_eq_shownBy, pairs_eq_shownBy, shownBy, shownBy]
  generalize T.entries = es at hs
  generalize T'.entries = es' at hs
  induction hs with
  | nil => rfl
  | left hnone _ ih => rw [List.filterMap_cons_none (by rw [hnone]; rfl), ih]
  | right hnone _ ih => rw [List.filterMap_cons_none (by rw [hnone]; rfl), ih]
  | cons hkey hload _ ih => rw [List.filterMap_cons, List.filterMap_cons, ih, hkey, hload]

end Table

namespace Heap

variable {h : Heap} {t u : TableId} {v w x : Value} {d : Nat}

/-! ### Content -/

/-- Whether two values have the same content. -/
inductive SameContent (h : Heap) : Value → Value → Prop
  | undefined : SameContent h .undefined .undefined
  | null : SameContent h .null .null
  | bool (b : Bool) : SameContent h (.bool b) (.bool b)
  | int (n : Int64) : SameContent h (.int n) (.int n)
  | double {a b : Double} (he : a.equal b = true) : SameContent h (.double a) (.double b)
  | string {s s' : Str} (he : s.bytes = s'.bytes) : SameContent h (.string s) (.string s')
  | object (o : ObjectId) : SameContent h (.object o) (.object o)
  | resource {r r' : ResourceId} (he : h.resourceHandle r = h.resourceHandle r') :
      SameContent h (.resource r) (.resource r')
  | reference (c : CellId) : SameContent h (.reference c) (.reference c)
  /-- Arrays show the same keys in the same order, and values of the same content under them. -/
  | array {t u : TableId} (keys_eq : (h.pairs t).map (·.1) = (h.pairs u).map (·.1))
      (values : ∀ (i : Nat) (v w : Value), (h.values t)[i]? = some v →
        (h.values u)[i]? = some w → SameContent h v w) : SameContent h (.array t) (.array u)

/-- Having the same content is symmetric. -/
theorem SameContent.symm (hs : h.SameContent v w) : h.SameContent w v := by
  induction hs with
  | undefined => exact .undefined
  | null => exact .null
  | bool b => exact .bool b
  | int n => exact .int n
  | double he => exact .double (Double.equal_symm he)
  | string he => exact .string he.symm
  | object o => exact .object o
  | resource he => exact .resource he.symm
  | reference c => exact .reference c
  | array hkeys _ ih => exact .array hkeys.symm fun i v w hv hw ↦ ih i w v hw hv

/-- Having the same content is transitive. -/
theorem SameContent.trans (hs : h.SameContent v w) (hs' : h.SameContent w x) :
    h.SameContent v x := by
  induction hs generalizing x with
  | double he => cases hs' with
    | double he' => exact .double (Double.equal_trans he he')
  | string he => cases hs' with
    | string he' => exact .string (he.trans he')
  | resource he => cases hs' with
    | resource he' => exact .resource (he.trans he')
  | @array t u hkeys _ ih => cases hs' with
    | array hkeys' hvalues' =>
      refine .array (hkeys.trans hkeys') fun i v z hv hz ↦ ?_
      -- the array between has an element there too
      have hlen : (h.values t).length = (h.values u).length := by
        rw [length_values, length_values, hkeys]
      have hi : i < (h.values u).length := hlen ▸ (List.getElem?_eq_some_iff.1 hv).1
      have hw := List.getElem?_eq_getElem hi
      exact ih i v _ hv hw (hvalues' i _ z hw hz)
  | _ => exact hs'

/-- What an array has the same content as. -/
theorem sameContent_array_iff : h.SameContent (.array t) (.array u) ↔
    (h.pairs t).map (·.1) = (h.pairs u).map (·.1) ∧
      ∀ (i : Nat) (v w : Value), (h.values t)[i]? = some v → (h.values u)[i]? = some w →
        h.SameContent v w := by
  refine ⟨fun hs ↦ ?_, fun hs ↦ .array hs.1 hs.2⟩
  cases hs with
  | array hkeys hvalues => exact ⟨hkeys, hvalues⟩

/-! ### Values without NaN -/

/-- Whether the second value is nested in arrays in the first, or is the same. -/
def Nests (h : Heap) : Value → Value → Prop :=
  Relation.ReflTransGen fun v w ↦ ∃ t, v = .array t ∧ w ∈ h.values t

/-- Whether no double that is nested in a value is NaN. -/
def NaNFree (h : Heap) (v : Value) : Prop := ∀ d, h.Nests v (.double d) → d.isNaN = false

/-- A scalar is free of NaNs unless it is one. -/
theorem naNFree_of_ne_array (ht : ∀ t, v ≠ .array t) (hd : ∀ d, v = .double d → d.isNaN = false) :
    h.NaNFree v := by
  intro d hn
  cases hn using Relation.ReflTransGen.head_induction_on with
  | refl => exact hd d rfl
  | head hw _ => exact hw.elim fun t hw ↦ absurd hw.1 (ht t)

/-- An array is free of NaNs if its values are. -/
theorem naNFree_array (hf : ∀ v ∈ h.values t, h.NaNFree v) : h.NaNFree (.array t) := by
  intro d hn
  cases hn using Relation.ReflTransGen.head_induction_on with
  | head hw hrest =>
    obtain ⟨t', ht, hm⟩ := hw
    exact hf _ (Value.array.inj ht ▸ hm) d hrest

/-- And only then. -/
theorem NaNFree.of_mem_values (hf : h.NaNFree (.array t)) (hm : v ∈ h.values t) : h.NaNFree v :=
  fun d hd ↦ hf d (.head ⟨t, rfl, hm⟩ hd)

/-- An array has the same content as itself if its elements have. -/
theorem sameContent_array_self (hs : ∀ v ∈ h.values t, h.SameContent v v) :
    h.SameContent (.array t) (.array t) := by
  refine .array rfl fun i v w hv hw ↦ ?_
  obtain rfl := Option.some.inj (hv.symm.trans hw)
  exact hs v (List.mem_of_getElem? hv)

/-- A scalar that is no NaN has the same content as itself. -/
theorem NaNFree.sameContent_self_of_ne_array (hf : h.NaNFree v) (hne : ∀ t, v ≠ .array t) :
    h.SameContent v v := by
  cases v with
  | undefined => exact .undefined
  | null => exact .null
  | bool b => exact .bool b
  | int n => exact .int n
  | double d => exact .double (Double.equal_self (hf d .refl))
  | string s => exact .string rfl
  | array t => exact absurd rfl (hne t)
  | object o => exact .object o
  | resource r => exact .resource rfl
  | reference c => exact .reference c

section SameContent

variable (ha : h.Acyclic) (hv : h.Valid)

include ha hv

/-- So does an array without NaNs, by induction on its height. -/
private theorem NaNFree.sameContent_self_of_admits (hf : h.NaNFree v) (hadm : h.Admits v) :
    h.SameContent v v := by
  induction hn : h.height v using Nat.strongRecOn generalizing v with
  | ind n ih =>
    by_cases harray : ∃ t, v = .array t
    · obtain ⟨t, rfl⟩ := harray
      refine sameContent_array_self fun w hw ↦ ih _ ?_ (hf.of_mem_values hw)
        (hv.admits_of_mem_values hw) rfl
      exact hn ▸ height_lt_of_mem_values ha hv (admits_array_iff.1 hadm) hw
    · exact hf.sameContent_self_of_ne_array fun t ht ↦ harray ⟨t, ht⟩

/-- **A value without NaN has the same content as itself.** -/
theorem NaNFree.sameContent_self (hf : h.NaNFree v) : h.SameContent v v := by
  by_cases harray : ∃ t, v = .array t
  · obtain ⟨t, rfl⟩ := harray
    exact sameContent_array_self fun w hw ↦
      (hf.of_mem_values hw).sameContent_self_of_admits ha hv (hv.admits_of_mem_values hw)
  · exact hf.sameContent_self_of_ne_array fun t ht ↦ harray ⟨t, ht⟩

end SameContent

/-! ### Comparing -/

/-- Comparing elements one by one, once their numbers agree. -/
theorem all_zip_iff {ps qs : List (Key × Value)} {f : Value → Value → Bool} :
    ps.length = qs.length ∧ ((ps.zip qs).all fun (p, q) ↦ p.1 = q.1 && f p.2 q.2) = true ↔
      ps.map (·.1) = qs.map (·.1) ∧ ∀ (i : Nat) (v w : Value), (ps.map (·.2))[i]? = some v →
        (qs.map (·.2))[i]? = some w → f v w = true := by
  induction ps generalizing qs with
  | nil => cases qs <;> simp
  | cons p ps ih =>
    cases qs with
    | nil => simp
    | cons q qs =>
      have hsplit : (∀ (i : Nat) (v w : Value), ((p :: ps).map (·.2))[i]? = some v →
          ((q :: qs).map (·.2))[i]? = some w → f v w = true) ↔ f p.2 q.2 = true ∧
            ∀ (i : Nat) (v w : Value), (ps.map (·.2))[i]? = some v →
              (qs.map (·.2))[i]? = some w → f v w = true := by
        rw [← Nat.and_forall_add_one]
        simp
      rw [hsplit, List.map_cons, List.map_cons, List.cons.injEq, and_assoc,
        and_left_comm (b := f p.2 q.2 = true), ← ih]
      simp only [List.length_cons, Nat.add_right_cancel_iff, List.zip_cons_cons, List.all_cons,
        Bool.and_eq_true, decide_eq_true_eq]
      exact ⟨fun ⟨hlen, ⟨hkey, hvalue⟩, hall⟩ ↦ ⟨hkey, hvalue, hlen, hall⟩,
        fun ⟨hkey, hvalue, hlen, hall⟩ ↦ ⟨hlen, ⟨hkey, hvalue⟩, hall⟩⟩

/-- Values that are not both arrays are compared without going deeper. -/
theorem equalWithin_iff_of_ne_array (hne : ∀ t u, v = .array t → w ≠ .array u) (d : Nat) :
    h.equalWithin d v w = true ↔ h.SameContent v w := by
  constructor
  · intro he
    rw [equalWithin.eq_def] at he
    split at he
    next => exact .undefined
    next => exact .null
    next a b => exact of_decide_eq_true he ▸ .bool a
    next a b => exact of_decide_eq_true he ▸ .int a
    next a b => exact .double he
    next a b => exact .string (of_decide_eq_true he)
    next a b => exact absurd rfl (hne a b rfl)
    next d a b => exact absurd rfl (hne a b rfl)
    next a b => exact of_decide_eq_true he ▸ .object a
    next a b => exact .resource (of_decide_eq_true he)
    next a b => exact of_decide_eq_true he ▸ .reference a
    next => exact absurd he Bool.false_ne_true
  · intro hs
    cases hs with
    | @array t u _ _ => exact absurd rfl (hne t u rfl)
    | double he => simpa [equalWithin] using he
    | string he => simpa [equalWithin, Str.equal] using he
    | resource he => simpa [equalWithin] using he
    | _ => simp [equalWithin]

/-- One level of comparing arrays, whose elements are compared by their content. -/
theorem Valid.equalWithin_array_iff (hv : h.Valid) (hself : h.SameContent (.array t) (.array t))
    (hiff : ∀ v ∈ h.values t, ∀ w, h.equalWithin d v w = true ↔ h.SameContent v w) :
    h.equalWithin (d + 1) (.array t) (.array u) = true ↔
      h.SameContent (.array t) (.array u) := by
  rw [equalWithin, Bool.or_eq_true, Bool.and_eq_true, decide_eq_true_iff, decide_eq_true_iff,
    hv.len_eq, hv.len_eq, all_zip_iff]
  constructor
  · rintro (rfl | ⟨hkeys, hvalues⟩)
    · exact hself
    · exact .array hkeys fun i v w hi hj ↦
        (hiff v (List.mem_of_getElem? hi) w).1 (hvalues i v w hi hj)
  · intro hs
    obtain ⟨hkeys, hvalues⟩ := sameContent_array_iff.1 hs
    exact .inr ⟨hkeys, fun i v w hi hj ↦
      (hiff v (List.mem_of_getElem? hi) w).2 (hvalues i v w hi hj)⟩

section Comparing

variable (ha : h.Acyclic) (hv : h.Valid)

include ha hv

/-- **Comparing as deep as a value is** compares its content. -/
theorem NaNFree.equalWithin_iff (hf : h.NaNFree v) (hadm : h.Admits v) (hd : h.height v ≤ d) :
    h.equalWithin d v w = true ↔ h.SameContent v w := by
  induction d generalizing v w with
  | zero =>
    refine equalWithin_iff_of_ne_array (fun t u ht ↦ ?_) 0
    subst ht
    exact absurd hd (Nat.not_le.2 (height_array_pos (admits_array_iff.1 hadm).knows))
  | succ d ih =>
    by_cases harray : ∃ t u, v = .array t ∧ w = .array u
    · obtain ⟨t, u, rfl, rfl⟩ := harray
      have ht := admits_array_iff.1 hadm
      refine hv.equalWithin_array_iff (hf.sameContent_self ha hv) fun v' hm w' ↦ ?_
      refine ih (hf.of_mem_values hm) (hv.admits_of_mem_values hm) ?_
      exact Nat.le_of_lt_succ (Nat.lt_of_lt_of_le (height_lt_of_mem_values ha hv ht hm) hd)
    · exact equalWithin_iff_of_ne_array (fun t u ht hu ↦ harray ⟨t, u, ht, hu⟩) (d + 1)

/-- **Equality is equality of content**, also for the arrays behind tables of variables, which are
elements of nothing. -/
theorem NaNFree.equal_iff (hf : h.NaNFree v) (w : Value) :
    h.equal v w = true ↔ h.SameContent v w := by
  by_cases harray : ∃ t u, v = .array t ∧ w = .array u
  · obtain ⟨t, u, rfl, rfl⟩ := harray
    refine hv.equalWithin_array_iff (hf.sameContent_self ha hv) fun v hm w ↦ ?_
    exact (hf.of_mem_values hm).equalWithin_iff ha hv (hv.admits_of_mem_values hm) (h.height_le v)
  · exact equalWithin_iff_of_ne_array (fun t u ht hu ↦ harray ⟨t, u, ht, hu⟩) _

/-- Arrays that are stored alike have the same content. -/
theorem NaNFree.sameContent_of_storedAlike (hf : h.NaNFree (.array t))
    (hs : Table.StoredAlike h.cell (h.table t).entries (h.table u).entries) :
    h.SameContent (.array t) (.array u) := by
  have hpairs : h.pairs u = h.pairs t := hs.pairs_eq.symm
  have hvalues : h.values u = h.values t := congrArg (List.map Prod.snd) hpairs
  have hself := sameContent_array_iff.1 (hf.sameContent_self ha hv)
  refine .array (by rw [hpairs]) fun i v w hi hj ↦ ?_
  exact hself.2 i v w hi (hvalues ▸ hj)

end Comparing

/-! ### Comparing arrays -/

/-- What equality comes to. -/
structure ComparesContent (h : Heap) (v w x : Value) : Prop where
  iff_sameContent : h.equal v w = true ↔ h.SameContent v w
  /-- Arrays are equal if iterations give the same keys and equal values for them. -/
  iff_pairs : ∀ {t u}, v = .array t → w = .array u → (h.equal v w = true ↔
    (h.pairs t).map (·.1) = (h.pairs u).map (·.1) ∧
      ∀ (i : Nat) (p q : Value), (h.values t)[i]? = some p → (h.values u)[i]? = some q →
        h.equal p q = true)
  /-- How arrays are stored makes no difference. -/
  of_storedAlike : ∀ {t u}, v = .array t → w = .array u →
    Table.StoredAlike h.cell (h.table t).entries (h.table u).entries →
      h.equal v w = true ∧ h.equal v x = h.equal w x ∧ h.equal x v = h.equal x w
  refl : h.equal v v = true
  symm : h.equal v w = true → h.equal w v = true
  trans : h.equal v w = true → h.equal w x = true → h.equal v x = true

/-- Comparing is a matter of content, and has the laws of an equivalence, for values without NaNs.
-/
theorem comparesContent (ha : h.Acyclic) (hv : h.Valid) (hfv : h.NaNFree v) (hfw : h.NaNFree w)
    (hfx : h.NaNFree x) : h.ComparesContent v w x := by
  have hequal : ∀ {v}, h.NaNFree v → ∀ w, h.equal v w = true ↔ h.SameContent v w := fun hf ↦
    hf.equal_iff ha hv
  refine ⟨hequal hfv w, ?_, ?_, (hequal hfv v).2 (hfv.sameContent_self ha hv), fun he ↦ ?_,
    fun he he' ↦ ?_⟩
  · rintro t u rfl rfl
    rw [hequal hfv, sameContent_array_iff]
    refine and_congr_right fun _ ↦ forall₅_congr fun i p q hi _ ↦ ?_
    exact (hequal (hfv.of_mem_values (List.mem_of_getElem? hi)) q).symm
  · rintro t u rfl rfl hs
    have hsame := hfv.sameContent_of_storedAlike ha hv hs
    refine ⟨(hequal hfv _).2 hsame, ?_, ?_⟩ <;> rw [Bool.eq_iff_iff]
    · rw [hequal hfv, hequal hfw]
      exact ⟨hsame.symm.trans, hsame.trans⟩
    · rw [hequal hfx, hequal hfx]
      exact ⟨fun he ↦ he.trans hsame, fun he ↦ he.trans hsame.symm⟩
  · exact (hequal hfw v).2 ((hequal hfv w).1 he).symm
  · exact (hequal hfv x).2 (((hequal hfv w).1 he).trans ((hequal hfw x).1 he'))

end Heap

namespace Workspace

variable {w : Workspace} {u v x : Value}

/-- **Equality is equality of content.** In every workspace that a program leads to, and for values
in which no NaN is nested, two values are equal exactly if they have the same content: arrays if
iterations give the same keys for them in the same order, with values of the same content. So it
makes no difference how arrays are stored, and equality is reflexive, symmetric and transitive. -/
theorem Reachable.equal_iff_sameContent (hw : w.Reachable) (hu : w.heap.NaNFree u)
    (hv : w.heap.NaNFree v) (hx : w.heap.NaNFree x) : w.heap.ComparesContent u v x :=
  Heap.comparesContent hw.acyclic hw.valid.heap hu hv hx

/-- A program with a list of a list of zero, and of the other zero, and with a table of variables of
which one is bound, one is vacant, and one has a list of the other zero. -/
def comparingProgram : List Statement :=
  [⟨.array (.constant (.double ⟨0⟩)), some "z"⟩,
    ⟨.array (.constant (.double ⟨0x8000000000000000⟩)), some "y"⟩,
    ⟨.array (.constant .null), some "n"⟩,
    ⟨.array (.list ["z"]), some "a"⟩,
    ⟨.array (.list ["a", "y", "u"]), some "l"⟩,
    ⟨.array (.list ["y"]), some "b"⟩,
    ⟨.symbols "s" (.create {}), none⟩,
    ⟨.symbols "s" (.set (.key (.int 0)) "b"), none⟩,
    ⟨.symbols "s" (.declare (.key (.int 5))), some "c"⟩,
    ⟨.symbols "s" (.declare (.key (.int 1))), some "d"⟩,
    ⟨.array (.setCell "d" "z"), none⟩,
    ⟨.symbols "s" (.set (.key (.int 2)) "n"), none⟩]

/-- Where that program ends. -/
def comparingEnd : Workspace := ((empty.run comparingProgram).map (·.1)).getD empty

theorem reachable_comparingEnd : comparingEnd.Reachable := ⟨comparingProgram, _, rfl⟩

/-- There is no NaN in either array. -/
theorem naNFree_comparingEnd : comparingEnd.heap.NaNFree (.array ⟨1⟩) ∧
    comparingEnd.heap.NaNFree (.array ⟨3⟩) := by
  have hnull : comparingEnd.heap.NaNFree .null := Heap.naNFree_of_ne_array nofun nofun
  have hdouble : ∀ d : Double, d.isNaN = false → comparingEnd.heap.NaNFree (.double d) :=
    fun d hd ↦ Heap.naNFree_of_ne_array nofun fun d' he ↦ Value.double.inj he ▸ hd
  have hzero := hdouble ⟨0⟩ (by decide)
  have hother := hdouble ⟨0x8000000000000000⟩ (by decide)
  have hinner : comparingEnd.heap.NaNFree (.array ⟨0⟩) := Heap.naNFree_array fun v hv ↦ by
    obtain rfl := List.mem_singleton.1 hv
    exact hzero
  have hinner' : comparingEnd.heap.NaNFree (.array ⟨2⟩) := Heap.naNFree_array fun v hv ↦ by
    obtain rfl := List.mem_singleton.1 hv
    exact hother
  refine ⟨Heap.naNFree_array fun v hv ↦ ?_, Heap.naNFree_array fun v hv ↦ ?_⟩
  · have hv : v ∈ [.array ⟨0⟩, .double ⟨0x8000000000000000⟩, .null] := hv
    simp only [List.mem_cons, List.not_mem_nil, or_false] at hv
    rcases hv with rfl | rfl | rfl
    · exact hinner
    · exact hother
    · exact hnull
  · have hv : v ∈ [.array ⟨2⟩, .double ⟨0⟩, .null] := hv
    simp only [List.mem_cons, List.not_mem_nil, or_false] at hv
    rcases hv with rfl | rfl | rfl
    · exact hinner'
    · exact hzero
    · exact hnull

/-- The list and the table of variables have the same content, and are equal either way around. -/
theorem Reachable.equal_iff_sameContent_comparingEnd :
    comparingEnd.Reachable ∧
      comparingEnd.heap.SameContent (.array ⟨1⟩) (.array ⟨3⟩) ∧
      comparingEnd.heap.equal (.array ⟨3⟩) (.array ⟨1⟩) = true := by
  obtain ⟨hlist, hsymbols⟩ := naNFree_comparingEnd
  have hcompares := reachable_comparingEnd.equal_iff_sameContent hlist hsymbols hlist
  exact ⟨reachable_comparingEnd, hcompares.iff_sameContent.1 rfl, hcompares.symm rfl⟩

end Workspace

end SharedValue
