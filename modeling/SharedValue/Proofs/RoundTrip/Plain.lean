import SharedValue.Proofs.Acyclic.Programs
import SharedValue.Proofs.Double.Fields
import SharedValue.Proofs.Forest.Refinement
import SharedValue.Proofs.RoundTrip.Format
import SharedValue.Proofs.Walk.Encoding

/-!
# Plain values

A tree is plain when it consists of scalars and arrays, its doubles are finite, and its strings and
text keys are UTF-8: a text can carry all of it. What texts present stands for plain trees
(`Event.ReadTo.plainTo`), and so what is decoded from a text shows one. A value that shows a plain
tree is encoded (`Heap.Shows.exists_encode`), the tree is its normal form (`Heap.Shows.norm`), and
its event is nested as deep as the tree (`Heap.Shows.nestedTo`).

Among the integers that a text may present are some that no signed word holds. They become doubles,
and these are finite (`Double.isFinite_ofNat`).
-/

namespace SharedValue

/-! ### Large integers -/

namespace Double

/-- A magnitude below that of the infinities is finite. -/
theorem isFinite_ofMagnitude {m : Nat} (hm : m < 0x7FF * hiddenBit) :
    (ofMagnitude false m).isFinite = true := by
  have hm : m < 2047 * 2 ^ 52 := hm
  rw [isFinite, exponentField_ofMagnitude false (by omega), decide_eq_true_iff]
  omega

/-- Rounding adds at most one. -/
theorem roundHalfEven_le (num den : Nat) : roundHalfEven num den ≤ num / den + 1 := by
  rw [roundHalfEven]
  split <;> omega

/-- The binade of a natural number is its logarithm. -/
theorem binade_one {n : Nat} (hn : n ≠ 0) : binade n 1 = n.log2 := by
  have hle : 1 <<< n.log2 ≤ n := by
    rw [Nat.one_shiftLeft]
    exact Nat.log2_self_le hn
  have hlog : (1 : Nat).log2 = 0 := by decide
  rw [binade, hlog, if_pos]
  · simp
  · simpa using hle

/-- **An integer of at most 64 bits becomes a finite double.** -/
theorem isFinite_ofNat {n : Nat} (hn : n < 2 ^ 64) : (ofNat n).isFinite = true := by
  rw [ofNat, ofRatio]
  split
  · exact isFinite_ofMagnitude (by decide)
  next hpos =>
    dsimp only
    rw [binade_one hpos]
    have hlog : n.log2 < 64 := (Nat.log2_lt hpos).2 hn
    have hlt : n < 2 ^ (n.log2 + 1) := Nat.lt_log2_self
    generalize n.log2 = k at hlog hlt
    have hq : max ((k : Int) - 52) (-1074) = k - 52 := by omega
    rw [hq]
    generalize ha : (-((k : Int) - 52)).toNat = a
    generalize hb : ((k : Int) - 52).toNat = b
    have hquotient : (n <<< a) / (1 <<< b) < 2 ^ 53 := by
      rw [Nat.one_shiftLeft, Nat.shiftLeft_eq]
      refine Nat.div_lt_of_lt_mul ?_
      calc n * 2 ^ a < 2 ^ (k + 1) * 2 ^ a := Nat.mul_lt_mul_of_pos_right hlt (Nat.two_pow_pos a)
        _ = 2 ^ b * 2 ^ 53 := by
          rw [← Nat.pow_add, ← Nat.pow_add]
          congr 1
          omega
    have hround := roundHalfEven_le (n <<< a) (1 <<< b)
    refine isFinite_ofMagnitude (Nat.lt_of_le_of_lt (Nat.min_le_left _ _) ?_)
    have hfield : ((k : Int) - 52 + 1074).toNat ≤ 1085 := by omega
    have hscaled := Nat.mul_le_mul_right hiddenBit hfield
    have hbit : hiddenBit = 2 ^ 52 := by decide
    omega

end Double

/-! ### Plain trees -/

/-- Whether a tree is plain, with arrays nested at most so deep. -/
def Tree.PlainTo : (depth : Nat) → Tree → Prop
  | _, .null => True
  | _, .bool _ => True
  | _, .int _ => True
  | _, .double d => d.isFinite = true
  | _, .string b => b.IsText
  | depth + 1, .array ps => ∀ p ∈ ps, p.1.IsText ∧ Tree.PlainTo depth p.2
  | _, _ => False

/-- A plain tree shows itself. -/
theorem Tree.PlainTo.shown {n : Nat} {S : Tree} (hS : S.PlainTo n) : S.shown = S := by
  cases S with
  | undefined => cases n <;> cases hS
  | _ => rfl

/-- What is there after an assignment was there or was assigned. -/
theorem Pairs.mem_assign {α : Type} {ps : Pairs α} {k : Key} {a : α} {p : Key × α}
    (hp : p ∈ ps.assign k a) : p ∈ ps ∨ p = (k, a) := by
  rw [assign] at hp
  split at hp
  · exact (List.mem_append.1 hp).imp_right List.mem_singleton.1
  · obtain ⟨q, hq, rfl⟩ := List.mem_map.1 hp
    split
    · exact .inr rfl
    · exact .inl hq

/-- What holds of pairs, and of all that are appended, holds of the pairs afterwards. -/
theorem Event.forall_of_appendTrees {P : Key × Tree → Prop} {items : List Event}
    {ps qs : Pairs Tree}
    (hps : ∀ p ∈ ps, P p) (hi : ∀ e ∈ items, ∀ S, e.tree = .ok S → ∀ n, P (.int n, S))
    (ht : Event.appendTrees ps items = .ok qs) : ∀ p ∈ qs, P p := by
  induction items generalizing ps with
  | nil =>
    rw [appendTrees] at ht
    rwa [← Except.ok.inj ht]
  | cons e rest ih =>
    rw [appendTrees] at ht
    split at ht
    · cases ht
    next S hS =>
      split at ht
      · cases ht
      next n _ =>
        refine ih (fun p hp ↦ ?_) (fun x hx ↦ hi x (List.mem_cons_of_mem _ hx)) ht
        rcases List.mem_append.1 hp with hp | hp
        · exact hps p hp
        · rw [List.mem_singleton.1 hp]
          exact hi e List.mem_cons_self S hS n

/-- What holds of pairs, and of all that are assigned, holds of the pairs afterwards. -/
theorem Event.forall_of_assignTrees {P : Key × Tree → Prop} {pairs : List (Event × Event)}
    {ps qs : Pairs Tree} (hps : ∀ p ∈ ps, P p)
    (hi : ∀ x ∈ pairs, ∀ S, x.2.tree = .ok S → ∀ s, P (Key.ofBytes (Bytes.ofText s), S))
    (ht : Event.assignTrees ps pairs = .ok qs) : ∀ p ∈ qs, P p := by
  induction pairs generalizing ps with
  | nil =>
    rw [assignTrees] at ht
    rwa [← Except.ok.inj ht]
  | cons x rest ih =>
    rw [assignTrees] at ht
    split at ht
    · cases ht
    next key _ =>
      split at ht
      · cases ht
      next S hS =>
        refine ih (fun p hp ↦ ?_) (fun y hy ↦ hi y (List.mem_cons_of_mem _ hy)) ht
        rcases Pairs.mem_assign hp with hp | rfl
        · exact hps p hp
        · exact hi x List.mem_cons_self S hS key

/-- A scalar that was read is plain. -/
private theorem Event.ReadTo.plainTo_scalar {n : Nat} {e : Event} {S : Tree} (hr : e.ReadTo n)
    (hsequence : ∀ items, e ≠ .sequence items) (hmap : ∀ pairs, e ≠ .map pairs)
    (ht : e.tree = .ok S) : S.PlainTo n := by
  cases e with
  | sequence items => exact absurd rfl (hsequence items)
  | map pairs => exact absurd rfl (hmap pairs)
  | unit =>
    rw [tree] at ht
    obtain rfl := Except.ok.inj ht
    cases n <;> trivial
  | bool b =>
    rw [tree] at ht
    obtain rfl := Except.ok.inj ht
    cases n <;> trivial
  | int m =>
    rw [tree] at ht
    obtain rfl := Except.ok.inj ht
    cases n <;> trivial
  | natural m =>
    rw [tree] at ht
    split at ht
    · obtain rfl := Except.ok.inj ht
      cases n <;> trivial
    · obtain rfl := Except.ok.inj ht
      cases n <;> exact Double.isFinite_ofNat m.toNat_lt
  | double d =>
    rw [tree] at ht
    obtain rfl := Except.ok.inj ht
    cases n <;> exact hr
  | text s =>
    rw [tree] at ht
    obtain rfl := Except.ok.inj ht
    cases n <;> exact Bytes.isText_ofText s
  | _ => cases n <;> cases hr

/-- **What a text presents stands for a plain tree.** -/
theorem Event.ReadTo.plainTo {n : Nat} {e : Event} {S : Tree} (hr : e.ReadTo n)
    (ht : e.tree = .ok S) : S.PlainTo n := by
  induction n generalizing e S with
  | zero =>
    refine hr.plainTo_scalar (fun items he ↦ ?_) (fun pairs he ↦ ?_) ht <;> subst he <;> exact hr
  | succ n ih =>
    by_cases hsequence : ∃ items, e = .sequence items
    · obtain ⟨items, rfl⟩ := hsequence
      rw [tree] at ht
      obtain ⟨ps, hps, rfl⟩ := Except.map_eq_ok_iff.1 ht
      exact forall_of_appendTrees (fun _ hp ↦ by cases hp)
        (fun e he S hS _ ↦ ⟨trivial, ih (hr e he) hS⟩) hps
    · by_cases hmap : ∃ pairs, e = .map pairs
      · obtain ⟨pairs, rfl⟩ := hmap
        rw [tree] at ht
        obtain ⟨ps, hps, rfl⟩ := Except.map_eq_ok_iff.1 ht
        exact forall_of_assignTrees (fun _ hp ↦ by cases hp)
          (fun x hx S hS s ↦ ⟨Key.isText_ofBytes s, ih (hr x hx) hS⟩) hps
      · exact hr.plainTo_scalar (not_exists.1 hsequence) (not_exists.1 hmap) ht

namespace Heap

variable {h : Heap} {t : TableId} {u v : Value} {S : Tree} {ps : Pairs Tree} {n : Nat}

/-! ### Values that show plain trees -/

/-- The elements of an array that shows a plain tree show plain trees. -/
theorem Shows.pairs_plain (hs : h.Shows (.array t) (.array ps))
    (hS : (Tree.array ps).PlainTo (n + 1)) :
    List.Forall₂ (fun p q ↦ p.1 = q.1 ∧ h.Shows p.2 q.2 ∧ q.1.IsText ∧ q.2.PlainTo n)
      (h.pairs t) ps := by
  have hrel := hs.pairs_rel
  rw [List.forall₂_iff_zip] at hrel ⊢
  refine ⟨hrel.1, fun {p q} hm ↦ ?_⟩
  obtain ⟨hkey, hshows⟩ := hrel.2 hm
  obtain ⟨htext, hplain⟩ := hS q (List.of_mem_zip hm).2
  rw [hplain.shown] at hshows
  exact ⟨hkey, hshows, htext, hplain⟩

private theorem exists_of_mem_left {α β : Type} {R : α → β → Prop} {l : List α} {l' : List β}
    {a : α}
    (hall : List.Forall₂ R l l') (hm : a ∈ l) : ∃ b ∈ l', R a b := by
  induction hall with
  | nil => cases hm
  | cons hab _ ih =>
    rcases List.mem_cons.1 hm with rfl | hm
    · exact ⟨_, List.mem_cons_self, hab⟩
    · exact (ih hm).imp fun _ hb ↦ hb.imp_left (List.mem_cons_of_mem _)

/-- Whether a value is one that texts present and that has nothing in it. -/
def IsScalar : Value → Prop
  | .null => True
  | .bool _ => True
  | .int _ => True
  | .double _ => True
  | .string _ => True
  | _ => False

/-- A scalar leads to nothing. -/
theorem children_of_isScalar (hv : IsScalar v) : h.children v = [] := by
  cases v with
  | array t => exact hv.elim
  | object o => exact hv.elim
  | reference c => exact hv.elim
  | _ => rfl

/-- **A value that shows a plain tree** is a scalar, or an array whose elements show plain trees. -/
theorem Shows.isScalar_or_array (hs : h.Shows v S) (hS : S.PlainTo n) :
    IsScalar v ∧ v.flat? = some S ∨ ∃ t ps m, v = .array t ∧ S = .array ps ∧ n = m + 1 ∧
      List.Forall₂ (fun p q ↦ p.1 = q.1 ∧ h.Shows p.2 q.2 ∧ q.1.IsText ∧ q.2.PlainTo m)
        (h.pairs t) ps := by
  by_cases harray : ∃ ps, S = .array ps
  · obtain ⟨ps, rfl⟩ := harray
    obtain ⟨t, rfl, -⟩ := shows_array_iff.1 hs
    cases n with
    | zero => exact hS.elim
    | succ m => exact .inr ⟨t, ps, m, rfl, rfl, rfl, hs.pairs_plain hS⟩
  · have hflat := (shows_flat_iff (not_exists.1 harray)).1 hs
    refine .inl ⟨?_, hflat⟩
    cases v with
    | undefined =>
      obtain rfl := Option.some.inj hflat
      cases n <;> exact hS
    | array t => cases hflat
    | object o =>
      obtain rfl := Option.some.inj hflat
      cases n <;> exact hS
    | resource r =>
      obtain rfl := Option.some.inj hflat
      cases n <;> exact hS
    | reference c =>
      obtain rfl := Option.some.inj hflat
      cases n <;> exact hS
    | _ => trivial

/-- What is in a value that shows a plain tree shows a plain tree. -/
theorem Shows.exists_of_points (hs : h.Shows v S) (hS : S.PlainTo n) (hp : h.Points v u) :
    ∃ S' m, h.Shows u S' ∧ S'.PlainTo m := by
  rcases hs.isScalar_or_array hS with ⟨hscalar, -⟩ | ⟨t, ps, m, rfl, rfl, rfl, hpairs⟩
  · rw [Points, children_of_isScalar hscalar] at hp
    cases hp
  · obtain ⟨p, hm, rfl⟩ : ∃ p ∈ h.pairs t, p.2 = u := List.mem_map.1 hp
    obtain ⟨q, -, -, hshows, -, hplain⟩ := exists_of_mem_left hpairs hm
    exact ⟨q.2, m, hshows, hplain⟩

/-- Everything that a plain value leads to is plain. -/
theorem Shows.exists_of_reaches (hs : h.Shows v S) (hS : S.PlainTo n) (hr : h.Reaches v u) :
    ∃ S' m, h.Shows u S' ∧ S'.PlainTo m := by
  induction hr with
  | refl => exact ⟨S, n, hs, hS⟩
  | tail _ hp ih =>
    obtain ⟨S', m, hs', hS'⟩ := ih
    exact hs'.exists_of_points hS' hp

/-- All its strings and text keys are UTF-8. -/
theorem Shows.textual (hs : h.Shows v S) (hS : S.PlainTo n) : h.Textual v := by
  intro u hu
  obtain ⟨S', m, hs', hS'⟩ := hs.exists_of_reaches hS hu
  rcases hs'.isScalar_or_array hS' with ⟨hscalar, hflat⟩ | ⟨t, ps, m, rfl, rfl, rfl, hpairs⟩
  · refine ⟨fun s hstring ↦ ?_, fun k hk ↦ ?_⟩
    · subst hstring
      obtain rfl := Option.some.inj hflat
      cases m <;> exact hS'
    · cases u <;> first | cases hk | exact hscalar.elim
  · refine ⟨fun s hstring ↦ (by cases hstring), fun k hk ↦ ?_⟩
    obtain ⟨p, hm, rfl⟩ := List.mem_map.1 hk
    obtain ⟨q, -, hkey, -, htext, -⟩ := exists_of_mem_left hpairs hm
    rwa [hkey]

/-- **It is encoded.** -/
theorem Shows.exists_encode (hs : h.Shows v S) (hS : S.PlainTo n) (ha : h.Acyclic) (hv : h.Valid) :
    ∃ e, h.encode v = .ok e := by
  have hentered : ∀ {x}, h.Reaches v x → ¬ IsEntered x ∧ ∀ r, x ≠ .resource r := by
    intro x hx
    obtain ⟨S', m, hs', hS'⟩ := hs.exists_of_reaches hS hx
    rcases hs'.isScalar_or_array hS' with ⟨hscalar, -⟩ | ⟨t, ps, m, rfl, -⟩
    · refine ⟨?_, ?_⟩
      · rintro (⟨c, rfl⟩ | ⟨o, rfl⟩) <;> exact hscalar
      · rintro r rfl
        exact hscalar
    · refine ⟨?_, fun r he ↦ by cases he⟩
      rintro (⟨c, he⟩ | ⟨o, he⟩) <;> cases he
  refine (exists_encode_eq_ok_iff ha hv v).2 ((no_offence_iff ha hv v).2 ⟨fun u hu hcircle ↦ ?_,
    fun r hr ↦ (hentered hr).2 r rfl⟩)
  obtain ⟨x, hx, hux, -⟩ := exists_entered_of_circle ha hv hcircle
  exact (hentered (hu.trans hux)).1 hx

private theorem norm_of_isScalar (hv : IsScalar v) (hflat : v.flat? = some S) (hS : S.PlainTo n) :
    h.Norm v S := by
  cases v with
  | null =>
    obtain rfl := Option.some.inj hflat
    exact .null
  | bool b =>
    obtain rfl := Option.some.inj hflat
    exact .bool b
  | int m =>
    obtain rfl := Option.some.inj hflat
    exact .int m
  | double d =>
    obtain rfl := Option.some.inj hflat
    exact .finite (by cases n <;> exact hS)
  | string s =>
    obtain rfl := Option.some.inj hflat
    exact .string s
  | _ => exact hv.elim

/-- **Its normal form is the tree.** -/
theorem Shows.norm (hs : h.Shows v S) (hS : S.PlainTo n) : h.Norm v S := by
  induction n using Nat.strongRecOn generalizing v S with
  | ind n ih =>
    rcases hs.isScalar_or_array hS with ⟨hscalar, hflat⟩ | ⟨t, ps, m, rfl, rfl, rfl, hpairs⟩
    · exact norm_of_isScalar hscalar hflat hS
    · exact norm_array_iff.2 (hpairs.imp fun p q ⟨hkey, hshows, _, hplain⟩ ↦
        ⟨hkey, ih m (Nat.lt_succ_self m) hshows hplain⟩)

/-! ### The nesting of its event -/

/-- A scalar is encoded without nesting. -/
theorem nestedTo_of_isScalar (hv : IsScalar v) {depth : Nat} {path : List Handle}
    {e : Event}
    (he : h.encodeWithin depth path v = .ok e) (n : Nat) : e.NestedTo n := by
  cases v with
  | array t => exact hv.elim
  | object o => exact hv.elim
  | resource r => exact hv.elim
  | reference c => exact hv.elim
  | _ =>
    rw [encodeWithin] at he
    obtain rfl := Except.ok.inj he
    cases n <;> trivial

/-- An array is encoded one level deeper than its elements. -/
private theorem nestedTo_assemble {items : List (Key × Event)}
    (hi : ∀ x ∈ items, x.2.NestedTo n) : (h.assemble t items).NestedTo (n + 1) := by
  rw [assemble]
  split
  · intro e he
    obtain ⟨x, hx, rfl⟩ := List.mem_map.1 he
    exact hi x hx
  · intro p hp
    obtain ⟨x, hx, rfl⟩ := List.mem_map.1 hp
    exact hi x hx

/-- **Its event is nested at most as deep as the tree.** -/
theorem Shows.nestedTo (hs : h.Shows v S) (hS : S.PlainTo n) {depth : Nat} {path : List Handle}
    {e : Event} (he : h.encodeWithin depth path v = .ok e) : e.NestedTo n := by
  induction n using Nat.strongRecOn generalizing v S depth e with
  | ind n ih =>
    rcases hs.isScalar_or_array hS with ⟨hscalar, -⟩ | ⟨t, ps, m, rfl, rfl, rfl, hpairs⟩
    · exact nestedTo_of_isScalar hscalar he n
    · cases depth with
      | zero => cases he
      | succ depth =>
        rw [encodeWithin] at he
        obtain ⟨items, hall, rfl⟩ := exists_of_encodeElements he
        refine nestedTo_assemble fun x hx ↦ ?_
        obtain ⟨p, hp, -, hpe⟩ := exists_of_mem_left (forall₂_of_encodeAll hall).flip hx
        obtain ⟨q, -, -, hshows, -, hplain⟩ := exists_of_mem_left hpairs hp
        exact ih m (Nat.lt_succ_self m) hshows hplain hpe

end Heap

end SharedValue
