import SharedValue.Proofs.RoundTrip.Keys
import SharedValue.Proofs.Walk.Graph
import SharedValue.Proofs.Walk.Marks

/-!
# Normal forms

What is encoded and decoded again loses what a text cannot carry, and nothing else. `Heap.Norm` says
what is left of a value: nothing and the doubles that are not finite become null, a reference
becomes what is in its cell, an object becomes the array of its properties, and an array keeps its
keys in their order. A value has at most one normal form (`Norm.unique`), and it has one if it is
encoded.

The two ends are put together here. The event of a value, once it was written and read, stands for
the normal form of the value (`exists_norm`). What is used of the text in between is `Event.plain`:
the event that is read where an event was written.
-/

namespace SharedValue

/-! ### Events that were written and read -/

/-- A key of a map, which is always a text. -/
def Event.spelled : Event → Event
  | .int n => .text (Decimal.text n.toInt)
  | k => k

mutual

/-- The event that is read where an event was written: a double that is not finite is written as
null, and an integer key as its decimal text. -/
def Event.plain : Event → Event
  | .double d => if d.isFinite then .double d else .unit
  | .sequence items => .sequence (Event.plainItems items)
  | .map pairs => .map (Event.plainPairs pairs)
  | e => e

/-- The items of a sequence that was written and read. -/
def Event.plainItems : List Event → List Event
  | [] => []
  | e :: rest => e.plain :: Event.plainItems rest

/-- The pairs of a map that was written and read. -/
def Event.plainPairs : List (Event × Event) → List (Event × Event)
  | [] => []
  | (k, e) :: rest => (k.spelled, e.plain) :: Event.plainPairs rest

end

/-- The text of a key that was written and read. -/
theorem Key.keyText_spelled (k : Key) : k.event.spelled.keyText = .ok k.display := by
  cases k <;> rfl

/-- The items of a list stand for its elements. -/
theorem Event.appendTrees_of_isList (ps : Pairs Tree) {items : List (Key × Event)} {qs : Pairs Tree}
    (hi : List.Forall₂ (fun x q ↦ x.1 = q.1 ∧ x.2.plain.tree = .ok q.2) items qs)
    (hl : IsList (ps.keys ++ qs.keys)) :
    Event.appendTrees ps (Event.plainItems (items.map (·.2))) = .ok (ps ++ qs) := by
  induction hi generalizing ps with
  | nil => rw [List.map_nil, plainItems, appendTrees, List.append_nil]
  | @cons x q rest qs hx _ ih =>
    obtain ⟨k, S⟩ := q
    obtain ⟨n, rfl, hn⟩ := nextKey_of_isList (k := k) hl
    rw [List.map_cons, plainItems, appendTrees, hx.2]
    dsimp only
    rw [hn]
    dsimp only
    have hkeys : (ps.add (.int n) S).keys ++ Pairs.keys qs =
        ps.keys ++ Pairs.keys ((.int n, S) :: qs) := by
      simp [Pairs.keys, Pairs.add]
    rw [ih _ (by rw [hkeys]; exact hl), Pairs.add, List.append_assoc]
    rfl

/-- The pairs of a map stand for its elements. -/
theorem Event.assignTrees_of_nodup (ps : Pairs Tree) {items : List (Key × Event)} {qs : Pairs Tree}
    (hi : List.Forall₂ (fun x q ↦ x.1 = q.1 ∧ x.2.plain.tree = .ok q.2) items qs)
    (hnd : (ps.keys ++ qs.keys).Nodup) (hk : ∀ k ∈ qs.keys, k.IsNormal ∧ k.IsText) :
    Event.assignTrees ps (Event.plainPairs (items.map fun x ↦ (x.1.event, x.2))) =
      .ok (ps ++ qs) := by
  induction hi generalizing ps with
  | nil => rw [List.map_nil, plainPairs, assignTrees, List.append_nil]
  | @cons x q rest qs hx _ ih =>
    obtain ⟨k, e⟩ := x
    obtain ⟨k', S⟩ := q
    obtain ⟨rfl, he⟩ : k = k' ∧ e.plain.tree = .ok S := hx
    obtain ⟨hnormal, htext⟩ := hk k List.mem_cons_self
    have hkeys : Pairs.keys ((k, S) :: qs) = k :: Pairs.keys qs := rfl
    rw [hkeys, List.nodup_append] at hnd
    have hnew : ps.find? k = none :=
      Pairs.find?_eq_none_iff.2 fun hm ↦ hnd.2.2 k hm k List.mem_cons_self rfl
    have hadd : ps.assign k S = ps.add k S := by rw [Pairs.assign, hnew]
    rw [List.map_cons, plainPairs, assignTrees, k.keyText_spelled, he]
    dsimp only
    rw [Key.ofBytes_display hnormal htext, hadd]
    have hkeys' : (ps.add k S).keys ++ Pairs.keys qs = ps.keys ++ (k :: Pairs.keys qs) := by
      simp [Pairs.keys, Pairs.add]
    rw [ih _ (by rw [hkeys', List.nodup_append]; exact hnd) fun j hj ↦
      hk j (List.mem_cons_of_mem _ hj),
      Pairs.add, List.append_assoc]
    rfl

namespace Heap

variable {h : Heap} {t : TableId} {u v : Value} {S S' : Tree} {ps ps' : Pairs Tree}
  {pairs : List (Key × Value)}

/-! ### Normal forms -/

/-- Whether a tree is the normal form of a value. -/
inductive Norm (h : Heap) : Value → Tree → Prop
  | undefined : Norm h .undefined .null
  | null : Norm h .null .null
  | bool (b : Bool) : Norm h (.bool b) (.bool b)
  | int (n : Int64) : Norm h (.int n) (.int n)
  | finite {d : Double} (hd : d.isFinite = true) : Norm h (.double d) (.double d)
  /-- A NaN or an infinity. -/
  | infinite {d : Double} (hd : d.isFinite = false) : Norm h (.double d) .null
  | string (s : Str) : Norm h (.string s) (.string s.bytes)
  /-- The same keys in the same order, each with the normal form of what is under it. -/
  | array {t : TableId} {ps : Pairs Tree} (hkeys : ps.keys = (h.pairs t).map (·.1))
      (hps : ∀ x ∈ (h.pairs t).zip ps, Norm h x.1.2 x.2.2) : Norm h (.array t) (.array ps)
  | object {o : ObjectId} {S : Tree} (hS : Norm h (.array (h.properties o)) S) :
      Norm h (.object o) S
  | reference {c : CellId} {S : Tree} (hS : Norm h (h.cell c) S) : Norm h (.reference c) S

/-- Pairs with the same keys in the same order are related one by one. -/
private theorem forall₂_of_zip {R : Value → Tree → Prop} (hkeys : ps.keys = pairs.map (·.1))
    (hps : ∀ x ∈ pairs.zip ps, R x.1.2 x.2.2) :
    List.Forall₂ (fun p q ↦ p.1 = q.1 ∧ R p.2 q.2) pairs ps := by
  induction pairs generalizing ps with
  | nil =>
    obtain rfl : ps = [] := List.map_eq_nil_iff.1 hkeys
    exact .nil
  | cons p rest ih =>
    cases ps with
    | nil => cases hkeys
    | cons q qs =>
      obtain ⟨hkey, hkeys⟩ := List.cons.inj hkeys
      exact .cons ⟨hkey.symm, hps (p, q) List.mem_cons_self⟩
        (ih hkeys fun x hx ↦ hps x (List.mem_cons_of_mem _ hx))

private theorem eq_of_forall₂ {R R' : Value → Tree → Prop}
    (hall : List.Forall₂ (fun p q ↦ p.1 = q.1 ∧ R p.2 q.2) pairs ps)
    (hall' : List.Forall₂ (fun p q ↦ p.1 = q.1 ∧ R' p.2 q.2) pairs ps')
    (heq : ∀ {v S S'}, R v S → R' v S' → S = S') : ps = ps' := by
  induction hall generalizing ps' with
  | nil =>
    cases hall'
    rfl
  | cons hp _ ih =>
    cases hall' with
    | cons hp' hrest =>
      rw [ih hrest]
      congr 1
      exact Prod.ext (hp.1.symm.trans hp'.1) (heq hp.2 hp'.2)

/-- The normal form of an array. -/
theorem norm_array_iff : h.Norm (.array t) (.array ps) ↔
    List.Forall₂ (fun p q ↦ p.1 = q.1 ∧ h.Norm p.2 q.2) (h.pairs t) ps := by
  constructor
  · intro hn
    cases hn with
    | array hkeys hps => exact forall₂_of_zip hkeys hps
  · intro hall
    refine .array ?_ fun x hx ↦ ?_
    · generalize h.pairs t = pairs at hall
      induction hall with
      | nil => rfl
      | cons hp _ ih => rw [Pairs.keys, List.map_cons, List.map_cons, hp.1, ← ih, Pairs.keys]
    · exact ((List.forall₂_iff_zip.1 hall).2 hx).2

theorem Norm.keys_eq (hn : h.Norm (.array t) (.array ps)) : ps.keys = (h.pairs t).map (·.1) := by
  cases hn with
  | array hkeys => exact hkeys

/-- **A value has at most one normal form.** -/
theorem Norm.unique (hn : h.Norm v S) (hn' : h.Norm v S') : S = S' := by
  induction hn generalizing S' with
  | @array t ps hkeys _ ih =>
    cases hn' with
    | @array _ ps' hkeys' hps' =>
      have hall := forall₂_of_zip (R := fun v S ↦ ∀ S', h.Norm v S' → S = S') hkeys
        fun x hx S' hS' ↦ ih x hx hS'
      rw [eq_of_forall₂ (R := fun v S ↦ ∀ S', h.Norm v S' → S = S') hall
        (forall₂_of_zip hkeys' hps') fun hS hS' ↦ hS _ hS']
  | object _ ih =>
    cases hn' with
    | object hS' => exact ih hS'
  | reference _ ih =>
    cases hn' with
    | reference hS' => exact ih hS'
  | finite hd =>
    cases hn' with
    | finite => rfl
    | infinite hd' =>
      rw [hd] at hd'
      cases hd'
  | infinite hd =>
    cases hn' with
    | infinite => rfl
    | finite hd' =>
      rw [hd] at hd'
      cases hd'
  | _ =>
    cases hn'
    rfl

/-! ### Texts -/

/-- The keys that are in a value. -/
def keysIn (h : Heap) : Value → List Key
  | .array t => (h.pairs t).map (·.1)
  | .object o => (h.pairs (h.properties o)).map (·.1)
  | _ => []

/-- Whether all strings and all text keys that are come to from a value are UTF-8. -/
def Textual (h : Heap) (v : Value) : Prop :=
  ∀ u, h.Reaches v u → (∀ s, u = .string s → s.bytes.IsText) ∧ ∀ k ∈ h.keysIn u, k.IsText

theorem Textual.of_points (ht : h.Textual v) (hp : h.Points v u) : h.Textual u :=
  fun x hx ↦ ht x (.head hp hx)

/-! ### The event of a value -/

/-- Whether a value has a normal form for which its event stands once it was written and read. -/
def Carries (h : Heap) (v : Value) (e : Event) : Prop := ∃ S, h.Norm v S ∧ e.plain.tree = .ok S

/-- Elements that were encoded, each with its event. -/
theorem forall₂_of_encodeAll {encode : Value → Except EncodeError Event}
    {items : List (Key × Event)} (hall : encodeAll encode pairs = .ok items) :
    List.Forall₂ (fun p x ↦ p.1 = x.1 ∧ encode p.2 = .ok x.2) pairs items := by
  induction pairs generalizing items with
  | nil =>
    obtain rfl : [] = items := Except.ok.inj hall
    exact .nil
  | cons p rest ih =>
    rw [encodeAll] at hall
    split at hall
    · cases hall
    next e he =>
      obtain ⟨bs, hrest, rfl⟩ := Except.map_eq_ok_iff.1 hall
      exact .cons ⟨rfl, he⟩ (ih hrest)

/-- Normal forms of elements that were encoded. -/
private theorem exists_forall₂_norm {encode : Value → Except EncodeError Event}
    {items : List (Key × Event)}
    (hi : List.Forall₂ (fun p x ↦ p.1 = x.1 ∧ encode p.2 = .ok x.2) pairs items)
    (hp : ∀ u ∈ pairs.map (·.2), ∀ e, encode u = .ok e → h.Carries u e) :
    ∃ ps : Pairs Tree, List.Forall₂ (fun p q ↦ p.1 = q.1 ∧ h.Norm p.2 q.2) pairs ps ∧
      List.Forall₂ (fun x q ↦ x.1 = q.1 ∧ x.2.plain.tree = .ok q.2) items ps := by
  induction hi with
  | nil => exact ⟨[], .nil, .nil⟩
  | @cons p x _ _ hx _ ih =>
    obtain ⟨ps, hps, hitems⟩ := ih fun u hu ↦ hp u (List.mem_cons_of_mem _ hu)
    obtain ⟨S, hS, htree⟩ := hp p.2 List.mem_cons_self x.2 hx.2
    exact ⟨(p.1, S) :: ps, .cons ⟨rfl, hS⟩ hps, .cons ⟨hx.1.symm, htree⟩ hitems⟩

/-- **An array**, whether it is written as a sequence or as a map. -/
theorem carries_array (hv : h.Valid) {encode : Value → Except EncodeError Event} {e : Event}
    (hk : ∀ k ∈ (h.pairs t).map (·.1), k.IsText) (he : h.encodeElements t encode = .ok e)
    (hp : ∀ u ∈ h.values t, ∀ e, encode u = .ok e → h.Carries u e) : h.Carries (.array t) e := by
  obtain ⟨items, hall, rfl⟩ := exists_of_encodeElements he
  obtain ⟨ps, hps, hitems⟩ := exists_forall₂_norm (forall₂_of_encodeAll hall) hp
  have hnorm := norm_array_iff.2 hps
  have hkeys := hnorm.keys_eq
  refine ⟨.array ps, hnorm, ?_⟩
  rw [assemble]
  split
  next hlist =>
    rw [isList_iff, ← hkeys] at hlist
    rw [Event.plain, Event.tree, Event.appendTrees_of_isList [] hitems hlist]
    rfl
  next =>
    have hnd := hv.nodup_keys t
    rw [← hkeys] at hnd hk
    have hnormal : ∀ k ∈ ps.keys, k.IsNormal ∧ k.IsText := fun k hmem ↦
      ⟨hv.isNormal_keys (hkeys ▸ hmem), hk k hmem⟩
    rw [Event.plain, Event.tree, Event.assignTrees_of_nodup [] hitems hnd hnormal]
    rfl

/-- A value that has nothing in it. -/
private theorem carries_leaf {n : Nat} {path : List Handle} {e : Event} (harray : ∀ t, v ≠ .array t)
    (hentered : ¬ IsEntered v) (ht : h.Textual v) (he : h.encodeWithin n path v = .ok e) :
    h.Carries v e := by
  cases v with
  | array t => exact absurd rfl (harray t)
  | object o => exact absurd (.inr ⟨o, rfl⟩) hentered
  | reference c => exact absurd (.inl ⟨c, rfl⟩) hentered
  | resource r =>
    rw [encodeWithin] at he
    cases he
  | string s =>
    rw [encodeWithin] at he
    obtain rfl := Except.ok.inj he
    have htext : s.bytes.IsText := (ht _ .refl).1 s rfl
    refine ⟨_, .string s, ?_⟩
    rw [Event.plain, Event.tree, Str.text, htext.ofText_lossy]
    all_goals intros; contradiction
  | double d =>
    rw [encodeWithin] at he
    obtain rfl := Except.ok.inj he
    cases hd : d.isFinite with
    | true => exact ⟨_, .finite hd, by rw [Event.plain, hd]; rfl⟩
    | false => exact ⟨_, .infinite hd, by rw [Event.plain, hd]; rfl⟩
  | undefined =>
    rw [encodeWithin] at he
    obtain rfl := Except.ok.inj he
    exact ⟨_, .undefined, rfl⟩
  | null =>
    rw [encodeWithin] at he
    obtain rfl := Except.ok.inj he
    exact ⟨_, .null, rfl⟩
  | bool b =>
    rw [encodeWithin] at he
    obtain rfl := Except.ok.inj he
    exact ⟨_, .bool b, rfl⟩
  | int m =>
    rw [encodeWithin] at he
    obtain rfl := Except.ok.inj he
    exact ⟨_, .int m, rfl⟩

/-- What is encoded has a normal form, and the event carries it. -/
private theorem carries_of_encodeWithin (hv : h.Valid) {n : Nat} {path : List Handle} {e : Event}
    (ht : h.Textual v) (he : h.encodeWithin n path v = .ok e) : h.Carries v e := by
  induction n generalizing v path e with
  | zero =>
    cases v with
    | array t => cases he
    | object o => cases he
    | reference c => cases he
    | _ =>
      refine carries_leaf (fun _ hv ↦ by cases hv) (fun hv ↦ ?_) ht he
      rcases hv with ⟨c, hv⟩ | ⟨o, hv⟩ <;> cases hv
  | succ n ih =>
    cases v with
    | array t =>
      rw [encodeWithin] at he
      exact carries_array hv (ht _ .refl).2 he fun u hu e ↦ ih (ht.of_points hu)
    | object o =>
      rw [encodeWithin] at he
      split at he
      · cases he
      · obtain ⟨S, hS, htree⟩ := carries_array hv (ht _ .refl).2 he fun u hu e ↦ ih (ht.of_points hu)
        exact ⟨S, .object hS, htree⟩
    | reference c =>
      rw [encodeWithin] at he
      split at he
      · cases he
      · obtain ⟨S, hS, htree⟩ := ih (ht.of_points (List.mem_singleton_self _)) he
        exact ⟨S, .reference hS, htree⟩
    | _ =>
      refine carries_leaf (fun _ hv ↦ by cases hv) (fun hv ↦ ?_) ht he
      rcases hv with ⟨c, hv⟩ | ⟨o, hv⟩ <;> cases hv

/-- **The event of a value stands for its normal form** once it was written and read. -/
theorem carries_of_encode (hv : h.Valid) {e : Event} (ht : h.Textual v) (he : h.encode v = .ok e) :
    h.Carries v e :=
  carries_of_encodeWithin hv ht he

end Heap

end SharedValue
