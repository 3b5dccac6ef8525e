import Mathlib.Data.List.Forall2
import SharedValue.Proofs.Forest.Basic

/-!
# Changes with related operands

A change in a workspace has values as its operands and labels as its keys, and the same change in a
forest has trees and keys. The module says what it is for two changes to be the same but for that,
for any relation between the operands, and the same of results and outcomes. Changes whose keys and
operands were looked up in the same way are related (`Edit.alike_resolve`). -/

namespace SharedValue

/-! ### Related operands and results -/

variable {α β ε κ κ' ν ν' : Type} {R R' : α → β → Prop}

/-- Whether two results are the same error, or are related. -/
inductive Alike (R : α → β → Prop) : Except ε α → Except ε β → Prop
  | ok {a : α} {b : β} (h : R a b) : Alike R (.ok a) (.ok b)
  | error (e : ε) : Alike R (.error e) (.error e)

/-- Alike for a weaker relation. -/
theorem Alike.imp {r : Except ε α} {r' : Except ε β} (h : Alike R r r')
    (himp : ∀ {a b}, R a b → R' a b) : Alike R' r r' := by
  cases h with
  | ok h => exact .ok (himp h)
  | error e => exact .error e

/-- Whether an outcome is a view, with a related value if it is one. -/
inductive Outcome.Gives (R : Value → Tree → Prop) : Outcome → View → Prop
  | done : Gives R .done .done
  | value {v : Value} {S : Tree} (h : R v S) : Gives R (.value v) (.tree S)
  | flag (b : Bool) : Gives R (.flag b) (.flag b)
  | index (n : Int64) : Gives R (.index n) (.index n)

theorem Outcome.Gives.imp {R R' : Value → Tree → Prop} {o : Outcome} {view : View}
    (h : o.Gives R view) (himp : ∀ {v S}, R v S → R' v S) : o.Gives R' view := by
  cases h with
  | value h => exact .value (himp h)
  | done => exact .done
  | flag b => exact .flag b
  | index n => exact .index n

/-- Whether two deeds are the same with related operands. -/
inductive Deed.Rel (R : ν → ν' → Prop) : Deed ν → Deed ν' → Prop
  | read : Rel R .read .read
  | assign {v : ν} {v' : ν'} (h : R v v') : Rel R (.assign v) (.assign v')
  | replace {v : ν} {v' : ν'} (h : R v v') : Rel R (.replace v) (.replace v')
  | overwrite {v : ν} {v' : ν'} (h : R v v') : Rel R (.overwrite v) (.overwrite v')
  | push {v : ν} {v' : ν'} (h : R v v') : Rel R (.push v) (.push v')

theorem Deed.Rel.imp {R R' : ν → ν' → Prop} {d : Deed ν} {d' : Deed ν'} (h : Deed.Rel R d d')
    (himp : ∀ {v v'}, R v v' → R' v v') : Deed.Rel R' d d' := by
  cases h with
  | read => exact .read
  | assign h => exact .assign (himp h)
  | replace h => exact .replace (himp h)
  | overwrite h => exact .overwrite (himp h)
  | push h => exact .push (himp h)

/-- Whether two changes are the same with related keys and operands. -/
inductive Edit.Rel (K : κ → κ' → Prop) (R : ν → ν' → Prop) : Edit κ ν → Edit κ' ν' → Prop
  | clear : Rel K R .clear .clear
  | insert {k : κ} {k' : κ'} {v : ν} {v' : ν'} (hk : K k k') (h : R v v') :
      Rel K R (.insert k v) (.insert k' v')
  | push {v : ν} {v' : ν'} (h : R v v') : Rel K R (.push v) (.push v')
  | unset {k : κ} {k' : κ'} (hk : K k k') : Rel K R (.unset k) (.unset k')
  | extend {pairs : List (κ × ν)} {pairs' : List (κ' × ν')}
      (h : List.Forall₂ (fun a b ↦ K a.1 b.1 ∧ R a.2 b.2) pairs pairs') :
      Rel K R (.extend pairs) (.extend pairs')
  | open {k : κ} {k' : κ'} {deeds : List (Deed ν)} {deeds' : List (Deed ν')} (hk : K k k')
      (h : List.Forall₂ (Deed.Rel R) deeds deeds') : Rel K R (.open k deeds) (.open k' deeds')
  | append {deeds : List (Deed ν)} {deeds' : List (Deed ν')}
      (h : List.Forall₂ (Deed.Rel R) deeds deeds') : Rel K R (.append deeds) (.append deeds')

theorem Edit.Rel.imp {K : κ → κ' → Prop} {R R' : ν → ν' → Prop} {e : Edit κ ν} {e' : Edit κ' ν'}
    (h : Edit.Rel K R e e') (himp : ∀ {v v'}, R v v' → R' v v') : Edit.Rel K R' e e' := by
  have hdeeds : ∀ {deeds : List (Deed ν)} {deeds' : List (Deed ν')},
      List.Forall₂ (Deed.Rel R) deeds deeds' → List.Forall₂ (Deed.Rel R') deeds deeds' :=
    fun hd ↦ hd.imp fun _ _ h ↦ h.imp himp
  cases h with
  | clear => exact .clear
  | insert hk h => exact .insert hk (himp h)
  | push h => exact .push (himp h)
  | unset hk => exact .unset hk
  | extend h => exact .extend (h.imp fun _ _ h ↦ ⟨h.1, himp h.2⟩)
  | «open» hk hd => exact .open hk (hdeeds hd)
  | append hd => exact .append (hdeeds hd)

/-! ### Looking up keys and operands -/

/-- Changes are looked up alike if their operands are related. -/
theorem Edit.alike_resolve {μ : Type} {R : ν' → μ → Prop} (key : κ → Except ε Key)
    {operand : ν → ν'} {operand' : ν → μ} (h : ∀ x, R (operand x) (operand' x)) (e : Edit κ ν) :
    Alike (Edit.Rel Eq R) (e.resolve key operand) (e.resolve key operand') := by
  have hdeeds : ∀ deeds : List (Deed ν), List.Forall₂ (Deed.Rel R) (deeds.map (Deed.map operand))
      (deeds.map (Deed.map operand')) := by
    intro deeds
    rw [List.forall₂_map_left_iff, List.forall₂_map_right_iff, List.forall₂_same]
    intro d _
    cases d with
    | read => exact .read
    | assign x => exact .assign (h x)
    | replace x => exact .replace (h x)
    | overwrite x => exact .overwrite (h x)
    | push x => exact .push (h x)
  -- a change under a key
  have hkeyed : ∀ (k : κ) {f : Key → Edit Key ν'} {f' : Key → Edit Key μ},
      (∀ k, Edit.Rel Eq R (f k) (f' k)) → Alike (Edit.Rel Eq R) ((key k).map f) ((key k).map f') := by
    intro k f f' hf
    cases key k with
    | error err => exact .error err
    | ok k => exact .ok (hf k)
  cases e with
  | clear => exact .ok .clear
  | insert k x => exact hkeyed k fun _ ↦ .insert rfl (h x)
  | push x => exact .ok (.push (h x))
  | unset k => exact hkeyed k fun _ ↦ .unset rfl
  | «open» k deeds => exact hkeyed k fun _ ↦ .open rfl (hdeeds deeds)
  | append deeds => exact .ok (.append (hdeeds deeds))
  | extend pairs =>
    rw [resolve, resolve]
    cases (pairs.map (·.1)).mapM key with
    | error err => exact .error err
    | ok ks =>
      refine .ok (.extend ?_)
      induction ks generalizing pairs with
      | nil => exact .nil
      | cons k ks ih =>
        cases pairs with
        | nil => exact .nil
        | cons p pairs => exact .cons ⟨rfl, h p.2⟩ (ih pairs)

/-- A change whose keys were looked up is related to the change with the keys themselves, and with
it its operands. -/
theorem Edit.Rel.of_mapKeys {R : Value → ν' → Prop} {f : κ → Key} {e : Edit κ Value}
    {e' : Edit Key ν'} (h : Edit.Rel Eq R (e.mapKeys f) e') :
    Edit.Rel (fun k k' ↦ f k = k') (fun v v' ↦ v ∈ e.operands ∧ R v v') e e' := by
  have hdeeds : ∀ {deeds : List (Deed Value)} {deeds' : List (Deed ν')},
      List.Forall₂ (Deed.Rel R) deeds deeds' → List.Forall₂
        (Deed.Rel fun v v' ↦ v ∈ deeds.filterMap Deed.operand? ∧ R v v') deeds deeds' := by
    intro deeds deeds' hd
    induction hd with
    | nil => exact .nil
    | @cons d d' rest rest' hd _ ih =>
      have hrest : ∀ {v}, v ∈ rest.filterMap Deed.operand? →
          v ∈ (d :: rest).filterMap Deed.operand? := by
        intro v hv
        rw [List.filterMap_cons]
        split
        · exact hv
        · exact List.mem_cons_of_mem _ hv
      refine .cons ?_ (ih.imp fun _ _ hd ↦ hd.imp fun hv ↦ ⟨hrest hv.1, hv.2⟩)
      cases hd with
      | read => exact .read
      | assign h => exact .assign ⟨List.mem_cons_self, h⟩
      | replace h => exact .replace ⟨List.mem_cons_self, h⟩
      | overwrite h => exact .overwrite ⟨List.mem_cons_self, h⟩
      | push h => exact .push ⟨List.mem_cons_self, h⟩
  cases e with
  | clear =>
    cases h
    exact .clear
  | insert k v =>
    cases h with
    | insert hk hv => exact .insert hk ⟨List.mem_cons_self, hv⟩
  | push v =>
    cases h with
    | push hv => exact .push ⟨List.mem_cons_self, hv⟩
  | unset k =>
    cases h with
    | unset hk => exact .unset hk
  | «open» k deeds =>
    cases h with
    | «open» hk hd => exact .open hk (hdeeds hd)
  | append deeds =>
    cases h with
    | append hd => exact .append (hdeeds hd)
  | extend pairs =>
    cases h with
    | extend hp =>
      rw [List.forall₂_map_left_iff] at hp
      refine .extend ?_
      have hmem : List.Forall₂ (fun p (q : Key × ν') ↦ p ∈ pairs ∧ f p.1 = q.1 ∧ R p.2 q.2)
          pairs _ :=
        (List.forall₂_and_left (p := (· ∈ pairs)) pairs _).2 ⟨fun _ hp ↦ hp, hp⟩
      exact hmem.imp fun p q h ↦ ⟨h.2.1, List.mem_map_of_mem h.1, h.2.2⟩

end SharedValue
