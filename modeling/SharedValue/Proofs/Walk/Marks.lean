import SharedValue.Display
import SharedValue.Encode
import SharedValue.Proofs.Except

/-!
# Walks that mark what they enter

`Heap.diagnosticWithin` and `Heap.encodeWithin` are told the cells and objects that they are inside
of. Here the same walks find that out from marks that all walks share: a walk marks a cell or an
object when it enters it, refuses one that is marked, and takes the mark away when it leaves, be it
with a result or with a failure (`Heap.formatMarking`, `Heap.encodeMarking`).

Both give the same results (`formatMarking_eq`, `encodeMarking_eq`), and a walk leaves the marks as
it found them, so no walk can tell whether there was another one before it.
-/

namespace SharedValue

/-! ### Marks -/

/-- The cells and objects that are marked, the last one first. -/
abbrev Marks := List Handle

namespace Marks

/-- Marks a cell or an object, unless it is marked already. -/
def enter (x : Handle) (m : Marks) : Option Marks := if x ∈ m then none else some (x :: m)

/-- Takes the last mark of a cell or an object away. -/
def leave (x : Handle) (m : Marks) : Marks := m.erase x

variable {x : Handle} {m : Marks}

/-- What is marked cannot be entered. -/
theorem enter_of_mem (hx : x ∈ m) : enter x m = none := if_pos hx

/-- What is not is marked. -/
theorem enter_of_notMem (hx : x ∉ m) : enter x m = some (x :: m) := if_neg hx

/-- Leaving takes away the mark that was made on entering. -/
theorem leave_cons (x : Handle) (m : Marks) : leave x (x :: m) = m := List.erase_cons_head _ _

end Marks

/-! ### Elements in turn -/

/-- Carries a walk over the elements of an array in turn. -/
def passAll {β : Type} (walk : Value → Marks → β × Marks) :
    List (Key × Value) → Marks → List (Key × β) × Marks
  | [], m => ([], m)
  | (k, v) :: rest, m =>
    let (b, m) := walk v m
    let (bs, m) := passAll walk rest m
    ((k, b) :: bs, m)

/-- Carries a walk over the elements of an array in turn, up to the first that fails. -/
def passUntil {ε β : Type} (walk : Value → Marks → Except ε β × Marks) :
    List (Key × Value) → Marks → Except ε (List (Key × β)) × Marks
  | [], m => (.ok [], m)
  | (k, v) :: rest, m =>
    match walk v m with
    | (.error e, m) => (.error e, m)
    | (.ok b, m) =>
      match passUntil walk rest m with
      | (.error e, m) => (.error e, m)
      | (.ok bs, m) => (.ok ((k, b) :: bs), m)

/-- A walk that leaves the marks goes through all elements with them. -/
theorem passAll_eq {β : Type} {walk : Value → Marks → β × Marks} {f : Value → β} {m : Marks}
    (hw : ∀ v, walk v m = (f v, m)) (pairs : List (Key × Value)) :
    passAll walk pairs m = (pairs.map fun p ↦ (p.1, f p.2), m) := by
  induction pairs with
  | nil => rfl
  | cons p rest ih =>
    rw [passAll, hw]
    dsimp only
    rw [ih, List.map_cons]

/-- Encodes the elements of an array in turn, up to the first that fails. -/
def encodeAll (encode : Value → Except EncodeError Event) :
    List (Key × Value) → Except EncodeError (List (Key × Event))
  | [] => .ok []
  | (k, v) :: rest =>
    match encode v with
    | .error e => .error e
    | .ok b => (encodeAll encode rest).map ((k, b) :: ·)

/-- Or up to the first failure. -/
theorem passUntil_eq {walk : Value → Marks → Except EncodeError Event × Marks}
    {encode : Value → Except EncodeError Event} {m : Marks} (hw : ∀ v, walk v m = (encode v, m))
    (pairs : List (Key × Value)) : passUntil walk pairs m = (encodeAll encode pairs, m) := by
  induction pairs with
  | nil => rfl
  | cons p rest ih =>
    rw [passUntil, encodeAll, hw]
    cases encode p.2 with
    | error e => rfl
    | ok b =>
      dsimp only
      rw [ih]
      cases encodeAll encode rest <;> rfl

namespace Heap

variable {h : Heap} {borrowed : List CellId} {path : List CellId}

/-! ### Formatting -/

/-- The diagnostic text of a value and the marks afterwards. -/
def formatMarking (h : Heap) (borrowed : List CellId) :
    (depth : Nat) → Value → Marks → String × Marks
  | depth + 1, .array t, m =>
    let (pairs, m) := passAll (h.formatMarking borrowed depth) (h.pairs t) m
    ("Array(" ++ diagnosticPairs pairs ++ ")", m)
  | depth + 1, .reference c, m =>
    match Marks.enter (.cell c) m with
    | none => ("Reference(*RECURSION*)", m)
    | some m =>
      if c ∈ borrowed then ("Reference(&<borrowed>)", Marks.leave (.cell c) m)
      else
        let (text, m) := h.formatMarking borrowed depth (h.cell c) m
        ("Reference(&" ++ text ++ ")", Marks.leave (.cell c) m)
  | _, v, m => (h.diagnosticWithin borrowed 0 [] v, m)

/-- **Formatting with marks** gives what formatting inside the marked cells gives, and leaves the
marks as they were. -/
theorem formatMarking_eq (depth : Nat) (v : Value) {m : Marks}
    (hm : ∀ c, .cell c ∈ m ↔ c ∈ path) :
    h.formatMarking borrowed depth v m = (h.diagnosticWithin borrowed depth path v, m) := by
  induction depth generalizing v m path with
  | zero => cases v <;> rw [formatMarking] <;> simp [diagnosticWithin]
  | succ depth ih =>
    cases v with
    | array t =>
      rw [formatMarking, diagnosticWithin, passAll_eq fun v ↦ ih v hm]
    | reference c =>
      rw [formatMarking, diagnosticWithin]
      by_cases hc : c ∈ path
      · rw [Marks.enter_of_mem ((hm c).2 hc), if_pos hc]
        rfl
      · have hm' : ∀ d, .cell d ∈ Handle.cell c :: m ↔ d ∈ c :: path := by
          intro d
          rw [List.mem_cons, List.mem_cons, hm d, Handle.cell.injEq]
        rw [Marks.enter_of_notMem fun h ↦ hc ((hm c).1 h), if_neg hc]
        dsimp only
        rw [ih _ hm', Marks.leave_cons]
        by_cases hb : c ∈ borrowed
        · rw [if_pos hb, if_pos hb]
          rfl
        · rw [if_neg hb, if_neg hb, ← String.append_assoc]
          rfl
    | _ => rw [formatMarking] <;> simp [diagnosticWithin]

/-! ### Encoding -/

/-- The event of an array whose elements have the given events. -/
def assemble (h : Heap) (t : TableId) (items : List (Key × Event)) : Event :=
  if h.isList t then .sequence (items.map (·.2)) else .map (items.map fun p ↦ (p.1.event, p.2))

private theorem mapM_values (encode : Value → Except EncodeError Event)
    (pairs : List (Key × Value)) :
    (pairs.map (·.2)).mapM encode = (encodeAll encode pairs).map (·.map (·.2)) := by
  induction pairs with
  | nil => rfl
  | cons p rest ih =>
    rw [List.map_cons, List.mapM_cons, ih, encodeAll]
    cases encode p.2 with
    | error e => rfl
    | ok b => cases encodeAll encode rest <;> rfl

private theorem mapM_pairs (encode : Value → Except EncodeError Event)
    (pairs : List (Key × Value)) :
    (pairs.mapM fun p ↦ return (p.1.event, ← encode p.2)) =
      (encodeAll encode pairs).map (·.map fun p ↦ (p.1.event, p.2)) := by
  induction pairs with
  | nil => rfl
  | cons p rest ih =>
    rw [List.mapM_cons, ih, encodeAll]
    cases encode p.2 with
    | error e => rfl
    | ok b => cases encodeAll encode rest <;> rfl

/-- The elements of an array are encoded in turn and put together. -/
theorem encodeElements_eq (t : TableId) (encode : Value → Except EncodeError Event) :
    h.encodeElements t encode = (encodeAll encode (h.pairs t)).map (h.assemble t) := by
  have hvalues : h.values t = (h.pairs t).map (·.2) := rfl
  rw [encodeElements, hvalues, mapM_values, mapM_pairs]
  have hmap : h.assemble t = fun items ↦ h.assemble t items := rfl
  rw [hmap]
  simp only [assemble]
  split <;> cases encodeAll encode (h.pairs t) <;> rfl

/-- An array that has an event has the one that its elements' events make up. -/
theorem exists_of_encodeElements {t : TableId} {encode : Value → Except EncodeError Event}
    {e : Event} (he : h.encodeElements t encode = .ok e) :
    ∃ items, encodeAll encode (h.pairs t) = .ok items ∧ h.assemble t items = e := by
  rw [encodeElements_eq] at he
  exact Except.map_eq_ok_iff.1 he

/-- The event of an array, given a walk that encodes its values, and the marks afterwards. -/
def encodeElementsMarking (h : Heap) (t : TableId)
    (walk : Value → Marks → Except EncodeError Event × Marks) (m : Marks) :
    Except EncodeError Event × Marks :=
  let (items, m) := passUntil walk (h.pairs t) m
  (items.map (h.assemble t), m)

/-- The event of a value and the marks afterwards. -/
def encodeMarking (h : Heap) :
    (depth : Nat) → Value → Marks → Except EncodeError Event × Marks
  | depth + 1, .array t, m => h.encodeElementsMarking t (h.encodeMarking depth) m
  | depth + 1, .object o, m =>
    match Marks.enter (.object o) m with
    | none => (.error (.recursiveObject (h.className o).text), m)
    | some m =>
      let (r, m) := h.encodeElementsMarking (h.properties o) (h.encodeMarking depth) m
      (r, Marks.leave (.object o) m)
  | depth + 1, .reference c, m =>
    match Marks.enter (.cell c) m with
    | none => (.error .recursiveReference, m)
    | some m =>
      let (r, m) := h.encodeMarking depth (h.cell c) m
      (r, Marks.leave (.cell c) m)
  | _, v, m => (h.encodeWithin 0 [] v, m)

/-- And the marks are left, if each element leaves them. -/
private theorem encodeElementsMarking_eq (t : TableId)
    {walk : Value → Marks → Except EncodeError Event × Marks}
    {encode : Value → Except EncodeError Event} {m : Marks} (hw : ∀ v, walk v m = (encode v, m)) :
    h.encodeElementsMarking t walk m = (h.encodeElements t encode, m) := by
  rw [encodeElementsMarking, passUntil_eq hw, encodeElements_eq]

/-- **Encoding with marks** gives what encoding inside the marked cells and objects gives, and
leaves the marks as they were, whether it fails or not. -/
theorem encodeMarking_eq (depth : Nat) (v : Value) (m : Marks) :
    h.encodeMarking depth v m = (h.encodeWithin depth m v, m) := by
  induction depth generalizing v m with
  | zero => cases v <;> rw [encodeMarking] <;> simp [encodeWithin]
  | succ depth ih =>
    cases v with
    | array t =>
      rw [encodeMarking, encodeWithin, encodeElementsMarking_eq t fun v ↦ ih v m]
    | object o =>
      rw [encodeMarking, encodeWithin]
      by_cases ho : .object o ∈ m
      · rw [Marks.enter_of_mem ho, if_pos ho]
      · rw [Marks.enter_of_notMem ho, if_neg ho]
        dsimp only
        rw [encodeElementsMarking_eq _ fun v ↦ ih v _, Marks.leave_cons]
    | reference c =>
      rw [encodeMarking, encodeWithin]
      by_cases hc : .cell c ∈ m
      · rw [Marks.enter_of_mem hc, if_pos hc]
      · rw [Marks.enter_of_notMem hc, if_neg hc]
        dsimp only
        rw [ih, Marks.leave_cons]
    | _ => rw [encodeMarking] <;> simp [encodeWithin]

end Heap

end SharedValue
