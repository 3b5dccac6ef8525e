import SharedValue.Proofs.Acyclic.Reachable
import SharedValue.Proofs.Walk.Depth
import SharedValue.Proofs.Walk.Marks

/-!
# Diagnostics are finite

A `Picture` is what the diagnostic text of a value shows, as a tree: arrays with their elements,
cells with their contents, and the cells at which it stops. `Heap.Depicts` says that a picture shows
a value, with no word on where it stops, `Picture.text` writes a picture down, and
`Picture.occurrences` lists the cells that occur in a picture, each with the cells inside whose
expansion it occurs. None of them mentions the walk that formats a value.

Where no array contains itself every value has a picture that stops at a cell exactly if the cell
occurs inside the expansion of the same cell, and its text is the diagnostic text
(`exists_depicts`): formatting never comes to the level where it would be cut.
-/

namespace SharedValue

/-! ### Pictures -/

/-- What a diagnostic text shows. -/
inductive Picture
  /-- A value that is not gone into. -/
  | leaf (v : Value)
  | array (items : List (Key × Picture))
  /-- A cell at which the text stops. -/
  | again (c : CellId)
  /-- A cell that is expanded. -/
  | cell (c : CellId) (content : Picture)

/-- A cell that occurs in a picture. -/
structure Occurrence where
  cell : CellId
  /-- The cells in whose expansions it occurs. -/
  inside : List CellId
  expanded : Bool

/-- The text of a key: an integer in decimal, a text between quotation marks. -/
def Picture.keyText : Key → String
  | .int n => Decimal.text n.toInt
  | .text b => Text.quoted b.lossy

/-- The text of a value that is not gone into: its kind, around what tells it from others of the
kind. -/
def Picture.leafText (h : Heap) : Value → String
  | .undefined => "Undefined"
  | .null => "Null"
  | .bool true => "Bool(true)"
  | .bool false => "Bool(false)"
  | .int n => "Int(" ++ Decimal.text n.toInt ++ ")"
  | .double d => "Double(" ++ d.write Double.diagnostic ++ ")"
  | .string s => "String(" ++ Text.quoted s.text ++ ")"
  | .object o => "Object(Object(" ++ (h.className o).text ++ "))"
  | .resource r =>
    "Resource(Resource(#" ++ Decimal.text (h.resourceHandle r).toInt ++ " " ++
      (h.resourceKind r).text ++ "))"
  | .array _ | .reference _ => ""

mutual

/-- The text of a picture. Arrays stand in braces, cells behind an ampersand. -/
def Picture.text (h : Heap) : Picture → String
  | .leaf v => Picture.leafText h v
  | .array items => "Array(" ++ ("\x7b" ++ Picture.itemsText h items ++ "\x7d") ++ ")"
  | .again _ => "Reference(*RECURSION*)"
  | .cell _ content => "Reference(&" ++ content.text h ++ ")"

/-- The text of the elements of an array: each key with its element after a colon, and commas
between them. -/
def Picture.itemsText (h : Heap) : List (Key × Picture) → String
  | [] => ""
  | [(k, p)] => Picture.keyText k ++ ": " ++ p.text h
  | (k, p) :: item :: rest =>
    Picture.keyText k ++ ": " ++ p.text h ++ ", " ++ Picture.itemsText h (item :: rest)

end

mutual

/-- The cells that occur in a picture inside the expansions of given ones. -/
def Picture.occurrences (inside : List CellId) : Picture → List Occurrence
  | .leaf _ => []
  | .array items => Picture.occurrencesAll inside items
  | .again c => [⟨c, inside, false⟩]
  | .cell c content => ⟨c, inside, true⟩ :: content.occurrences (c :: inside)

/-- The cells that occur in the elements of an array. -/
def Picture.occurrencesAll (inside : List CellId) : List (Key × Picture) → List Occurrence
  | [] => []
  | (_, p) :: rest => p.occurrences inside ++ Picture.occurrencesAll inside rest

end

/-- Whether a picture inside the expansions of given cells stops exactly at those cells that occur
inside their own expansion. -/
def Picture.StopsWithin (inside : List CellId) (p : Picture) : Prop :=
  ∀ x ∈ p.occurrences inside, x.expanded = true ↔ x.cell ∉ x.inside

namespace Heap

mutual

/-- Whether a picture shows a value. -/
inductive Depicts (h : Heap) : Value → Picture → Prop
  | leaf {v : Value} (harray : ∀ t, v ≠ .array t) (hcell : ∀ c, v ≠ .reference c) :
      Depicts h v (.leaf v)
  | array {t : TableId} {items : List (Key × Picture)} (hitems : DepictsAll h (h.pairs t) items) :
      Depicts h (.array t) (.array items)
  | again (c : CellId) : Depicts h (.reference c) (.again c)
  | cell {c : CellId} {content : Picture} (hcontent : Depicts h (h.cell c) content) :
      Depicts h (.reference c) (.cell c content)

/-- Whether pictures show elements of an array, under the same keys in the same order. -/
inductive DepictsAll (h : Heap) : List (Key × Value) → List (Key × Picture) → Prop
  | nil : DepictsAll h [] []
  | cons {k : Key} {v : Value} {p : Picture} {pairs : List (Key × Value)}
      {items : List (Key × Picture)} (hv : Depicts h v p) (hrest : DepictsAll h pairs items) :
      DepictsAll h ((k, v) :: pairs) ((k, p) :: items)

end

variable {h : Heap} {t : TableId} {c : CellId} {v : Value} {path : List CellId} {n : Nat}

/-- Whether a value has a picture inside the expansions of given cells that stops where it should
and is what is formatted, at every depth from `n` on. -/
def Pictured (h : Heap) (path : List CellId) (n : Nat) (v : Value) : Prop :=
  ∃ p, h.Depicts v p ∧ p.StopsWithin path ∧
    ∀ depth, n ≤ depth → h.diagnosticWithin [] depth path v = p.text h

theorem Pictured.mono {m : Nat} (hp : h.Pictured path n v) (hle : n ≤ m) : h.Pictured path m v := by
  obtain ⟨p, hd, hstop, htext⟩ := hp
  exact ⟨p, hd, hstop, fun depth hm ↦ htext depth (hle.trans hm)⟩

theorem pictured_leaf (harray : ∀ t, v ≠ .array t) (hcell : ∀ c, v ≠ .reference c)
    (path : List CellId) (n : Nat) : h.Pictured path n v := by
  refine ⟨.leaf v, .leaf harray hcell, fun x hx ↦ ?_, fun depth _ ↦ ?_⟩
  · rw [Picture.occurrences] at hx
    cases hx
  · rw [Picture.text]
    cases v with
    | array t => exact absurd rfl (harray t)
    | reference c => exact absurd rfl (hcell c)
    | bool b => cases b <;> rw [diagnosticWithin] <;> rfl
    | _ =>
      rw [diagnosticWithin]
      rfl

/-- A value is an array, a reference or a leaf. -/
theorem pictured_of_cases (harray : ∀ t, v = .array t → h.Pictured path n v)
    (hcell : ∀ c, v = .reference c → h.Pictured path n v) : h.Pictured path n v := by
  by_cases ht : ∃ t, v = .array t
  · exact ht.elim harray
  · by_cases hc : ∃ c, v = .reference c
    · exact hc.elim hcell
    · exact pictured_leaf (fun t he ↦ ht ⟨t, he⟩) (fun c he ↦ hc ⟨c, he⟩) path n

/-- Elements whose texts are those of their pictures are joined to the text of the pictures. -/
theorem diagnosticPairs_eq {pairs : List (Key × String)} {items : List (Key × Picture)}
    (he : pairs = items.map fun i ↦ (i.1, i.2.text h)) :
    diagnosticPairs pairs = "\x7b" ++ Picture.itemsText h items ++ "\x7d" := by
  have hkey : ∀ k : Key, k.diagnostic = Picture.keyText k := fun k ↦ by cases k <;> rfl
  subst he
  rw [diagnosticPairs, List.map_map]
  congr 2
  induction items with
  | nil => rw [Picture.itemsText, List.map_nil, String.intercalate_nil]
  | cons item rest ih =>
    obtain ⟨k, p⟩ := item
    cases rest with
    | nil =>
      rw [Picture.itemsText, List.map_singleton, String.intercalate_singleton]
      exact congrArg (· ++ ": " ++ p.text h) (hkey k)
    | cons item rest =>
      rw [Picture.itemsText, ← ih, List.map_cons, List.map_cons, String.intercalate_cons_cons,
        ← List.map_cons]
      exact congrArg (· ++ ": " ++ p.text h ++ ", " ++ _) (hkey k)

/-- The pictures of elements are put together. -/
theorem exists_depictsAll {pairs : List (Key × Value)}
    (hp : ∀ q ∈ pairs, h.Pictured path n q.2) : ∃ items, h.DepictsAll pairs items ∧
      (∀ x ∈ Picture.occurrencesAll path items, x.expanded = true ↔ x.cell ∉ x.inside) ∧
      ∀ depth, n ≤ depth → (pairs.map fun q ↦ (q.1, h.diagnosticWithin [] depth path q.2)) =
        items.map fun i ↦ (i.1, i.2.text h) := by
  induction pairs with
  | nil =>
    refine ⟨[], .nil, fun x hx ↦ ?_, fun _ _ ↦ ?_⟩
    · rw [Picture.occurrencesAll] at hx
      cases hx
    · rw [List.map_nil, List.map_nil]
  | cons q rest ih =>
    obtain ⟨k, v⟩ := q
    obtain ⟨p, hd, hstop, htext⟩ := hp (k, v) List.mem_cons_self
    obtain ⟨items, hds, hstops, htexts⟩ := ih fun q hq ↦ hp q (List.mem_cons_of_mem _ hq)
    refine ⟨(k, p) :: items, .cons hd hds, fun x hx ↦ ?_, fun depth hle ↦ ?_⟩
    · rw [Picture.occurrencesAll] at hx
      exact (List.mem_append.1 hx).elim (hstop x) (hstops x)
    · rw [List.map_cons, List.map_cons, htext depth hle, htexts depth hle]

/-- An array is pictured if its elements are, one level down. -/
theorem pictured_array (hp : ∀ q ∈ h.pairs t, h.Pictured path n q.2) :
    h.Pictured path (n + 1) (.array t) := by
  obtain ⟨items, hd, hstop, htext⟩ := exists_depictsAll hp
  refine ⟨.array items, .array hd, fun x hx ↦ ?_, fun depth hle ↦ ?_⟩
  · rw [Picture.occurrences] at hx
    exact hstop x hx
  · cases depth with
    | zero => cases hle
    | succ depth =>
      have hpairs := diagnosticPairs_eq (htext depth (Nat.le_of_succ_le_succ hle))
      rw [Picture.text, diagnosticWithin, hpairs]

/-- A cell is pictured if it is met again, or if its content is, one level down. -/
theorem pictured_reference (hc : c ∉ path → h.Pictured (c :: path) n (h.cell c)) :
    h.Pictured path (n + 1) (.reference c) := by
  by_cases hmem : c ∈ path
  · refine ⟨.again c, .again c, fun x hx ↦ ?_, fun depth hle ↦ ?_⟩
    · rw [Picture.occurrences] at hx
      rw [List.mem_singleton.1 hx]
      exact iff_of_false Bool.false_ne_true fun hn ↦ hn hmem
    · cases depth with
      | zero => cases hle
      | succ depth =>
        rw [Picture.text, diagnosticWithin, if_pos hmem]
        rfl
  · obtain ⟨p, hd, hstop, htext⟩ := hc hmem
    refine ⟨.cell c p, .cell hd, fun x hx ↦ ?_, fun depth hle ↦ ?_⟩
    · rw [Picture.occurrences] at hx
      rcases List.mem_cons.1 hx with rfl | hx
      · exact iff_of_true rfl hmem
      · exact hstop x hx
    · cases depth with
      | zero => cases hle
      | succ depth =>
        rw [Picture.text, diagnosticWithin, if_neg hmem, if_neg List.not_mem_nil,
          htext depth (Nat.le_of_succ_le_succ hle), ← String.append_assoc]
        rfl

/-- **A walk never comes to the level where it would be cut**: what is ahead of it is enough. -/
theorem pictured_of_trail (ha : h.Acyclic) (hv : h.Valid) (hva : h.Admits v)
    (hp : h.Trail (path.map .cell)) : h.Pictured path (h.ahead (path.map .cell) v + 1) v := by
  induction hn : h.ahead (path.map .cell) v using Nat.strongRecOn generalizing path v with
  | ind n ih =>
    refine pictured_of_cases (fun t he ↦ ?_) fun c he ↦ ?_
    · subst he
      refine pictured_array fun q hq ↦ ?_
      have hlt := ahead_lt_of_mem_values ha hv (admits_array_iff.1 hva) (List.mem_map_of_mem hq)
        (path.map .cell)
      rw [hn] at hlt
      exact (ih _ hlt (hv.admits_of_mem_pairs hq) hp rfl).mono hlt
    · subst he
      refine pictured_reference fun hc ↦ ?_
      have hp' : h.Trail ((c :: path).map .cell) := by
        refine hp.cons ⟨admits_reference_iff.1 hva, .inl ⟨c, rfl⟩⟩ fun hm ↦ hc ?_
        obtain ⟨d, hd, he⟩ := List.mem_map.1 hm
        rwa [← Handle.cell.inj he]
      have hlt := ahead_lt_of_enter hp' (h.cell c) (.reference c)
      rw [hn] at hlt
      exact (ih _ hlt (hv.admits_cell c) hp' rfl).mono hlt

theorem pictured_admitted (ha : h.Acyclic) (hv : h.Valid) (hva : h.Admits v) :
    h.Pictured [] (h.extent - 1) v := by
  have hnil : h.Trail (List.map .cell []) := .nil h
  exact (pictured_of_trail ha hv hva hnil).mono (Nat.le_sub_one_of_lt (h.ahead_nil_lt_extent v))

/-- The content of a cell inside the expansion of the cell, which may be one that is not there. -/
theorem pictured_content (ha : h.Acyclic) (hv : h.Valid) (c : CellId) :
    h.Pictured [c] (h.extent - 1) (h.cell c) := by
  by_cases hs : h.Sound (.cell c)
  · have hp : h.Trail ([c].map .cell) := (Trail.nil h).cons ⟨hs, .inl ⟨c, rfl⟩⟩ List.not_mem_nil
    have hlt := ahead_lt_of_enter hp (h.cell c) (.reference c)
    have hext := h.ahead_nil_lt_extent (.reference c)
    exact (pictured_of_trail ha hv (hv.admits_cell c) hp).mono
      (hlt.trans_le (Nat.le_sub_one_of_lt (Nat.lt_of_succ_lt hext)))
  · rw [cell_of_not_sound hs]
    exact pictured_leaf (fun _ hu ↦ by cases hu) (fun _ hu ↦ by cases hu) _ _

/-- **Every value is pictured**, also one that mentions what is not there. -/
theorem pictured (ha : h.Acyclic) (hv : h.Valid) (v : Value) : h.Pictured [] h.extent v := by
  rw [h.extent_eq_add_one]
  refine pictured_of_cases (fun t ht ↦ ?_) fun c hc ↦ ?_
  · rw [ht]
    exact pictured_array fun q hq ↦ pictured_admitted ha hv (hv.admits_of_mem_pairs hq)
  · rw [hc]
    exact pictured_reference fun _ ↦ pictured_content ha hv c

/-! ### Arrays and cells on their own -/

theorem Pictured.diagnosticWithin_eq (hp : h.Pictured path n v) {depth depth' : Nat}
    (hle : n ≤ depth) (hle' : n ≤ depth') :
    h.diagnosticWithin [] depth path v = h.diagnosticWithin [] depth' path v := by
  obtain ⟨p, -, -, htext⟩ := hp
  rw [htext _ hle, htext _ hle']

/-- An array has the same text on its own as inside a value. -/
theorem diagnostic_array_eq (ha : h.Acyclic) (hv : h.Valid) (t : TableId) :
    h.diagnostic [] (.array t) = "Array(" ++ h.diagnosticTable [] t ++ ")" := by
  have hitems : ((h.pairs t).map fun q ↦ (q.1, h.diagnosticWithin [] (h.extent - 1) [] q.2)) =
      (h.pairs t).map fun q ↦ (q.1, h.diagnostic [] q.2) := by
    refine List.map_congr_left fun q hq ↦ ?_
    have hp := pictured_admitted ha hv (hv.admits_of_mem_pairs hq)
    rw [diagnostic, hp.diagnosticWithin_eq (Nat.le_refl _) (Nat.sub_le _ _)]
  rw [diagnosticTable, ← hitems, diagnostic, h.extent_eq_add_one, diagnosticWithin]
  rfl

/-- A cell has the same text on its own as inside a value. -/
theorem diagnostic_reference_eq (ha : h.Acyclic) (hv : h.Valid) (c : CellId) :
    h.diagnostic [] (.reference c) = "Reference(" ++ h.diagnosticCell [] c ++ ")" := by
  rw [diagnosticCell, if_neg List.not_mem_nil, diagnostic, h.extent_eq_add_one, diagnosticWithin,
    if_neg List.not_mem_nil, if_neg List.not_mem_nil,
    (pictured_content ha hv c).diagnosticWithin_eq (Nat.le_refl _) (Nat.le_succ _)]

end Heap

/-! ### Programs -/

namespace Workspace

variable {w : Workspace}

/-- **No array contains itself, and diagnostics are finite.** In every workspace that a program
leads to, no array is come to from itself through elements, and every value has a picture: it shows
the value, it stops at a cell exactly if the cell occurs inside its own expansion, and its text,
with every array written out element by element, is the diagnostic text. The walk that formats the
value comes to its end with that text at any depth from `Heap.extent` on, and leaves no mark. -/
theorem Reachable.finite_diagnostics (hr : w.Reachable) :
    (∀ t, ¬ Relation.TransGen w.heap.Child t t) ∧
      ∀ v, ∃ p, w.heap.Depicts v p ∧
        (∀ x ∈ p.occurrences [], x.expanded = true ↔ x.cell ∉ x.inside) ∧
        w.heap.diagnostic [] v = p.text w.heap ∧
        ∀ depth, w.heap.extent ≤ depth →
          w.heap.formatMarking [] depth v [] = (p.text w.heap, []) := by
  refine ⟨fun t ht ↦ ?_, fun v ↦ ?_⟩
  · obtain ⟨u, hc, hb⟩ := Relation.TransGen.head'_iff.1 ht
    exact hr.acyclic.not_below hc hb
  · obtain ⟨p, hd, hstop, htext⟩ := Heap.pictured hr.acyclic hr.valid.heap v
    refine ⟨p, hd, hstop, htext _ (Nat.le_refl _), fun depth hle ↦ ?_⟩
    have hm : ∀ c : CellId, Handle.cell c ∈ ([] : Marks) ↔ c ∈ ([] : List CellId) := fun c ↦
      iff_of_false List.not_mem_nil List.not_mem_nil
    rw [Heap.formatMarking_eq depth v hm, htext depth hle]

/-- The cell whose content is an array that leads back to the cell is shown once, and met again
inside. -/
theorem Reachable.finite_diagnostics_circularEnd :
    circularEnd.Reachable ∧ (¬ Relation.TransGen circularEnd.heap.Child ⟨0⟩ ⟨0⟩) ∧
      circularEnd.heap.formatMarking [] circularEnd.heap.extent (.reference ⟨0⟩) [] =
        ("Reference(&Array(\x7b0: Reference(*RECURSION*)\x7d))", []) := by
  obtain ⟨hfree, hp⟩ := reachable_circularEnd.finite_diagnostics
  obtain ⟨p, -, -, htext, hmarks⟩ := hp (.reference ⟨0⟩)
  refine ⟨reachable_circularEnd, hfree ⟨0⟩, ?_⟩
  rw [hmarks _ (Nat.le_refl _), ← htext]
  rfl

end Workspace

end SharedValue
