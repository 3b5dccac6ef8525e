import Mathlib.Data.List.Nodup
import SharedValue.Proofs.Readings

/-!
# Iterating while cells are written to

An iteration borrows the table, not the cells that its slots are bound to. So while it goes on the
cells may be written to at any time, also those of entries that it has passed or has yet to come to.
A run is a row of turns (`Turn`), each a call of the iteration or a write, and every call sees the
cells as they are then.

An iteration comes to every entry once, in the order in which they are stored, and gives what the
entry shows at that moment (`Iterates.yields_eq`). All that is told of a run follows from this:
which keys it gives, when it ends, and how many elements it can give at most.
-/

namespace SharedValue

namespace Table

variable {content : CellId → Value} {rest rest' : List Entry} {shown : Key × Value}

/-! ### One call -/

/-- The entries that an iteration has before it after a call. -/
def left (content : CellId → Value) (rest : List Entry) : List Entry :=
  ((nextShown content rest).map (·.2)).getD []

/-- The entries that a call of an iteration comes to. -/
def passed (content : CellId → Value) (rest : List Entry) : List Entry :=
  rest.take (rest.length - (left content rest).length)

/-- What a call of an iteration gives. -/
def given (content : CellId → Value) (rest : List Entry) : Option (Key × Value) :=
  (nextShown content rest).map (·.1)

/-- What is left of an iteration is the end of what was there. -/
theorem left_suffix (content : CellId → Value) (rest : List Entry) :
    left content rest <:+ rest := by
  induction rest with
  | nil => exact List.suffix_rfl
  | cons e rest ih =>
    rw [left, nextShown]
    split
    · exact List.suffix_cons e rest
    · exact ih.trans (List.suffix_cons e rest)

/-- What was passed and what is left make up the whole. -/
theorem passed_append_left (content : CellId → Value) (rest : List Entry) :
    passed content rest ++ left content rest = rest := by
  obtain ⟨before, hb⟩ := left_suffix content rest
  have hlen : rest.length = before.length + (left content rest).length := by
    rw [← List.length_append, hb]
  have hpassed : passed content rest = before := calc
    passed content rest = rest.take before.length := by rw [passed, hlen, Nat.add_sub_cancel]
    _ = (before ++ left content rest).take before.length := by rw [hb]
    _ = before := List.take_left
  rw [hpassed, hb]

/-- The entries that are shown of two parts are those of each. -/
theorem shownBy_append (content : CellId → Value) (es es' : List Entry) :
    shownBy content (es ++ es') = shownBy content es ++ shownBy content es' :=
  List.filterMap_append

/-- **A call gives what the entries that it comes to show.** -/
theorem shownBy_passed (content : CellId → Value) (rest : List Entry) :
    shownBy content (passed content rest) = (given content rest).toList := by
  have hall := shownBy_eq_nextShown content rest
  have hsplit : shownBy content rest =
      shownBy content (passed content rest) ++ shownBy content (left content rest) := by
    rw [← shownBy_append, passed_append_left]
  rw [hsplit] at hall
  refine List.append_cancel_right (hall.trans ?_)
  rw [given, left]
  cases nextShown content rest with
  | none => rfl
  | some r => rfl

/-- An iteration that has ended has nothing before it any more. -/
theorem left_of_given_eq_none (hg : given content rest = none) : left content rest = [] := by
  rw [given, Option.map_eq_none_iff] at hg
  rw [left, hg]
  rfl

end Table

/-! ### Runs -/

/-- What happens while an iteration goes on. -/
inductive Turn
  /-- The iteration is called. -/
  | next
  /-- A cell is written to. -/
  | write (c : CellId) (v : Value)

/-- One call of an iteration. -/
structure Visit where
  /-- What the cells hold at that moment. -/
  content : CellId → Value
  passed : List Entry
  given : Option (Key × Value)

namespace Heap

variable {h : Heap} {rest entries : List Entry} {turns turns' : List Turn}

/-- The heap after some turns. -/
def afterTurns (h : Heap) : List Turn → Heap
  | [] => h
  | .next :: turns => h.afterTurns turns
  | .write c v :: turns => (h.setCell c v).afterTurns turns

/-- The calls among some turns, for an iteration with given entries before it. -/
def visits (h : Heap) (rest : List Entry) : List Turn → List Visit
  | [] => []
  | .next :: turns =>
    ⟨h.cell, Table.passed h.cell rest, Table.given h.cell rest⟩ ::
      h.visits (Table.left h.cell rest) turns
  | .write c v :: turns => (h.setCell c v).visits rest turns

/-- The entries that an iteration has before it after some turns. -/
def remaining (h : Heap) (rest : List Entry) : List Turn → List Entry
  | [] => rest
  | .next :: turns => h.remaining (Table.left h.cell rest) turns
  | .write c v :: turns => (h.setCell c v).remaining rest turns

/-- What an iteration gives in some turns. -/
def yields (h : Heap) (rest : List Entry) (turns : List Turn) : List (Key × Value) :=
  (h.visits rest turns).filterMap (·.given)

/-- The entries that an iteration comes to in some turns, each with what the cells hold when it is
come to. -/
def reached (h : Heap) (rest : List Entry) (turns : List Turn) :
    List (Entry × (CellId → Value)) :=
  (h.visits rest turns).flatMap fun visit ↦ visit.passed.map (·, visit.content)

/-- The visits of turns in two parts: the second starts where the first has led to. -/
theorem visits_append (h : Heap) (rest : List Entry) (turns turns' : List Turn) :
    h.visits rest (turns ++ turns') =
      h.visits rest turns ++ (h.afterTurns turns).visits (h.remaining rest turns) turns' := by
  induction turns generalizing h rest with
  | nil => rfl
  | cons turn turns ih =>
    cases turn with
    | next => exact congrArg _ (ih h _)
    | write c v => exact ih _ rest

theorem reached_next (h : Heap) (rest : List Entry) (turns : List Turn) :
    h.reached rest (.next :: turns) =
      (Table.passed h.cell rest).map (·, h.cell) ++ h.reached (Table.left h.cell rest) turns :=
  List.flatMap_cons

/-- **An iteration comes to every entry once**, in the order of the entries. -/
theorem reached_append_remaining (h : Heap) (rest : List Entry) (turns : List Turn) :
    (h.reached rest turns).map (·.1) ++ h.remaining rest turns = rest := by
  induction turns generalizing h rest with
  | nil => rfl
  | cons turn turns ih =>
    cases turn with
    | next =>
      rw [reached_next, remaining, List.map_append, List.append_assoc, ih, List.map_map]
      exact (congrArg (· ++ _) (List.map_id _)).trans (Table.passed_append_left h.cell rest)
    | write c v => exact ih _ rest

theorem yields_next (h : Heap) (rest : List Entry) (turns : List Turn) :
    h.yields rest (.next :: turns) =
      (Table.given h.cell rest).toList ++ h.yields (Table.left h.cell rest) turns := by
  rw [yields, visits, List.filterMap_cons]
  cases Table.given h.cell rest <;> rfl

/-- What an entry shows at a moment. -/
def shownAt (p : Entry × (CellId → Value)) : Option (Key × Value) :=
  (p.1.slot.load p.2).map (p.1.key, ·)

/-- **An iteration gives what each entry shows when it is come to.** -/
theorem yields_eq_reached (h : Heap) (rest : List Entry) (turns : List Turn) :
    h.yields rest turns = (h.reached rest turns).filterMap shownAt := by
  induction turns generalizing h rest with
  | nil => rfl
  | cons turn turns ih =>
    cases turn with
    | next =>
      have hfirst : ((Table.passed h.cell rest).map (·, h.cell)).filterMap shownAt =
          (Table.given h.cell rest).toList := by
        rw [← Table.shownBy_passed, List.filterMap_map]
        rfl
      rw [yields_next, ih, reached_next, List.filterMap_append, hfirst]
    | write c v => exact ih _ rest

theorem remaining_nil (h : Heap) (turns : List Turn) : h.remaining [] turns = [] := by
  induction turns generalizing h with
  | nil => rfl
  | cons turn turns ih => cases turn <;> exact ih _

/-- Once a call has given nothing there are no entries left. -/
theorem remaining_of_given_eq_none {visit : Visit} (hm : visit ∈ h.visits rest turns)
    (hg : visit.given = none) : h.remaining rest turns = [] := by
  induction turns generalizing h rest with
  | nil => cases hm
  | cons turn turns ih =>
    cases turn with
    | next =>
      rcases List.mem_cons.1 hm with rfl | hm
      · rw [remaining, Table.left_of_given_eq_none hg, remaining_nil]
      · exact ih hm
    | write c v => exact ih hm

/-- The bound that an iteration gives holds. -/
theorem length_yields_le (h : Heap) (rest : List Entry) (turns : List Turn) :
    (h.yields rest turns).length ≤ rest.length := by
  have hrest := congrArg List.length (h.reached_append_remaining rest turns)
  rw [List.length_append, List.length_map] at hrest
  rw [yields_eq_reached]
  exact Nat.le_trans (List.length_filterMap_le _ _) (by omega)

/-- An iteration that is called more often than it has entries before it comes to an end. -/
theorem exists_given_eq_none (hlen : rest.length < (h.visits rest turns).length) :
    ∃ visit ∈ h.visits rest turns, visit.given = none := by
  refine Decidable.byContradiction fun hnone ↦ ?_
  have hall : ∀ visit ∈ h.visits rest turns, visit.given.isSome := fun visit hm ↦
    Option.isSome_iff_ne_none.2 fun hg ↦ hnone ⟨visit, hm, hg⟩
  have hyields := h.length_yields_le rest turns
  rw [yields, List.length_filterMap_eq_countP, List.countP_eq_length.2 hall] at hyields
  omega

/-! ### Keys -/

/-- The entries that are reached are in the order of the table. -/
theorem keys_reached_sublist (h : Heap) (rest : List Entry) (turns : List Turn) :
    ((h.reached rest turns).map fun p ↦ p.1.key).Sublist (rest.map (·.key)) := by
  have hrest := congrArg (List.map (·.key)) (h.reached_append_remaining rest turns)
  rw [List.map_append, List.map_map] at hrest
  exact hrest ▸ List.sublist_append_left _ _

/-- An entry that shows something shows it under its key. -/
theorem key_of_shownAt {p : Entry × (CellId → Value)} {q : Key × Value} (hs : shownAt p = some q) :
    q.1 = p.1.key ∧ p.1.slot.load p.2 = some q.2 := by
  obtain ⟨v, hl, rfl⟩ := Option.map_eq_some_iff.1 hs
  exact ⟨rfl, hl⟩

/-- The keys that an iteration gives are stored in this order. -/
theorem keys_yields_sublist (h : Heap) (rest : List Entry) (turns : List Turn) :
    ((h.yields rest turns).map (·.1)).Sublist (rest.map (·.key)) := by
  refine .trans ?_ (h.keys_reached_sublist rest turns)
  rw [yields_eq_reached]
  induction h.reached rest turns with
  | nil => exact .refl _
  | cons p ps ih =>
    cases hs : shownAt p with
    | none =>
      rw [List.filterMap_cons_none hs]
      exact ih.cons _
    | some q =>
      rw [List.filterMap_cons_some hs, List.map_cons, List.map_cons, (key_of_shownAt hs).1]
      exact ih.cons_cons _

/-- **A key is given for the entry under it**, if the keys are all different. -/
theorem mem_yields_iff (hnd : (rest.map (·.key)).Nodup) {e : Entry} {content : CellId → Value}
    (hm : (e, content) ∈ h.reached rest turns) {v : Value} :
    (e.key, v) ∈ h.yields rest turns ↔ e.slot.load content = some v := by
  have hinj := List.inj_on_of_nodup_map (hnd.sublist (h.keys_reached_sublist rest turns))
  rw [yields_eq_reached, List.mem_filterMap]
  constructor
  · rintro ⟨p, hp, hs⟩
    obtain ⟨hkey, hload⟩ := key_of_shownAt hs
    obtain rfl := hinj hm hp hkey
    exact hload
  · intro hload
    exact ⟨_, hm, by rw [shownAt, hload]; rfl⟩

/-- An entry that is bound gives its key unless its cell is undefined when it is come to. -/
theorem mem_yields_iff_of_binding (hnd : (rest.map (·.key)).Nodup) {e : Entry}
    {content : CellId → Value} (hm : (e, content) ∈ h.reached rest turns) {c : CellId}
    (hs : e.slot = .binding c) {v : Value} :
    (e.key, v) ∈ h.yields rest turns ↔ content c ≠ .undefined ∧ v = content c := by
  rw [mem_yields_iff hnd hm, hs, Slot.load_binding]
  split
  next hc => simp [hc]
  next hc => simp [hc, eq_comm]

/-! ### Runs of an iteration -/

/-- What an iteration over entries comes to while cells are written to. -/
structure Iterates (h : Heap) (entries : List Entry) (turns : List Turn) : Prop where
  /-- The entries that were come to are the first ones, each once, and the others are left. -/
  reached_eq : (h.reached entries turns).map (·.1) ++ h.remaining entries turns = entries
  /-- Each gives what it shows when it is come to. -/
  yields_eq : h.yields entries turns = (h.reached entries turns).filterMap shownAt
  keys_sublist : ((h.yields entries turns).map (·.1)).Sublist (entries.map (·.key))
  keys_nodup : ((h.yields entries turns).map (·.1)).Nodup
  plain : ∀ {e content v}, (e, content) ∈ h.reached entries turns → e.slot = .value v →
    (e.key, v.shown) ∈ h.yields entries turns
  bound : ∀ {e content c v}, (e, content) ∈ h.reached entries turns → e.slot = .binding c →
    ((e.key, v) ∈ h.yields entries turns ↔ content c ≠ .undefined ∧ v = content c)
  /-- After any of the turns, what is given from there on is within the bound. -/
  within : ∀ {before after}, turns = before ++ after →
    h.yields entries turns = h.yields entries before ++
        (h.afterTurns before).yields (h.remaining entries before) after ∧
      ∃ n, (Table.sizeHint (h.remaining entries before)).2 = some n ∧
        ((h.afterTurns before).yields (h.remaining entries before) after).length ≤ n
  length_le : (h.yields entries turns).length ≤ entries.length
  /-- A call gives nothing at the latest when there were as many calls as entries. -/
  ends : entries.length < (h.visits entries turns).length →
    ∃ visit ∈ h.visits entries turns, visit.given = none
  /-- After that every entry has been come to. -/
  ended : ∀ visit ∈ h.visits entries turns, visit.given = none → h.remaining entries turns = []

/-- All that is said of an iteration holds whatever the turns are. -/
theorem iterates (hnd : (entries.map (·.key)).Nodup) (turns : List Turn) :
    h.Iterates entries turns where
  reached_eq := h.reached_append_remaining entries turns
  yields_eq := h.yields_eq_reached entries turns
  keys_sublist := h.keys_yields_sublist entries turns
  keys_nodup := hnd.sublist (h.keys_yields_sublist entries turns)
  plain := fun hm hs ↦ (mem_yields_iff hnd hm).2 (by rw [hs]; rfl)
  bound := fun hm hs ↦ mem_yields_iff_of_binding hnd hm hs
  within := fun {before after} ht ↦ by
    refine ⟨?_, _, rfl, length_yields_le _ _ after⟩
    rw [ht, yields, visits_append, List.filterMap_append]
    rfl
  length_le := h.length_yields_le entries turns
  ends := exists_given_eq_none
  ended := fun _ ↦ remaining_of_given_eq_none

end Heap

namespace Workspace

variable {w : Workspace}

/-! ### An iteration with the same writes after every call -/

/-- The turns of calls that are each followed by the same writes. -/
def rounds (writes : List (CellId × Value)) : Nat → List Turn
  | 0 => []
  | n + 1 => .next :: (writes.map (fun p ↦ .write p.1 p.2) ++ rounds writes n)

/-- Writes before an iteration are a part of the heap that it starts in. -/
theorem yields_writes (w : Workspace) (rest : List Entry) (writes : List (CellId × Value))
    (turns : List Turn) : w.heap.yields rest (writes.map (fun p ↦ .write p.1 p.2) ++ turns) =
      (w.writeCells writes).heap.yields rest turns := by
  induction writes generalizing w with
  | nil => rfl
  | cons p writes ih => exact ih { w with heap := w.heap.setCell p.1 p.2 }

/-- **Going through entries while a frame writes** is one of these runs. -/
theorem iterateWriting_eq_yields (w : Workspace) (writes : List (CellId × Value))
    (rest : List Entry) {n : Nat} (hn : rest.length < n) :
    (w.iterateWriting writes rest).2 = w.heap.yields rest (rounds writes n) := by
  induction n generalizing w rest with
  | zero => cases hn
  | succ n ih =>
    rw [rounds, Heap.yields_next, yields_writes, iterateWriting]
    split
    next hnone =>
      have hnil := (w.writeCells writes).heap.length_yields_le [] (rounds writes n)
      rw [Table.given, Table.left, hnone]
      exact (List.eq_nil_of_length_eq_zero (Nat.le_zero.1 hnil)).symm
    next shown rest' hsome =>
      have hlt := Table.length_lt_of_nextShown hsome
      have hgiven : Table.given w.heap.cell rest = some shown := by rw [Table.given, hsome]; rfl
      have hleft : Table.left w.heap.cell rest = rest' := by rw [Table.left, hsome]; rfl
      rw [hgiven, hleft]
      exact congrArg (shown :: ·) (ih _ rest' (by omega))

/-- **An iteration goes on whatever is written to cells.** In every workspace that a program leads
to, and for every array and table of variables there, an iteration that is called in turns with
writes to cells comes to every entry once and in order, and gives what the entry shows at that
moment: a slot of its own always shows a value, and a bound one shows the content of its cell unless
that is undefined. It gives no more elements than it has entries before it, at any point. -/
theorem Reachable.iterates_in_turn (hw : w.Reachable) (t : TableId) (turns : List Turn) :
    w.heap.Iterates (w.heap.table t).entries turns :=
  Heap.iterates (hw.valid.heap.table_wellFormed t).keys_nodup turns

/-- Turns that empty a cell ahead of the iteration, fill one that is further ahead, and fill the
first again when the iteration is past it. -/
def revivingTurns : List Turn :=
  [.next, .write ⟨0⟩ .undefined, .write ⟨1⟩ (.int 9), .next, .next, .write ⟨0⟩ (.int 5), .next,
    .next]

/-- The bound entry that was emptied ahead is passed over, the one that was filled ahead is given
with its new value, and nothing is left at the end. -/
theorem Reachable.iterates_in_turn_mixingEnd :
    mixingEnd.Reachable ∧
      mixingEnd.heap.yields (mixingEnd.heap.table ⟨0⟩).entries revivingTurns =
        [(.text [117], .null), (.int 1, .int 7), (.int 3, .int 9)] ∧
      mixingEnd.heap.remaining (mixingEnd.heap.table ⟨0⟩).entries revivingTurns = [] := by
  have hiterates := reachable_mixingEnd.iterates_in_turn ⟨0⟩ revivingTurns
  refine ⟨reachable_mixingEnd, hiterates.yields_eq, ?_⟩
  obtain ⟨visit, hm, hg⟩ := hiterates.ends (by decide)
  exact hiterates.ended visit hm hg

end Workspace

end SharedValue
