import SharedValue.Proofs.Acyclic.Reachable
import SharedValue.Proofs.RoundTrip.Plain
import SharedValue.Proofs.RoundTrip.Writing

/-!
# Round trips through JSON

A value that is encoded, written as a text, read and decoded comes back as its normal form
(`Reachable.json_round_trip`). What is decoded from a text is its own normal form, so it is encoded
again and comes back as it was. This is so for every format, JSON among them, as far as the texts
are read as is assumed (`Format.ReadsBack`, `Format.Presents`): everything else is a matter of how
values are turned into events and back.

An array comes back with the next key that it had, and as a list if it was one, for both are a
matter of the keys (`Heap.Norm.indices_eq`).
-/

namespace SharedValue

namespace Heap

variable {h h' : Heap} {t x : TableId} {v : Value} {S : Tree} {ps : Pairs Tree} {e : Event}
  {F : Format}

/-- A text that is read as an event which stands for a tree is decoded to a value that shows the
tree. -/
theorem Valid.exists_decodes (hv : h.Valid) {text : String} (hread : F.read text = some e)
    (ht : e.tree = .ok S) :
    ∃ h' u, F.Decodes h text h' u ∧ h'.Shows u S ∧ h'.Valid ∧ h'.Admits u := by
  have halike := decode_alike hv e
  have hq := quietly_decode hv e
  have hadmits := fun u ↦ admits_decode (v := u) (e := e) hv
  rw [ht] at halike
  cases hd : h.decode e with
  | mk h' r =>
    rw [hd] at halike hq hadmits
    cases halike with
    | @ok u _ hs => exact ⟨h', u, ⟨e, hread, hd⟩, hs, hq.valid hv, hadmits u rfl⟩

/-- **An array and one that shows its normal form** have the same next key, and both are lists or
none is. -/
theorem Norm.indices_eq (hn : h.Norm (.array t) (.array ps)) (hs : h'.Shows (.array x) (.array ps))
    (hv : h.Valid) (hv' : h'.Valid) (ht : h.Admits (.array t)) (hx : h'.Admits (.array x)) :
    h'.nextIndex x = h.nextIndex t ∧ h'.isList x = h.isList t := by
  have hreads := hs.reads hv' (admits_array_iff.1 hx)
  refine ⟨?_, ?_⟩
  · rw [hreads.nextIndex, hv.nextIndex_eq (admits_array_iff.1 ht), hn.keys_eq]
  · rw [Bool.eq_iff_iff, hreads.isList, isList_iff, ← hn.keys_eq, IsList]

/-- What is decoded from a text shows a plain tree. -/
theorem Valid.exists_shows_of_decodes (hv : h.Valid) {text : String} (htext : F.Presents text)
    (hd : F.Decodes h text h' v) : ∃ S, h'.Shows v S ∧ S.PlainTo F.nestingLimit := by
  obtain ⟨e, hread, hd⟩ := hd
  have halike := decode_alike hv e
  rw [hd] at halike
  generalize ht : e.tree = m at halike
  cases halike with
  | @ok _ S hs => exact ⟨S, hs, (htext e hread).plainTo ht⟩

end Heap

namespace Workspace

variable {w : Workspace}

/-- **Round trips through JSON.** In every workspace that a program leads to, and for every format:

* A value that is encoded, and whose strings and text keys are UTF-8, has a normal form, and the
  text of the value is decoded in any heap to a value that shows the normal form. Wherever there was
  an array, there is one with the same next key, which is a list if the other one was. Assumed is
  that the text is read back as the event that was written, and the event is not to be nested deeper
  than the reader allows.
* A value that was decoded from a text is encoded, as an event that is not nested deeper than the
  reader allows, and its text is decoded in any heap to a value that shows the same. Assumed is that
  the first text is read as an event that texts present, and that the second one is read back.

JSON reads and writes integer keys as decimal texts and doubles that are not finite as null, which
is part of what `Format.ReadsBack` says. -/
theorem Reachable.json_round_trip (hr : w.Reachable) (F : Format) :
    (∀ v e, w.heap.Textual v → w.heap.encode v = .ok e → e.NestedTo F.nestingLimit →
      F.ReadsBack e → ∃ S, w.heap.Norm v S ∧ ∀ h : Heap, h.Valid →
        ∃ h' u, F.Decodes h (F.write e) h' u ∧ h'.Shows u S ∧
          ∀ t x ps, w.heap.Admits (.array t) → h'.Admits (.array x) →
            w.heap.Norm (.array t) (.array ps) → h'.Shows (.array x) (.array ps) →
              h'.nextIndex x = w.heap.nextIndex t ∧ h'.isList x = w.heap.isList t) ∧
      ∀ text h v, F.Presents text → F.Decodes w.heap text h v →
        ∃ S e, h.Shows v S ∧ h.encode v = .ok e ∧ e.NestedTo F.nestingLimit ∧
          (F.ReadsBack e → ∀ h₀ : Heap, h₀.Valid →
            ∃ h' u, F.Decodes h₀ (F.write e) h' u ∧ h'.Shows u S) := by
  have hv := hr.valid.heap
  refine ⟨fun v e htext he hnested hback ↦ ?_, fun text h v htext hd ↦ ?_⟩
  · obtain ⟨S, hS, htree⟩ := Heap.carries_of_encode hv htext he
    obtain ⟨e', hread, htree'⟩ := hback.exists_read hnested htree
    refine ⟨S, hS, fun h hh ↦ ?_⟩
    obtain ⟨h', u, hdecodes, hshows, hv', -⟩ := hh.exists_decodes hread htree'
    exact ⟨h', u, hdecodes, hshows, fun t x ps ht hx hn hs ↦ hn.indices_eq hs hv hv' ht hx⟩
  · obtain ⟨S, hs, hS⟩ := hv.exists_shows_of_decodes htext hd
    obtain ⟨e₀, -, hd⟩ := hd
    have hv' := (Heap.quietly_decode hv e₀).valid hv
    have ha' := hr.acyclic.decode hv e₀
    rw [hd] at hv' ha'
    obtain ⟨e, he⟩ := hs.exists_encode hS ha' hv'
    obtain ⟨S', hS', htree⟩ := Heap.carries_of_encode hv' (hs.textual hS) he
    obtain rfl := hS'.unique (hs.norm hS)
    have hnested := hs.nestedTo hS he
    refine ⟨S', e, hs, he, hnested, fun hback h₀ hv₀ ↦ ?_⟩
    obtain ⟨e', hread, htree'⟩ := hback.exists_read hnested htree
    obtain ⟨h', u, hdecodes, hshows, -, -⟩ := hv₀.exists_decodes hread htree'
    exact ⟨h', u, hdecodes, hshows⟩

/-! ### An object with a reference -/

/-- A program that makes an object with a reference to a NaN under a text and with a text under an
integer. -/
def presentedProgram : List Statement :=
  [⟨.array (.constant (.double ⟨0x7FF8000000000000⟩)), some "n"⟩, ⟨.array (.cell "n"), some "c"⟩,
    ⟨.array (.constant (.string [0x68, 0x69])), some "s"⟩,
    ⟨.collect [(.key (.text [0x78]), "c"), (.key (.int 7), "s")], some "a"⟩,
    ⟨.array (.object [0x50] "a"), some "o"⟩]

/-- Where that program ends. -/
def presentedEnd : Workspace := ((empty.run presentedProgram).map (·.1)).getD empty

/-- An object with an array in it is come to. -/
theorem reachable_presentedEnd : presentedEnd.Reachable := ⟨presentedProgram, _, rfl⟩

/-- The event of the object. -/
def presentedEvent : Event :=
  .map [(.text "x", .double ⟨0x7FF8000000000000⟩), (.int 7, .text "hi")]

/-- The values in the object. -/
def presentedValues : List Value :=
  [.object ⟨0⟩, .reference ⟨0⟩, .double ⟨0x7FF8000000000000⟩, .string ⟨[0x68, 0x69], .own 0⟩]

/-- What the object leads to is listed. -/
theorem mem_presentedValues {u : Value} (hu : presentedEnd.heap.Reaches (.object ⟨0⟩) u) :
    u ∈ presentedValues := by
  have hclosed : ∀ x ∈ presentedValues, ∀ y ∈ presentedEnd.heap.children x, y ∈ presentedValues := by
    decide +kernel
  induction hu with
  | refl => exact List.mem_cons_self
  | tail _ hp ih => exact hclosed _ ih _ hp

/-- All texts there are well formed. -/
theorem textual_presentedEnd : presentedEnd.heap.Textual (.object ⟨0⟩) := by
  have hstrings : ∀ x ∈ presentedValues, ∀ s, x = .string s → s.bytes = [0x68, 0x69] := by
    rintro x hx s rfl
    simp [presentedValues] at hx
    rw [hx]
  have hkeys : ∀ x ∈ presentedValues, ∀ k ∈ presentedEnd.heap.keysIn x, k ∈ [.text [0x78], .int 7] := by
    decide +kernel
  intro u hu
  have hmem := mem_presentedValues hu
  refine ⟨fun s hs ↦ ?_, fun k hk ↦ ?_⟩
  · rw [hstrings u hmem s hs]
    exact Bytes.isText_ofText "hi"
  · rcases List.mem_pair.1 (hkeys u hmem k hk) with rfl | rfl
    · exact Bytes.isText_ofText "x"
    · trivial

/-- And it has an encoding. -/
theorem encode_presentedEnd : presentedEnd.heap.encode (.object ⟨0⟩) = .ok presentedEvent := by
  have hx : Bytes.lossy [0x78] = "x" := Bytes.lossy_of_text? (Bytes.text?_ofText "x")
  have hhi : Bytes.lossy [0x68, 0x69] = "hi" := Bytes.lossy_of_text? (Bytes.text?_ofText "hi")
  rw [presentedEvent, ← hx, ← hhi]
  rfl

/-- The object goes through JSON: it comes back as its normal form, an array, and from there once
more as what it is. -/
theorem Reachable.json_round_trip_presentedEnd :
    presentedEnd.Reachable ∧ ∃ S, presentedEnd.heap.Norm (.object ⟨0⟩) S ∧
      (∃ h u, Json.format.Decodes presentedEnd.heap (Json.write presentedEvent) h u ∧ h.Shows u S) ∧
      ∀ h v, Json.format.Decodes presentedEnd.heap (Json.write presentedEvent) h v →
        ∃ S e h' u, h.Shows v S ∧ h.encode v = .ok e ∧
          Json.format.Decodes presentedEnd.heap (Json.write e) h' u ∧ h'.Shows u S := by
  have hv := reachable_presentedEnd.valid.heap
  have hnested : presentedEvent.NestedTo Json.format.nestingLimit := by
    rintro p (_ | ⟨_, _ | ⟨_, hp⟩⟩)
    · trivial
    · trivial
    · cases hp
  obtain ⟨hvalues, htexts⟩ := reachable_presentedEnd.json_round_trip Json.format
  obtain ⟨S, hS, hdecodes⟩ := hvalues _ _ textual_presentedEnd encode_presentedEnd hnested
    (Heap.readsBack_of_encode encode_presentedEnd)
  obtain ⟨h, u, hd, hs, -⟩ := hdecodes _ hv
  refine ⟨reachable_presentedEnd, S, hS, ⟨h, u, hd, hs⟩, fun h v hd ↦ ?_⟩
  obtain ⟨S, e, hs, he, -, hback⟩ := htexts _ h v (Json.presents _) hd
  obtain ⟨h', u, hd', hs'⟩ := hback (Heap.readsBack_of_encode he) _ hv
  exact ⟨S, e, h', u, hs, he, hd', hs'⟩

end Workspace

end SharedValue
