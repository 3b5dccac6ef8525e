import Mathlib.Data.List.DropRight
import SharedValue.Proofs.RoundTrip.Numbers
import SharedValue.Proofs.RoundTrip.Reading

/-!
# Texts that are written

The JSON text of an event that a value is encoded as is read as that event again, but for what the
format does not have (`Json.readsBack`): a double that is not finite, and an integer as a key. So
nothing is lost between the writer and the reader, whatever is in the strings of the value and
however large its numbers are (`Heap.readsBack_of_encode`).

Each reader takes the part that the writer wrote and leaves what comes after it. The reader of
values counts its steps, and one step for each character is enough, because every item and every
pair takes at least one.
-/

namespace SharedValue

namespace Json

variable {cs rest : List Char} {fuel depth n : Nat} {e : Event} {items : List Event}
  {pairs : List (Event × Event)}

/-! ### Strings -/

/-- The characters of a string, with its quotation marks. -/
theorem toList_quote (s : String) :
    (quote s).toList = '"' :: (s.toList.flatMap escape ++ ['"']) :=
  String.toList_ofList

/-- A string is shorter than its text. -/
theorem length_add_two_le_quote (s : String) : s.toList.length + 2 ≤ (quote s).toList.length := by
  have hpos : ∀ c, 1 ≤ (escape c).length := fun c ↦ by
    rw [escape.eq_def]
    split
    case h_8 => split <;> exact Nat.le_add_left _ _
    all_goals exact Nat.le_add_left _ _
  have hle : s.toList.length ≤ (s.toList.flatMap escape).length := by
    induction s.toList with
    | nil => exact Nat.le_refl _
    | cons c cs ih =>
      rw [List.flatMap_cons, List.length_append, List.length_cons]
      have := hpos c
      omega
  rw [toList_quote, List.length_cons, List.length_append, List.length_singleton]
  omega

/-- A control character is read from its escape. -/
theorem unicodeEscape?_hexDigit {c : Char} (hc : c.toNat < 0x20) (cs : List Char) :
    unicodeEscape? ('0' :: '0' :: hexDigit (c.toNat / 16) :: hexDigit c.toNat :: cs) =
      some (c, cs) := by
  have hdigits : ∀ n < 0x20, hexValue? '0' = some 0 ∧
      hexValue? (hexDigit (n / 16)) = some (n / 16) ∧ hexValue? (hexDigit n) = some (n % 16) := by
    decide
  obtain ⟨hzero, hhigh, hlow⟩ := hdigits c.toNat hc
  have hword : ((0 * 16 + 0) * 16 + c.toNat / 16) * 16 + c.toNat % 16 = c.toNat := by omega
  simp only [unicodeEscape?, hexWord?, hzero, hhigh, hlow, Option.bind_eq_bind, Option.bind_some,
    Option.pure_def, hword]
  rw [if_neg (by omega), if_neg (by omega), Char.ofNat_toNat]

/-- A character is read from what was written for it. -/
theorem readString_escape (read : List Char) (fuel : Nat) (c : Char) (cs : List Char) :
    readString read (fuel + 1) (escape c ++ cs) = readString (c :: read) fuel cs := by
  rw [escape.eq_def]
  split
  case h_8 hquote hbackslash _ _ _ _ _ =>
    split
    next hc =>
      show readString read (fuel + 1) ('\\' :: 'u' :: _) = _
      rw [readString]
      show (unicodeEscape?
        ('0' :: '0' :: hexDigit (c.toNat / 16) :: hexDigit c.toNat :: cs) >>= _) = _
      rw [unicodeEscape?_hexDigit hc]
      rfl
    next hc =>
      rw [List.singleton_append, readString, if_neg hc]
      · exact hquote
      · exact hbackslash
  all_goals rfl

/-- **A string** is read from its text. -/
theorem readString_flatMap (read : List Char) (hfuel : cs.length < fuel) (rest : List Char) :
    readString read fuel (cs.flatMap escape ++ '"' :: rest) =
      some (String.ofList (read.reverse ++ cs), rest) := by
  induction cs generalizing read fuel with
  | nil =>
    obtain ⟨fuel, rfl⟩ := Nat.exists_eq_add_of_lt hfuel
    rw [List.flatMap_nil, List.nil_append, readString, List.append_nil]
  | cons c cs ih =>
    obtain ⟨fuel, rfl⟩ : ∃ k, fuel = k + 1 := ⟨fuel - 1, by omega⟩
    rw [List.flatMap_cons, List.append_assoc, readString_escape, ih (c :: read)
      (by rw [List.length_cons] at hfuel; omega), List.reverse_cons, List.append_assoc]
    rfl

/-! ### Scalars -/

theorem skipBlanks_of_not_isBlank {c : Char} (hc : isBlank c = false) (cs : List Char) :
    skipBlanks (c :: cs) = c :: cs :=
  List.dropWhile_cons_of_neg (Bool.not_eq_true _ ▸ hc)

/-- Blanks before a value are skipped. -/
theorem readValue_skipBlanks (fuel depth : Nat) (cs : List Char) :
    readValue fuel depth (skipBlanks cs) = readValue fuel depth cs := by
  cases fuel with
  | zero => rfl
  | succ fuel => rw [readValue, readValue, skipBlanks, skipBlanks, List.dropWhile_idempotent]

/-- What is read as a number begins with a digit. -/
theorem exists_isDigit_of_readNumber {negative : Bool} {x : Event × List Char}
    (hx : readNumber negative cs = some x) : ∃ c cs', cs = c :: cs' ∧ c.isDigit = true := by
  obtain ⟨found, hfound, -⟩ := Option.bind_eq_some_iff.1 hx
  cases cs with
  | nil => cases hfound
  | cons c cs =>
    refine ⟨c, cs, rfl, ?_⟩
    by_contra hc
    rw [wholePart?, digits, List.takeWhile_cons_of_neg hc] at hfound
    cases hfound

/-- A number is read as a value. -/
theorem readValue_of_readNumber {negative : Bool} {x : Event × List Char}
    (hx : readNumber negative cs = some x) (fuel depth : Nat) :
    readValue (fuel + 1) depth ((if negative then ['-'] else []) ++ cs) = some x := by
  cases negative with
  | true => exact hx
  | false =>
    obtain ⟨c, cs, rfl, hc⟩ := exists_isDigit_of_readNumber hx
    have hblank : isBlank c = false := by
      rw [← Bool.not_eq_true, isBlank]
      simp only [Bool.or_eq_true, decide_eq_true_iff]
      rintro (((rfl | rfl) | rfl) | rfl) <;> cases hc
    rw [if_neg Bool.false_ne_true, List.nil_append, readValue, skipBlanks_of_not_isBlank hblank]
    split
    all_goals first
      | exact hx
      | rename_i he
        obtain ⟨rfl, -⟩ := List.cons.inj he
        cases hc

/-- The characters of an integer. -/
theorem toList_text (n : Int) : (Decimal.text n).toList =
    (if decide (n < 0) then ['-'] else []) ++ Nat.toDigits 10 n.natAbs := by
  rw [Decimal.text, Decimal.naturalText]
  by_cases hn : n < 0 <;> simp [hn]

/-- An integer of 64 bits is presented as it is. -/
theorem integer?_toInt (n : Int64) :
    integer? (decide (n.toInt < 0)) n.toInt.natAbs = some (.int n) := by
  by_cases hn : n.toInt < 0
  · -- there is no negative zero among the integers
    have habs : -(n.toInt.natAbs : Int) = n.toInt := by omega
    rw [decide_eq_true hn, integer?, if_pos rfl, if_neg (by omega), habs, Decimal.bounded?_toInt]
  · have habs : (n.toInt.natAbs : Int) = n.toInt := by omega
    rw [decide_eq_false hn, integer?, if_neg Bool.false_ne_true, habs, Decimal.bounded?_toInt]

/-- An integer is read back. -/
theorem readValue_int (hrest : Stops rest) (fuel depth : Nat) (n : Int64) :
    readValue (fuel + 1) depth ((write (.int n)).toList ++ rest) = some (.int n, rest) := by
  rw [write, toList_text, List.append_assoc]
  refine readValue_of_readNumber ?_ fuel depth
  rw [readNumber_toDigits hrest, integer?_toInt]
  rfl

/-- A double is read back, as an integer if it is written like one. -/
theorem readValue_double (hrest : Stops rest) (fuel depth : Nat) (d : Double) :
    readValue (fuel + 1) depth ((write (.double d)).toList ++ rest) =
      some ((Event.double d).plain, rest) := by
  rw [write, number, Event.plain]
  cases hd : d.isFinite with
  | false =>
    rw [if_neg Bool.false_ne_true, if_neg Bool.false_ne_true]
    rfl
  | true =>
    have hnan : d.isNaN = false := by
      rw [Double.isFinite, decide_eq_true_iff] at hd
      rw [Double.isNaN, decide_eq_false hd, Bool.false_and]
    have htext : (d.write Double.interchange).toList =
        (if d.negative then ['-'] else []) ++ Double.interchange.writeMagnitude d := by
      rw [Double.write, hnan, hd]
      cases d.negative <;> simp
    rw [if_pos rfl, if_pos rfl, htext, List.append_assoc]
    exact readValue_of_readNumber (readNumber_writeMagnitude hd hrest) fuel depth

/-- A text is read back. -/
theorem readValue_text (fuel depth : Nat) (s : String) (rest : List Char)
    (hfuel : (quote s).toList.length ≤ fuel) :
    readValue fuel depth ((write (.text s)).toList ++ rest) = some (.text s, rest) := by
  have hlength := length_add_two_le_quote s
  obtain ⟨fuel, rfl⟩ : ∃ k, fuel = k + 1 := ⟨fuel - 1, by omega⟩
  rw [write, toList_quote, List.cons_append, List.append_assoc]
  show (readString [] fuel (s.toList.flatMap escape ++ '"' :: rest) >>= _) = _
  rw [readString_flatMap [] (by omega)]
  show some (Event.text (String.ofList s.toList), rest) = _
  rw [String.ofList_toList]

/-! ### Items and pairs -/

/-- Whether an event that is nested so deep is read from its text, wherever a number may end, in at
most as many steps as the text has characters. -/
def ReadFrom (n : Nat) (e : Event) : Prop :=
  ∀ fuel depth rest, depth + n = nestingLimit → (write e).toList.length ≤ fuel → Stops rest →
    readValue fuel depth ((write e).toList ++ rest) = some (e.plain, rest)

/-- What is written is not empty. -/
theorem ReadFrom.length_pos (he : ReadFrom n e) (hn : n ≤ nestingLimit) :
    0 < (write e).toList.length := by
  by_contra hzero
  cases he 0 (nestingLimit - n) [] (by omega) (by omega) stops_nil

/-- One step is enough for what has no parts. -/
theorem readFrom_of_readValue (he : ∀ fuel depth rest, Stops rest →
    readValue (fuel + 1) depth ((write e).toList ++ rest) = some (e.plain, rest)) :
    ReadFrom n e := by
  intro fuel depth rest _ hfuel hrest
  cases fuel with
  | zero =>
    have hread := he 0 0 [] stops_nil
    rw [List.eq_nil_of_length_eq_zero (Nat.le_zero.1 hfuel)] at hread
    cases hread
  | succ fuel => exact he fuel depth rest hrest

/-- The texts of items or pairs after the first one. -/
def later (texts : List String) : List Char := texts.flatMap fun s ↦ ',' :: s.toList

theorem later_cons (s : String) (texts : List String) :
    later (s :: texts) = ',' :: (s.toList ++ later texts) :=
  List.flatMap_cons

theorem toList_intercalate_cons (s : String) (texts : List String) :
    (",".intercalate (s :: texts)).toList = s.toList ++ later texts := by
  rw [String.toList_intercalate, List.map_cons]
  induction texts generalizing s with
  | nil => simp [later]
  | cons s' texts ih =>
    rw [List.map_cons, List.intercalate_cons_cons, ih, later_cons, List.append_assoc]
    rfl

theorem stops_later (texts : List String) (c : Char)
    (hc : c.isDigit = false ∧ c ≠ '.' ∧ c ≠ 'e' ∧ c ≠ 'E') (rest : List Char) :
    Stops (later texts ++ c :: rest) := by
  cases texts with
  | nil => exact stops_cons hc
  | cons s texts => exact stops_cons (by decide)

/-! ### Sequences -/

/-- A value does not begin like the end of a sequence. -/
theorem readValue_bracket (fuel depth : Nat) (cs : List Char) :
    readValue fuel depth (']' :: cs) = none := by
  cases fuel <;> rfl

/-- The first item is read. -/
theorem readItems_first {x : Event × List Char} (hx : readValue fuel depth cs = some x) :
    readItems (fuel + 1) depth true cs =
      (readItems fuel depth false x.2).map fun y ↦ (x.1 :: y.1, y.2) := by
  rw [readItems]
  split
  next he =>
    rw [← readValue_skipBlanks, he, readValue_bracket] at hx
    cases hx
  next =>
    simp only [if_true, Option.bind_eq_bind, Option.bind_some, readValue_skipBlanks, hx]
    cases readItems fuel depth false x.2 <;> rfl

/-- An item after the first one is read. -/
theorem readItems_later {x : Event × List Char} (hx : readValue fuel depth cs = some x) :
    readItems (fuel + 1) depth false (',' :: cs) =
      (readItems fuel depth false x.2).map fun y ↦ (x.1 :: y.1, y.2) := by
  show ((some cs : Option (List Char)) >>= _) = _
  simp only [Option.bind_eq_bind, Option.bind_some, hx]
  cases readItems fuel depth false x.2 <;> rfl

/-- The items of a sequence are read back, by induction on them. -/
theorem readItems_writeItems (hitems : ∀ e ∈ items, ReadFrom n e) (hn : depth + n = nestingLimit)
    (hfuel : (later (writeItems items)).length < fuel) (rest : List Char) :
    readItems fuel depth false (later (writeItems items) ++ ']' :: rest) =
      some (Event.plainItems items, rest) := by
  induction items generalizing fuel with
  | nil =>
    obtain ⟨fuel, rfl⟩ := Nat.exists_eq_add_of_lt hfuel
    rfl
  | cons e items ih =>
    obtain ⟨he, hitems⟩ := List.forall_mem_cons.1 hitems
    obtain ⟨fuel, rfl⟩ : ∃ k, fuel = k + 1 := ⟨fuel - 1, by omega⟩
    rw [writeItems, later_cons] at hfuel ⊢
    rw [List.length_cons, List.length_append] at hfuel
    have hvalue := he fuel depth _ hn (by omega)
      (stops_later (writeItems items) ']' (by decide) rest)
    rw [List.cons_append, List.append_assoc, readItems_later hvalue, ih hitems (by omega)]
    rfl

/-- **A sequence** is read if its items are. -/
theorem readFrom_sequence (hitems : ∀ e ∈ items, ReadFrom n e) :
    ReadFrom (n + 1) (.sequence items) := by
  intro fuel depth rest hn hfuel hrest
  have hdepth : depth < nestingLimit := by omega
  have hread : ∀ fuel cs, readValue (fuel + 1) depth ('[' :: cs) =
      (readItems fuel (depth + 1) true cs).map fun y ↦ (.sequence y.1, y.2) := fun fuel cs ↦ by
    show (if depth < nestingLimit then _ else _) = _
    rw [if_pos hdepth]
    cases readItems fuel (depth + 1) true cs <;> rfl
  rw [Event.plain]
  rw [write, String.toList_append, String.toList_append] at hfuel ⊢
  cases items with
  | nil =>
    obtain ⟨fuel, rfl⟩ : ∃ k, fuel = k + 2 := ⟨fuel - 2, by
      have : 2 ≤ fuel := hfuel
      omega⟩
    exact hread (fuel + 1) _
  | cons e items =>
    rw [writeItems, toList_intercalate_cons] at hfuel ⊢
    obtain ⟨he, hitems⟩ := List.forall_mem_cons.1 hitems
    rw [List.length_append, List.length_append, List.length_append] at hfuel
    have hlength : 1 + ((write e).toList.length + (later (writeItems items)).length) + 1 ≤ fuel :=
      hfuel
    obtain ⟨fuel, rfl⟩ : ∃ k, fuel = k + 2 := ⟨fuel - 2, by omega⟩
    have hpos := he.length_pos (by omega)
    have hvalue := he fuel (depth + 1) _ (by omega) (by omega)
      (stops_later (writeItems items) ']' (by decide) rest)
    rw [List.append_assoc, List.append_assoc, List.append_assoc]
    show readValue (fuel + 2) depth ('[' :: ((write e).toList ++ (later (writeItems items) ++
      ']' :: rest))) = _
    rw [hread, readItems_first hvalue, readItems_writeItems hitems (by omega) (by omega)]
    rfl

/-! ### Maps -/

/-- A key is written as a string, whatever it is. -/
theorem exists_writeKey_event (k : Key) :
    ∃ s, writeKey k.event = quote s ∧ k.event.spelled = .text s := by
  cases k with
  | int n => exact ⟨_, rfl, rfl⟩
  | text b => exact ⟨_, rfl, rfl⟩

/-- A pair is read, be it the first one or a later one. -/
theorem readPairs_pair {s : String} {cs' : List Char} {x : Event × List Char} (first : Bool)
    (hkey : readString [] fuel cs = some (s, ':' :: cs'))
    (hx : readValue fuel depth cs' = some x) :
    readPairs (fuel + 1) depth first ((if first then [] else [',']) ++ '"' :: cs) =
      (readPairs fuel depth false x.2).map fun y ↦ ((.text s, x.1) :: y.1, y.2) := by
  have hcolon : Text.expect? [':'] (skipBlanks (':' :: cs')) = some cs' := rfl
  -- the comma before a later pair is skipped, and then both are read alike
  cases first
  all_goals
    show (readString [] fuel cs >>= _) = _
    simp only [hkey, hcolon, hx, Option.bind_eq_bind, Option.bind_some]
    cases readPairs fuel depth false x.2 <;> rfl

/-- A pair is read from its text. -/
theorem readPairs_writePair {k : Key} (he : ReadFrom n e) (hn : depth + n = nestingLimit)
    (hfuel : (writeKey k.event ++ ":" ++ write e).toList.length ≤ fuel) (first : Bool)
    (hrest : Stops rest) :
    readPairs (fuel + 1) depth first ((if first then [] else [',']) ++
        ((writeKey k.event ++ ":" ++ write e).toList ++ rest)) =
      (readPairs fuel depth false rest).map fun y ↦
        ((k.event.spelled, e.plain) :: y.1, y.2) := by
  obtain ⟨s, hs, hspelled⟩ := exists_writeKey_event k
  have hlength := length_add_two_le_quote s
  rw [hs, String.toList_append, String.toList_append] at hfuel ⊢
  rw [List.length_append, List.length_append] at hfuel
  have hkey : readString [] fuel
      (s.toList.flatMap escape ++ '"' :: ':' :: ((write e).toList ++ rest)) =
        some (s, ':' :: ((write e).toList ++ rest)) := by
    rw [readString_flatMap [] (by omega)]
    exact congrArg (fun s ↦ some (s, _)) String.ofList_toList
  have htext : (quote s).toList ++ ":".toList ++ (write e).toList ++ rest =
      '"' :: (s.toList.flatMap escape ++ '"' :: ':' :: ((write e).toList ++ rest)) := by
    rw [toList_quote]
    simp
  rw [htext, readPairs_pair first hkey (he fuel depth rest hn (by omega) hrest), hspelled]

/-- Whether the keys of a map are those of an array, and what is under them is read. -/
def ReadPairs (n : Nat) (pairs : List (Event × Event)) : Prop :=
  ∀ p ∈ pairs, (∃ k : Key, p.1 = k.event) ∧ ReadFrom n p.2

/-- The pairs of a map are read back one by one. -/
theorem ReadPairs.of_cons {key : Event} (hpairs : ReadPairs n ((key, e) :: pairs)) :
    (∃ k : Key, key = k.event) ∧ ReadFrom n e ∧ ReadPairs n pairs := by
  obtain ⟨⟨hkey, he⟩, hrest⟩ := List.forall_mem_cons.1 hpairs
  exact ⟨hkey, he, hrest⟩

/-- The pairs of a map are read back, by induction on them. -/
theorem readPairs_writePairs (hpairs : ReadPairs n pairs) (hn : depth + n = nestingLimit)
    (hfuel : (later (writePairs pairs)).length < fuel) (rest : List Char) :
    readPairs fuel depth false (later (writePairs pairs) ++ '\x7d' :: rest) =
      some (Event.plainPairs pairs, rest) := by
  induction pairs generalizing fuel with
  | nil =>
    obtain ⟨fuel, rfl⟩ := Nat.exists_eq_add_of_lt hfuel
    rfl
  | cons p pairs ih =>
    obtain ⟨key, e⟩ := p
    obtain ⟨⟨k, rfl⟩, he, hpairs⟩ := hpairs.of_cons
    obtain ⟨fuel, rfl⟩ : ∃ k, fuel = k + 1 := ⟨fuel - 1, by omega⟩
    rw [writePairs, later_cons] at hfuel ⊢
    rw [List.length_cons, List.length_append] at hfuel
    have hlength : (writeKey k.event ++ ":" ++ write e).toList.length ≤ fuel := by omega
    have hpair := readPairs_writePair he hn hlength false
      (stops_later (writePairs pairs) '\x7d' (by decide) rest)
    rw [List.cons_append, List.append_assoc]
    refine hpair.trans ?_
    rw [ih hpairs (by omega)]
    rfl

/-- **A map** is read if its keys are those of an array, and what is under them is read. -/
theorem readFrom_map (hpairs : ReadPairs n pairs) : ReadFrom (n + 1) (.map pairs) := by
  intro fuel depth rest hn hfuel hrest
  have hdepth : depth < nestingLimit := by omega
  have hread : ∀ fuel cs, readValue (fuel + 1) depth ('\x7b' :: cs) =
      (readPairs fuel (depth + 1) true cs).map fun y ↦ (.map y.1, y.2) := fun fuel cs ↦ by
    show (if depth < nestingLimit then _ else _) = _
    rw [if_pos hdepth]
    cases readPairs fuel (depth + 1) true cs <;> rfl
  rw [Event.plain]
  rw [write, String.toList_append, String.toList_append] at hfuel ⊢
  cases pairs with
  | nil =>
    obtain ⟨fuel, rfl⟩ : ∃ k, fuel = k + 2 := ⟨fuel - 2, by
      have : 2 ≤ fuel := hfuel
      omega⟩
    exact hread (fuel + 1) _
  | cons p pairs =>
    obtain ⟨key, e⟩ := p
    obtain ⟨⟨k, rfl⟩, he, hpairs⟩ := hpairs.of_cons
    rw [writePairs, toList_intercalate_cons] at hfuel ⊢
    rw [List.length_append, List.length_append, List.length_append] at hfuel
    have hlength : 1 + ((writeKey k.event ++ ":" ++ write e).toList.length +
        (later (writePairs pairs)).length) + 1 ≤ fuel :=
      hfuel
    obtain ⟨fuel, rfl⟩ : ∃ k, fuel = k + 2 := ⟨fuel - 2, by omega⟩
    have hpos : 0 < (writeKey k.event ++ ":" ++ write e).toList.length := by
      have := he.length_pos (by omega)
      rw [String.toList_append, List.length_append]
      omega
    have hn' : depth + 1 + n = nestingLimit := by omega
    have hpairlength : (writeKey k.event ++ ":" ++ write e).toList.length ≤ fuel := by omega
    have hpair := readPairs_writePair he hn' hpairlength true
      (stops_later (writePairs pairs) '\x7d' (by decide) rest)
    rw [List.append_assoc, List.append_assoc, List.append_assoc]
    show readValue (fuel + 2) depth ('\x7b' :: ((writeKey k.event ++ ":" ++ write e).toList ++
      (later (writePairs pairs) ++ '\x7d' :: rest))) = _
    rw [hread]
    refine (congrArg (Option.map _) hpair).trans ?_
    rw [readPairs_writePairs hpairs (by omega) (by omega)]
    rfl

end Json

/-! ### Events of values -/

/-- Whether an event is one that a value may be encoded as. -/
inductive Event.Encoded : Event → Prop
  | unit : Encoded .unit
  | bool (b : Bool) : Encoded (.bool b)
  | int (n : Int64) : Encoded (.int n)
  | double (d : Double) : Encoded (.double d)
  | text (s : String) : Encoded (.text s)
  | sequence {items : List Event} (hitems : ∀ e ∈ items, Encoded e) : Encoded (.sequence items)
  | map {pairs : List (Event × Event)} (hkeys : ∀ p ∈ pairs, ∃ k : Key, p.1 = k.event)
      (hpairs : ∀ p ∈ pairs, Encoded p.2) : Encoded (.map pairs)

namespace Json

variable {n : Nat} {e : Event}

/-- What is nested at most so deep is read from its text. -/
theorem readFrom_of_encoded (he : e.Encoded) (hn : e.NestedTo n) : ReadFrom n e := by
  induction he generalizing n with
  | unit => exact readFrom_of_readValue fun _ _ _ _ ↦ rfl
  | bool b => exact readFrom_of_readValue fun _ _ _ _ ↦ by cases b <;> rfl
  | int m => exact readFrom_of_readValue fun fuel depth _ hrest ↦ readValue_int hrest fuel depth m
  | double d =>
    exact readFrom_of_readValue fun fuel depth _ hrest ↦ readValue_double hrest fuel depth d
  | text s => exact fun fuel depth rest _ hfuel _ ↦ readValue_text fuel depth s rest hfuel
  | sequence _ ih =>
    cases n with
    | zero => cases hn
    | succ n => exact readFrom_sequence fun e he ↦ ih e he (hn e he)
  | map hkeys _ ih =>
    cases n with
    | zero => cases hn
    | succ n => exact readFrom_map fun p hp ↦ ⟨hkeys p hp, ih p hp (hn p hp)⟩

/-- **What is written is read.** The text of an event that a value may be encoded as is read as that
event, but for a double that is not finite and for integer keys. -/
theorem readsBack (he : e.Encoded) : format.ReadsBack e := by
  intro hn
  refine ⟨e.plain, ?_, rfl⟩
  show read (write e) = some e.plain
  have hread := readFrom_of_encoded he hn (2 * (write e).toList.length + 2) 0 [] (Nat.zero_add _)
    (by omega) stops_nil
  rw [List.append_nil] at hread
  rw [read, hread]
  rfl

end Json

/-! ### What values are encoded as -/

namespace Heap

variable {h : Heap} {t : TableId} {v : Value} {e : Event}

/-- What comes of the elements are encodings. -/
theorem encoded_of_encodeAll {encode : Value → Except EncodeError Event}
    {pairs : List (Key × Value)} {items : List (Key × Event)}
    (hall : encodeAll encode pairs = .ok items)
    (hp : ∀ u ∈ pairs.map (·.2), ∀ e, encode u = .ok e → e.Encoded) : ∀ x ∈ items, x.2.Encoded := by
  have hi := forall₂_of_encodeAll hall
  clear hall
  induction hi with
  | nil => exact fun _ hx ↦ by cases hx
  | cons hx _ ih =>
    obtain ⟨hfirst, hrest⟩ := List.forall_mem_cons.1 hp
    exact List.forall_mem_cons.2 ⟨hfirst _ hx.2, ih hrest⟩

/-- So what comes of an array is one. -/
theorem encoded_of_encodeElements {encode : Value → Except EncodeError Event}
    (he : h.encodeElements t encode = .ok e)
    (hp : ∀ u ∈ h.values t, ∀ e, encode u = .ok e → e.Encoded) : e.Encoded := by
  obtain ⟨items, hall, rfl⟩ := exists_of_encodeElements he
  have hitems := encoded_of_encodeAll hall hp
  rw [assemble]
  split
  · exact .sequence (List.forall_mem_map.2 hitems)
  · exact .map (List.forall_mem_map.2 fun x _ ↦ ⟨x.1, rfl⟩) (List.forall_mem_map.2 hitems)

/-- **What values are encoded as.** -/
theorem encoded_of_encodeWithin {n : Nat} {path : List Handle}
    (he : h.encodeWithin n path v = .ok e) : e.Encoded := by
  induction n using Nat.strongRecOn generalizing v path e with
  | ind n ih =>
    cases v with
    | undefined | null =>
      rw [encodeWithin] at he
      exact Except.ok.inj he ▸ .unit
    | bool b =>
      rw [encodeWithin] at he
      exact Except.ok.inj he ▸ .bool b
    | int m =>
      rw [encodeWithin] at he
      exact Except.ok.inj he ▸ .int m
    | double d =>
      rw [encodeWithin] at he
      exact Except.ok.inj he ▸ .double d
    | string s =>
      rw [encodeWithin] at he
      exact Except.ok.inj he ▸ .text s.text
    | resource r =>
      rw [encodeWithin] at he
      cases he
    | array t =>
      cases n with
      | zero => cases he
      | succ n =>
        rw [encodeWithin] at he
        exact encoded_of_encodeElements he fun _ _ _ ↦ ih n (Nat.lt_succ_self n)
    | object o =>
      cases n with
      | zero => cases he
      | succ n =>
        rw [encodeWithin] at he
        split at he
        · cases he
        · exact encoded_of_encodeElements he fun _ _ _ ↦ ih n (Nat.lt_succ_self n)
    | reference c =>
      cases n with
      | zero => cases he
      | succ n =>
        rw [encodeWithin] at he
        split at he
        · cases he
        · exact ih n (Nat.lt_succ_self n) he

/-- **The text of a value is read back**, so nothing is lost between the writer and the reader. -/
theorem readsBack_of_encode (he : h.encode v = .ok e) : Json.format.ReadsBack e :=
  Json.readsBack (encoded_of_encodeWithin he)

end Heap

end SharedValue
