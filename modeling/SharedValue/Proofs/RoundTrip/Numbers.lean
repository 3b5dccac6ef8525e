import SharedValue.Json.Reader
import SharedValue.Json.Writer
import SharedValue.Proofs.Double.Shortest
import SharedValue.Proofs.RoundTrip.Keys

/-!
# Numbers that are written and read

An integer is read from its decimal text (`Json.readNumber_toDigits`), and a finite double from the
text that the interchange layout gives it (`Json.readNumber_writeMagnitude`). A number ends where
its text ends if what comes next cannot belong to a number (`Json.Stops`).

The layout sets the point anywhere in or around the shortest digits, or an exponent after them, and
the reader takes all digits as one number with an exponent. Where zeros were written before the
point, that is not the shortest decimal but another one that stands for the same number, and it
rounds to the same double.
-/

namespace SharedValue.Json

open Double (Scientific)

variable {cs ds rest : List Char} {n : Nat} {d : Double}

/-- Whether what comes after a number does not belong to it. -/
def Stops (rest : List Char) : Prop :=
  ∀ c cs, rest = c :: cs → c.isDigit = false ∧ c ≠ '.' ∧ c ≠ 'e' ∧ c ≠ 'E'

theorem stops_nil : Stops [] := fun _ _ he ↦ by cases he

theorem stops_cons {c : Char} (hc : c.isDigit = false ∧ c ≠ '.' ∧ c ≠ 'e' ∧ c ≠ 'E') :
    Stops (c :: cs) := by
  rintro _ _ ⟨⟩
  exact hc

/-! ### Digits -/

/-- The digits at the start of a text are all of a run of digits that another character ends. -/
theorem digits_append (hds : ∀ c ∈ ds, c.isDigit = true)
    (hrest : ∀ c cs, rest = c :: cs → c.isDigit = false) : digits (ds ++ rest) = (ds, rest) := by
  rw [digits, List.takeWhile_append_of_pos hds, List.dropWhile_append_of_pos hds]
  cases rest with
  | nil => simp
  | cons c cs => simp [hrest c cs rfl]

/-- The digits at the start are read, and no more. -/
theorem digits_of_stops (hds : ∀ c ∈ ds, c.isDigit = true) (hrest : Stops rest) :
    digits (ds ++ rest) = (ds, rest) :=
  digits_append hds fun c cs he ↦ (hrest c cs he).1

theorem digitsValue_eq (ds : List Char) : digitsValue ds = Nat.ofDigitChars 10 ds 0 := by
  rw [digitsValue, Nat.ofDigitChars_eq_foldl]
  rfl

/-- The digits of a number have its value. -/
theorem digitsValue_toDigits (n : Nat) : digitsValue (Nat.toDigits 10 n) = n := by
  rw [digitsValue_eq, Nat.ofDigitChars_toDigits (by decide) (by decide)]

/-- Zeros after digits. -/
theorem digitsValue_append_zeros (ds : List Char) (k : Nat) :
    digitsValue (ds ++ List.replicate k '0') = digitsValue ds * 10 ^ k := by
  induction k with
  | zero => simp
  | succ k ih =>
    rw [List.replicate_succ', ← List.append_assoc, digitsValue, List.foldl_append, ← digitsValue, ih]
    show 10 * (digitsValue ds * 10 ^ k) + 0 = _
    rw [Nat.pow_succ]
    ring

/-- Zeros before digits. -/
theorem digitsValue_zeros_append (ds : List Char) (k : Nat) :
    digitsValue (List.replicate k '0' ++ ds) = digitsValue ds := by
  have hzero := digitsValue_append_zeros [] k
  rw [List.nil_append] at hzero
  rw [digitsValue, List.foldl_append, ← digitsValue, hzero]
  show List.foldl _ (0 * _) ds = _
  rw [Nat.zero_mul]
  rfl

private theorem isDigit_of_mem_zeros {k : Nat} : ∀ c ∈ List.replicate k '0', c.isDigit = true :=
  fun _ hc ↦ by rw [List.eq_of_mem_replicate hc]; rfl

private theorem isDigit_of_mem_zero : ∀ c ∈ ['0'], c.isDigit = true :=
  List.forall_mem_singleton.2 rfl

/-! ### The parts of a number -/

/-- Whether digits may be the whole part of a number: there are some, and the first is not a zero
unless it is the only one. -/
def IsWhole (ds : List Char) : Prop := ds = ['0'] ∨ ∃ c cs, ds = c :: cs ∧ c ≠ '0'

/-- The digits of a number are a whole part. -/
theorem isWhole_toDigits (n : Nat) : IsWhole (Nat.toDigits 10 n) := by
  rcases Nat.eq_zero_or_pos n with rfl | hn
  · exact .inl rfl
  · exact .inr (Decimal.head_toDigits_ne hn)

/-- And so are they with any digits after them, unless the number is zero. -/
theorem IsWhole.append (hw : IsWhole ds) (hne : ds ≠ ['0']) (cs : List Char) : IsWhole (ds ++ cs) := by
  rcases hw with he | ⟨c, ds, rfl, hc⟩
  · exact absurd he hne
  · exact .inr ⟨c, ds ++ cs, rfl, hc⟩

/-- A whole part is read up to the first character that is no digit. -/
theorem wholePart?_append (hds : ∀ c ∈ ds, c.isDigit = true) (hw : IsWhole ds)
    (hrest : ∀ c cs, rest = c :: cs → c.isDigit = false) :
    wholePart? (ds ++ rest) = some (ds, rest) := by
  rw [wholePart?, digits_append hds hrest]
  rcases hw with rfl | ⟨c, cs, rfl, hc⟩
  · rfl
  · split
    next he => cases he
    next he =>
      obtain ⟨he, -⟩ := Prod.mk.inj he
      exact absurd (List.cons.inj he).1 hc
    · rfl

/-- A fraction is read if there is a point and a digit after it. -/
theorem fractionPart?_point (hds : ∀ c ∈ ds, c.isDigit = true) (hne : ds ≠ [])
    (hrest : ∀ c cs, rest = c :: cs → c.isDigit = false) :
    fractionPart? ('.' :: (ds ++ rest)) = some (ds, rest) := by
  rw [fractionPart?, digits_append hds hrest]
  split
  next he => exact absurd (Prod.mk.inj he).1 hne
  · rfl

/-- Without a point there is none. -/
theorem fractionPart?_of_ne (hrest : ∀ cs, rest ≠ '.' :: cs) : fractionPart? rest = some ([], rest) := by
  rw [fractionPart?.eq_def]
  split
  next cs => exact absurd rfl (hrest cs)
  · rfl

/-- Without the sign of an exponent there is none. -/
theorem exponentPart?_of_stops (hrest : Stops rest) : exponentPart? rest = some (none, rest) := by
  rw [exponentPart?.eq_def]
  dsimp only
  split
  all_goals first
    | rfl
    | exact absurd rfl (hrest _ _ rfl).2.2.1
    | exact absurd rfl (hrest _ _ rfl).2.2.2

/-- An exponent with its sign. -/
theorem exponentPart?_sign (hds : ∀ c ∈ ds, c.isDigit = true) (hne : ds ≠ []) (hrest : Stops rest)
    (negative : Bool) :
    exponentPart? ('e' :: (if negative then '-' else '+') :: (ds ++ rest)) =
      some (some (if negative then -(digitsValue ds : Int) else digitsValue ds), rest) := by
  cases negative <;>
    simp only [exponentPart?, Bool.false_eq_true, if_false, if_true, digits_of_stops hds hrest]

/-- The exponent that the layout writes. -/
theorem exponentPart?_leading (hrest : Stops rest) (leading : Int) :
    exponentPart? ('e' :: ((if leading < 0 then ['-'] else ['+']) ++
      (Nat.toDigits 10 leading.natAbs ++ rest))) = some (some leading, rest) := by
  have hdigits : ∀ c ∈ Nat.toDigits 10 leading.natAbs, c.isDigit = true := fun _ hc ↦
    Nat.isDigit_of_mem_toDigits (by decide) (by decide) hc
  have hsign := exponentPart?_sign hdigits
    (List.ne_nil_of_length_pos Nat.length_toDigits_pos) hrest
  rw [digitsValue_toDigits] at hsign
  split
  next hneg =>
    refine (hsign true).trans ?_
    rw [if_pos rfl]
    congr 3
    omega
  next hpos =>
    refine (hsign false).trans ?_
    rw [if_neg Bool.false_ne_true]
    congr 3
    omega

/-- A number with a point or an exponent is read from its parts. -/
theorem readNumber_of_parts {cs₁ cs₂ whole fraction : List Char} {exponent : Option Int}
    {negative : Bool} (hwhole : wholePart? cs = some (whole, cs₁))
    (hfraction : fractionPart? cs₁ = some (fraction, cs₂))
    (hexponent : exponentPart? cs₂ = some (exponent, rest))
    (hparts : fraction = [] → exponent ≠ none)
    (hd : Double.ofDecimal negative (digitsValue (whole ++ fraction))
      (exponent.getD 0 - fraction.length) = d) (hfinite : d.isFinite = true) :
    readNumber negative cs = some (.double d, rest) := by
  have hpart : ¬ (fraction = [] ∧ exponent = none) := fun ⟨hnil, hnone⟩ ↦ hparts hnil hnone
  simp only [readNumber, hwhole, hfraction, hexponent, Option.bind_eq_bind, Option.bind_some,
    if_neg hpart, hd, finite?, if_pos hfinite]
  rfl

/-! ### Doubles -/

section

variable {e : Int} (hd : d.isFinite = true) (hz : d.isZero = false) (hn : 0 < n)
  (hx : d.Rounds (n * 10 ^ e)) (hrest : Stops rest)

include hn in
private theorem toDigits_ne_zero : Nat.toDigits 10 n ≠ ['0'] := by
  obtain ⟨c, cs, he, hc⟩ := Decimal.head_toDigits_ne hn
  rw [he]
  exact fun h ↦ hc (List.cons.inj h).1

include hd hz hn hx hrest

/-- Digits with zeros after them and a point. -/
private theorem readNumber_zeros (he : 0 ≤ e) :
    readNumber d.negative
      (Nat.toDigits 10 n ++ List.replicate e.toNat '0' ++ ['.', '0'] ++ rest) =
        some (.double d, rest) := by
  have hdigits : ∀ c ∈ Nat.toDigits 10 n ++ List.replicate e.toNat '0', c.isDigit = true :=
    List.forall_mem_append.2
      ⟨fun _ hc ↦ Nat.isDigit_of_mem_toDigits (by decide) (by decide) hc, isDigit_of_mem_zeros⟩
  have hwhole := (isWhole_toDigits n).append (toDigits_ne_zero hn) (List.replicate e.toNat '0')
  have hvalue : digitsValue (Nat.toDigits 10 n ++ List.replicate e.toNat '0' ++ ['0']) =
      n * 10 ^ (e.toNat + 1) := by
    rw [List.append_assoc, ← List.replicate_succ', digitsValue_append_zeros, digitsValue_toDigits]
  have hfraction : fractionPart? ('.' :: (['0'] ++ rest)) = some (['0'], rest) :=
    fractionPart?_point isDigit_of_mem_zero (by decide) fun c cs hc ↦ (hrest c cs hc).1
  rw [List.append_assoc]
  refine readNumber_of_parts
    (wholePart?_append hdigits hwhole fun c cs hc ↦ by rw [← (List.cons.inj hc).1]; rfl) hfraction
    (exponentPart?_of_stops hrest) (fun hnil ↦ by cases hnil) ?_ hd
  rw [hvalue]
  refine Double.ofDecimal_eq hd hz (Nat.mul_pos hn (Nat.pow_pos (by decide))) ?_
  -- the zeros and the place after the point cancel
  have hsame : ((n * 10 ^ (e.toNat + 1) : Nat) : ℚ) * 10 ^ (0 - 1 : Int) = n * 10 ^ e := by
    obtain ⟨k, rfl⟩ := Int.eq_ofNat_of_zero_le he
    push_cast
    rw [Int.toNat_natCast, pow_succ, zpow_natCast]
    norm_num
    ring
  exact hsame ▸ hx

/-- Digits with a point between them or in front of them. -/
private theorem readNumber_point {whole fraction : List Char}
    (hwhole : ∀ c ∈ whole, c.isDigit = true) (hw : IsWhole whole)
    (hfraction : ∀ c ∈ fraction, c.isDigit = true) (hne : fraction ≠ [])
    (hvalue : digitsValue (whole ++ fraction) = n) (hlength : -(fraction.length : Int) = e) :
    readNumber d.negative (whole ++ '.' :: fraction ++ rest) = some (.double d, rest) := by
  rw [List.append_assoc, List.cons_append]
  refine readNumber_of_parts
    (wholePart?_append hwhole hw fun c cs hc ↦ by rw [← (List.cons.inj hc).1]; rfl)
    (fractionPart?_point hfraction hne fun c cs hc ↦ (hrest c cs hc).1)
    (exponentPart?_of_stops hrest) (fun hnil ↦ absurd hnil hne) ?_ hd
  rw [hvalue, Option.getD_none, Int.zero_sub, hlength]
  exact Double.ofDecimal_eq hd hz hn hx

/-- A number that was written with all its places is read back. -/
theorem readNumber_writePositional :
    readNumber d.negative
      (Double.interchange.writePositional (Nat.toDigits 10 n) e ++ rest) =
        some (.double d, rest) := by
  rw [Double.Layout.writePositional]
  split
  next he => exact readNumber_zeros hd hz hn hx hrest he
  next he =>
    have hdigits : ∀ c ∈ Nat.toDigits 10 n, c.isDigit = true := fun _ hc ↦
      Nat.isDigit_of_mem_toDigits (by decide) (by decide) hc
    have hvalue := digitsValue_toDigits n
    obtain ⟨c, cs, hhead, hc⟩ := Decimal.head_toDigits_ne hn
    dsimp only
    generalize Nat.toDigits 10 n = ds at hdigits hvalue hhead ⊢
    obtain ⟨places, rfl⟩ : ∃ places : Nat, e = -(places : Int) := ⟨(-e).toNat, by omega⟩
    rw [Int.neg_neg, Int.toNat_natCast]
    split
    next hlt =>
      have hlength : (ds.drop (ds.length - places)).length = places := by
        rw [List.length_drop]
        omega
      refine readNumber_point hd hz hn hx hrest (fun c hm ↦ hdigits c (List.mem_of_mem_take hm)) ?_
        (fun c hm ↦ hdigits c (List.mem_of_mem_drop hm)) (fun hnil ↦ ?_) ?_ (by rw [hlength])
      · obtain ⟨k, hk⟩ : ∃ k, ds.length - places = k + 1 := ⟨ds.length - places - 1, by omega⟩
        rw [hk, hhead]
        exact .inr ⟨c, cs.take k, rfl, hc⟩
      · rw [hnil, List.length_nil] at hlength
        omega
      · rw [List.take_append_drop, hvalue]
    next hle =>
      show readNumber d.negative
        (['0'] ++ '.' :: (List.replicate (places - ds.length) '0' ++ ds) ++ rest) = _
      refine readNumber_point hd hz hn hx hrest isDigit_of_mem_zero (.inl rfl)
        (List.forall_mem_append.2 ⟨isDigit_of_mem_zeros, hdigits⟩) (fun hnil ↦ ?_) ?_ ?_
      · rw [hhead, List.append_eq_nil_iff] at hnil
        cases hnil.2
      · rw [← List.append_assoc]
        exact (digitsValue_zeros_append ds (places - ds.length + 1)).trans hvalue
      · rw [List.length_append, List.length_replicate]
        omega

/-- A number that was written with an exponent is read back. -/
theorem readNumber_writeExponential :
    readNumber d.negative
      (Double.interchange.writeExponential (Nat.toDigits 10 n)
        (e + ((Nat.toDigits 10 n).length : Int) - 1) ++ rest) = some (.double d, rest) := by
  have hdigits : ∀ c ∈ Nat.toDigits 10 n, c.isDigit = true := fun _ hc ↦
    Nat.isDigit_of_mem_toDigits (by decide) (by decide) hc
  have hvalue := digitsValue_toDigits n
  obtain ⟨c, cs, hhead, hc⟩ := Decimal.head_toDigits_ne hn
  generalize Nat.toDigits 10 n = ds at hdigits hvalue hhead ⊢
  subst hhead
  obtain ⟨hcdigit, hcs⟩ := List.forall_mem_cons.1 hdigits
  have hw : IsWhole [c] := .inr ⟨c, [], rfl, hc⟩
  have hwhole : ∀ x ∈ [c], x.isDigit = true := List.forall_mem_singleton.2 hcdigit
  have hdouble := Double.ofDecimal_eq hd hz hn hx
  have hexponent := exponentPart?_leading hrest (e + ((c :: cs).length : Int) - 1)
  have hsign : Double.interchange.plusSign = true := rfl
  simp only [Double.Layout.writeExponential, hsign, if_true, List.append_assoc, List.cons_append]
  -- what follows the mantissa
  generalize htail : 'e' :: _ = tail at hexponent ⊢
  have hstop : ∀ x xs, tail = x :: xs → x.isDigit = false ∧ x ≠ '.' := by
    rintro x xs rfl
    rw [← (List.cons.inj htail).1]
    decide
  cases cs with
  | nil =>
    refine readNumber_of_parts (wholePart?_append hwhole hw fun x xs hx ↦ (hstop x xs hx).1)
      (fractionPart?_of_ne fun xs hx ↦ (hstop _ xs hx).2 rfl) hexponent
      (fun _ he ↦ by cases he) ?_ hd
    have hzero : e + ([c].length : Int) - 1 - (([] : List Char).length : Int) = e := by
      show e + 1 - 1 - 0 = e
      omega
    rw [List.append_nil, hvalue, Option.getD_some, hzero, hdouble]
  | cons c' cs =>
    have hpoint : ∀ x xs, '.' :: (c' :: cs ++ tail) = x :: xs → x.isDigit = false := by
      rintro _ _ ⟨⟩
      rfl
    show readNumber d.negative ([c] ++ ('.' :: (c' :: cs ++ tail))) = _
    refine readNumber_of_parts (wholePart?_append hwhole hw hpoint)
      (fractionPart?_point hcs (List.cons_ne_nil _ _) fun x xs hx ↦ (hstop x xs hx).1) hexponent
      (fun hnil ↦ by cases hnil) ?_ hd
    have hzero : e + ((c :: c' :: cs).length : Int) - 1 - ((c' :: cs).length : Int) = e := by
      rw [List.length_cons]
      omega
    rw [List.singleton_append, hvalue, Option.getD_some, hzero, hdouble]

end

/-- **A finite double** is read from the text that the layout gives its magnitude. -/
theorem readNumber_writeMagnitude (hd : d.isFinite = true) (hrest : Stops rest) :
    readNumber d.negative (Double.interchange.writeMagnitude d ++ rest) =
      some (.double d, rest) := by
  rw [Double.Layout.writeMagnitude]
  split
  next hz =>
    have hwhole : wholePart? (['0'] ++ '.' :: (['0'] ++ rest)) = some (['0'], '.' :: (['0'] ++ rest)) :=
      wholePart?_append isDigit_of_mem_zero (.inl rfl) (by rintro _ _ ⟨⟩; rfl)
    have hfraction : fractionPart? ('.' :: (['0'] ++ rest)) = some (['0'], rest) :=
      fractionPart?_point isDigit_of_mem_zero (by decide) fun c cs hc ↦ (hrest c cs hc).1
    refine readNumber_of_parts hwhole hfraction (exponentPart?_of_stops hrest) ?_ ?_ hd
    · exact fun hnil ↦ by cases hnil
    · rw [Double.isZero, Bool.and_eq_true, decide_eq_true_iff, decide_eq_true_iff] at hz
      have hmagnitude : d.magnitude = 0 := by rw [Double.magnitude, hz.1, hz.2, Nat.zero_mul]
      have hsame := d.ofMagnitude_magnitude
      rw [hmagnitude] at hsame
      exact hsame
  next hz =>
    rw [Bool.not_eq_true] at hz
    obtain ⟨hn, hx⟩ := Double.shortest_rounds hd hz Double.interchange.tie
    dsimp only
    split
    · exact readNumber_writePositional hd hz hn hx hrest
    · exact readNumber_writeExponential hd hz hn hx hrest

/-! ### Integers -/

/-- **An integer** is read from its decimal text. -/
theorem readNumber_toDigits (hrest : Stops rest) (negative : Bool) (n : Nat) :
    readNumber negative (Nat.toDigits 10 n ++ rest) =
      (integer? negative n).map fun e ↦ (e, rest) := by
  have hdigits : ∀ c ∈ Nat.toDigits 10 n, c.isDigit = true := fun _ hc ↦
    Nat.isDigit_of_mem_toDigits (by decide) (by decide) hc
  have hwhole := wholePart?_append hdigits (isWhole_toDigits n)
    fun c cs hc ↦ (hrest c cs hc).1
  have hfraction := fractionPart?_of_ne fun cs hc ↦ (hrest _ cs hc).2.1 rfl
  simp only [readNumber, hwhole, hfraction, exponentPart?_of_stops hrest, Option.bind_eq_bind,
    Option.bind_some, and_self, if_true, digitsValue_toDigits]
  rw [Option.map_eq_bind]
  rfl

end SharedValue.Json
