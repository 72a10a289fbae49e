import BitcoinOracle.JsNumbers

/-! # Numbers in JSON

`JSON.stringify` shows a number as `toString` does, in one of five forms, and what
`JSON.parse` reads in them is the number (`jsonNumber_toText`).

Minus zero, which is shown as zero, is not told from it.
-/
namespace BitcoinOracle

/-- A finite number. -/
structure JsNumber where
  negative : Bool
  magnitude : Decimal
  signed : magnitude.mantissa = 0 → negative = false
  deriving DecidableEq

namespace JsNumber

def ofSign (negative : Bool) (magnitude : Decimal) : JsNumber where
  negative := negative && decide (magnitude.mantissa ≠ 0)
  magnitude := magnitude
  signed := fun h => by simp [h]

def toText (a : JsNumber) : Text :=
  if a.negative = true then '-' :: a.magnitude.toText else a.magnitude.toText

end JsNumber

/-! ## The grammar of JSON -/

/-- Digits without a leading zero, unless it is the only one, and no point without a digit
behind it. -/
def jsonMagnitude (text : Text) : Option Decimal :=
  let whole := text.takeWhile Char.isDigit
  let rest := text.dropWhile Char.isDigit
  if whole = [] ∨ (whole.head? = some '0' ∧ whole.length ≠ 1) then none
  else if rest.head? = some '.' ∧ (rest.drop 1).takeWhile Char.isDigit = [] then none
  else Decimal.readUnsigned text

def jsonNumber : Text → Option JsNumber
  | '-' :: text => (jsonMagnitude text).map (JsNumber.ofSign true)
  | text => (jsonMagnitude text).map (JsNumber.ofSign false)

/-- A character that is part of a number. -/
def IsNumeric (c : Char) : Prop := c.isDigit = true ∨ c ∈ ['.', 'e', '+', '-', 'E']

instance : DecidablePred IsNumeric := fun _ => inferInstanceAs (Decidable (_ ∨ _))

theorem unitChar_unit {c : Char} (h : IsNumeric c) : unitChar (unit c) = c := by
  have hlt : c.toNat < 128 := by
    rcases h with hdigit | hother
    · exact Nat.lt_of_le_of_lt (Char.isDigit_iff_toNat.mp hdigit).2 (by decide)
    · have hall : (['.', 'e', '+', '-', 'E'].all fun c => c.toNat < 128) = true := by decide
      exact of_decide_eq_true (List.all_eq_true.mp hall c hother)
  have hall : ∀ n < 128, unitChar (unit (Char.ofNat n)) = Char.ofNat n := by decide +kernel
  have hc := hall c.toNat hlt
  rwa [Char.ofNat_toNat] at hc

/-- The text of a number is the same in units. -/
theorem map_unitChar_js {text : Text} (h : ∀ c ∈ text, IsNumeric c) :
    (js text).map unitChar = text := by
  rw [js, List.map_map]
  exact (List.map_congr_left fun c hc => unitChar_unit (h c hc)).trans (List.map_id _)

/-- What satisfies a predicate, up to where something does not. -/
theorem takeWhile_append_rest {α : Type} {p : α → Bool} {l rest : List α}
    (hl : ∀ a ∈ l, p a = true) (hrest : ∀ a ∈ rest.head?, p a = false) :
    (l ++ rest).takeWhile p = l ∧ (l ++ rest).dropWhile p = rest := by
  have hnone : rest.takeWhile p = [] ∧ rest.dropWhile p = rest := by
    cases rest with
    | nil => exact ⟨rfl, rfl⟩
    | cons a rest =>
        have ha : p a = false := hrest a rfl
        exact ⟨by rw [List.takeWhile_cons, ha]; rfl, by rw [List.dropWhile_cons, ha]; rfl⟩
  constructor
  · rw [List.takeWhile_append_of_pos hl, hnone.1, List.append_nil]
  · rw [List.dropWhile_append_of_pos hl, hnone.2]

/-! ## Reading parts -/

namespace Decimal

theorem digitsIn_toDigits (n : Nat) : digitsIn 10 (Nat.toDigits 10 n) = some n := by
  have hdigits : ∀ c ∈ Nat.toDigits 10 n, c.isDigit = true :=
    fun _ => Nat.isDigit_of_mem_toDigits (by decide) (by decide)
  rw [digitsIn, if_neg Nat.toDigits_ne_nil, foldlM_of_digits _ hdigits,
    Nat.ofDigitChars_ten_toDigits]

/-- The first digit of a number is no zero. -/
theorem head_toDigits {m : Nat} (hpos : 0 < m) : (Nat.toDigits 10 m).head? ≠ some '0' := by
  have hchar : ∀ d < 10, Nat.digitChar d = '0' → d = 0 := by decide
  induction m using Nat.strongRecOn with
  | ind m ih =>
      rw [Nat.toDigits_eq_if (by decide)]
      split
      · next hlt =>
          intro h
          exact Nat.ne_of_gt hpos (hchar m hlt (Option.some.inj h))
      · next hge =>
          rw [List.head?_append_of_ne_nil _ Nat.toDigits_ne_nil]
          exact ih (m / 10) (by omega) (by omega)

/-- What a number is shown as: a decimal string, and perhaps an exponent. -/
structure Shown (a : Decimal) (s : DecimalString) (e : Int) (tail : Text) : Prop where
  text : a.toText = s.text ++ tail
  exponent : readExponent tail = some e
  numeric : ∀ c ∈ tail, IsNumeric c
  tail : ∀ c ∈ tail.head?, c = 'e'
  value : (s.mantissa : ℚ) * 10 ^ (e - s.places) = a.value
  whole : s.whole.head? = some '0' → s.whole.length = 1
  fraction : s.fraction ≠ some []

theorem Shown.rest {a : Decimal} {s : DecimalString} {e : Int} {tail : Text}
    (h : Shown a s e tail) :
    a.toText.takeWhile Char.isDigit = s.whole ∧
      a.toText.dropWhile Char.isDigit = s.fraction.elim [] ('.' :: ·) ++ tail := by
  have hwhole : ∀ c ∈ s.whole, c.isDigit = true :=
    fun c hc => s.digits c (List.mem_append_left _ hc)
  rw [h.text, DecimalString.text, List.append_assoc]
  refine takeWhile_append_rest hwhole fun c hc => ?_
  cases hfraction : s.fraction with
  | some fraction =>
      rw [hfraction] at hc
      obtain rfl := Option.some.inj hc
      rfl
  | none =>
      rw [hfraction] at hc
      obtain rfl := h.tail c hc
      rfl

theorem Shown.fraction_digits {a : Decimal} {s : DecimalString} {e : Int} {tail fraction : Text}
    (h : Shown a s e tail) (hfraction : s.fraction = some fraction) :
    (fraction ++ tail).takeWhile Char.isDigit = fraction ∧
      (fraction ++ tail).dropWhile Char.isDigit = tail := by
  refine takeWhile_append_rest (fun c hc => s.digits c ?_) fun c hc => ?_
  · rw [hfraction]
    exact List.mem_append_right _ hc
  · rw [h.tail c hc]
    rfl

theorem Shown.readUnsigned {a : Decimal} {s : DecimalString} {e : Int} {tail : Text}
    (h : Shown a s e tail) : readUnsigned a.toText = some a := by
  have hvalue : some a = (readExponent tail).map fun e =>
      normalize (Nat.ofDigitChars 10 (s.whole ++ s.fraction.getD []) 0)
        (e - (s.fraction.getD []).length) := by
    rw [h.exponent, Option.map_some]
    exact congrArg some (value_injective (h.value.symm.trans (value_normalize _ _).symm))
  obtain ⟨hwhole, hrest⟩ := h.rest
  rw [hvalue]
  cases hfraction : s.fraction with
  | none =>
      rw [hfraction] at hrest
      -- the exponent does not start with a point
      have hpoint : ∀ rest, tail ≠ '.' :: rest := by
        rintro rest rfl
        exact absurd (h.tail '.' rfl) (by decide)
      cases tail with
      | nil => simp [Decimal.readUnsigned, hwhole, hrest, s.whole_ne_nil]
      | cons c tail =>
          obtain rfl := h.tail c rfl
          simp [Decimal.readUnsigned, hwhole, hrest, s.whole_ne_nil]
  | some fraction =>
      obtain ⟨hdigits, hdrop⟩ := h.fraction_digits hfraction
      rw [hfraction, Option.elim_some, List.cons_append] at hrest
      simp [Decimal.readUnsigned, hwhole, hrest, hdigits, hdrop, s.whole_ne_nil]

theorem Shown.jsonMagnitude {a : Decimal} {s : DecimalString} {e : Int} {tail : Text}
    (h : Shown a s e tail) : jsonMagnitude a.toText = some a := by
  obtain ⟨hwhole, hrest⟩ := h.rest
  rw [BitcoinOracle.jsonMagnitude, hwhole, hrest, if_neg, if_neg, h.readUnsigned]
  · rintro ⟨hpoint, hnone⟩
    cases hfraction : s.fraction with
    | none =>
        rw [hfraction] at hpoint
        exact absurd (h.tail '.' hpoint) (by decide)
    | some fraction =>
        rw [hfraction, Option.elim_some, List.cons_append, List.drop_succ_cons, List.drop_zero,
          (h.fraction_digits hfraction).1] at hnone
        exact h.fraction (hnone ▸ hfraction)
  · rintro (hnil | ⟨hzero, hlength⟩)
    · exact s.whole_ne_nil hnil
    · exact hlength (h.whole hzero)

/-! ## The five forms -/

section Forms
variable {a : Decimal} {k n : Int}
  (hk : k = (Nat.toDigits 10 a.mantissa).length) (hn : n = k + a.exponent)
  (hpos : a.mantissa ≠ 0)

theorem isDigit_toDigits {m : Nat} : ∀ c ∈ Nat.toDigits 10 m, c.isDigit = true :=
  fun _ => Nat.isDigit_of_mem_toDigits (by decide) (by decide)

/-- All digits of the mantissa are shown, and the exponent places the point. -/
theorem Shown.of_digits {s : DecimalString} {e : Int}
    (hdigits : s.whole ++ s.fraction.getD [] = Nat.toDigits 10 a.mantissa)
    (he : e - (s.fraction.getD []).length = a.exponent) :
    (s.mantissa : ℚ) * 10 ^ (e - s.places) = a.value := by
  rw [DecimalString.mantissa, DecimalString.places, hdigits, he, Nat.ofDigitChars_ten_toDigits]
  rfl

theorem exists_shown_zero (hzero : a.mantissa = 0) : ∃ s e tail, Shown a s e tail := by
  have hdigit : ∀ c ∈ ['0'], c.isDigit = true := by
    intro c hc
    rw [List.mem_singleton.mp hc]
    rfl
  refine ⟨⟨['0'], none, List.cons_ne_nil _ _, hdigit⟩, 0, [],
    ⟨?_, rfl, nofun, nofun, ?_, fun _ => rfl, nofun⟩⟩
  · simp only [toText, if_pos hzero]
    rfl
  · refine Shown.of_digits ?_ ?_
    · rw [hzero]
      rfl
    · exact (a.normal.resolve_left fun h => h (by rw [hzero])).2.symm

include hk hn hpos

theorem exists_shown_whole (hle : k ≤ n) (h21 : n ≤ 21) : ∃ s e tail, Shown a s e tail := by
  obtain ⟨e, he⟩ := Int.le.dest (show 0 ≤ a.exponent by omega)
  have hzeros : (n - k).toNat = e := by omega
  refine ⟨⟨Nat.toDigits 10 a.mantissa ++ List.replicate e '0', none, ?_, ?_⟩, 0, [],
    ⟨?_, rfl, nofun, nofun, ?_, fun h => ?_, nofun⟩⟩
  · simp
  · intro c hc
    simp only [Option.getD_none, List.append_nil, List.mem_append, List.mem_replicate] at hc
    rcases hc with hc | ⟨-, rfl⟩
    · exact isDigit_toDigits c hc
    · rfl
  · simp only [toText, if_neg hpos, ← hk, ← hn, if_pos (And.intro hle h21), hzeros,
      DecimalString.text, Option.elim_none, List.append_nil]
  · have hmantissa : Nat.ofDigitChars 10
        ((Nat.toDigits 10 a.mantissa ++ List.replicate e '0') ++ []) 0 = 10 ^ e * a.mantissa := by
      rw [List.append_nil, Nat.ofDigitChars_append, Nat.ofDigitChars_ten_toDigits,
        Nat.ofDigitChars_replicate_zero]
    have hexponent : a.exponent = e := by omega
    simp only [DecimalString.mantissa, DecimalString.places, Option.getD_none, hmantissa, value,
      hexponent, List.length_nil, Nat.cast_zero, sub_zero, zpow_zero, mul_one, zpow_natCast]
    push_cast
    ring
  · rw [List.head?_append_of_ne_nil _ Nat.toDigits_ne_nil] at h
    exact absurd h (head_toDigits (Nat.pos_of_ne_zero hpos))

theorem exists_shown_point (hlt : n < k) (h0 : 0 < n) (h21 : n ≤ 21) :
    ∃ s e tail, Shown a s e tail := by
  have hne : (Nat.toDigits 10 a.mantissa).take n.toNat ≠ [] := by
    rw [Ne, List.take_eq_nil_iff]
    rintro (h | h)
    · omega
    · exact Nat.toDigits_ne_nil h
  refine ⟨⟨(Nat.toDigits 10 a.mantissa).take n.toNat,
    some ((Nat.toDigits 10 a.mantissa).drop n.toNat), hne, ?_⟩, 0, [],
    ⟨?_, rfl, nofun, nofun, Shown.of_digits (List.take_append_drop _ _) ?_, fun h => ?_,
      fun h => ?_⟩⟩
  · rw [Option.getD_some, List.take_append_drop]
    exact isDigit_toDigits
  · simp only [toText, if_neg hpos, ← hk, ← hn, if_neg (show ¬ (k ≤ n ∧ n ≤ 21) by omega),
      if_pos (And.intro h0 h21), DecimalString.text, Option.elim_some, List.append_nil]
  · rw [Option.getD_some, List.length_drop]
    omega
  · rw [List.head?_take, if_neg (by omega)] at h
    exact absurd h (head_toDigits (Nat.pos_of_ne_zero hpos))
  · have hlength := congrArg List.length (Option.some.inj h)
    rw [List.length_drop, List.length_nil] at hlength
    omega

theorem exists_shown_small (h0 : n ≤ 0) (h6 : -6 < n) : ∃ s e tail, Shown a s e tail := by
  have hlength : 0 < (Nat.toDigits 10 a.mantissa).length := Nat.length_toDigits_pos
  -- the zeros before and behind the point add nothing to the mantissa
  have hzeros : ['0'] ++ (List.replicate (-n).toNat '0' ++ Nat.toDigits 10 a.mantissa) =
      List.replicate ((-n).toNat + 1) '0' ++ Nat.toDigits 10 a.mantissa := by
    rw [List.replicate_succ, List.cons_append]
    rfl
  have hmantissa : Nat.ofDigitChars 10
      (List.replicate ((-n).toNat + 1) '0' ++ Nat.toDigits 10 a.mantissa) 0 = a.mantissa := by
    rw [Nat.ofDigitChars_append, Nat.ofDigitChars_replicate_zero, Nat.mul_zero,
      Nat.ofDigitChars_ten_toDigits]
  refine ⟨⟨['0'], some (List.replicate (-n).toNat '0' ++ Nat.toDigits 10 a.mantissa),
    List.cons_ne_nil _ _, ?_⟩, 0, [], ⟨?_, rfl, nofun, nofun, ?_, fun _ => rfl, fun h => ?_⟩⟩
  · rw [Option.getD_some, hzeros]
    intro c hc
    rcases List.mem_append.mp hc with hc | hc
    · rw [(List.mem_replicate.mp hc).2]
      rfl
    · exact isDigit_toDigits c hc
  · simp only [toText, if_neg hpos, ← hk, ← hn, if_neg (show ¬ (k ≤ n ∧ n ≤ 21) by omega),
      if_neg (show ¬ (0 < n ∧ n ≤ 21) by omega), if_pos (And.intro h6 h0), DecimalString.text,
      Option.elim_some, List.append_nil]
    rfl
  · have hplaces : (0 : Int) -
        (List.replicate (-n).toNat '0' ++ Nat.toDigits 10 a.mantissa).length = a.exponent := by
      rw [List.length_append, List.length_replicate]
      omega
    simp only [DecimalString.mantissa, DecimalString.places, Option.getD_some, hzeros, hmantissa,
      hplaces, value]
  · exact Nat.toDigits_ne_nil (List.append_eq_nil_iff.mp (Option.some.inj h)).2

theorem exists_shown_exponent (hwhole : ¬ (k ≤ n ∧ n ≤ 21)) (hpoint : ¬ (0 < n ∧ n ≤ 21))
    (hsmall : ¬ (-6 < n ∧ n ≤ 0)) : ∃ s e tail, Shown a s e tail := by
  have hread : readExponent ('e' :: (if n - 1 < 0 then '-' else '+') ::
      Nat.toDigits 10 (n - 1).natAbs) = some (n - 1) := by
    split
    · have hneg : -((n - 1).natAbs : Int) = n - 1 := by omega
      simp only [readExponent, digitsIn_toDigits, true_or, if_true]
      exact congrArg some hneg
    · have hnat : ((n - 1).natAbs : Int) = n - 1 := by omega
      simp only [readExponent, digitsIn_toDigits, true_or, if_true]
      exact congrArg some hnat
  have hnumeric : ∀ c ∈ 'e' :: (if n - 1 < 0 then '-' else '+') ::
      Nat.toDigits 10 (n - 1).natAbs, IsNumeric c := by
    intro c hc
    rcases List.mem_cons.mp hc with rfl | hc
    · decide
    rcases List.mem_cons.mp hc with rfl | hc
    · split <;> decide
    · exact Or.inl (isDigit_toDigits c hc)
  have hlength : 0 < (Nat.toDigits 10 a.mantissa).length := Nat.length_toDigits_pos
  obtain ⟨first, rest, hdigits⟩ := List.exists_cons_of_ne_nil
    (List.ne_nil_of_length_pos hlength)
  have hfirst : first ≠ '0' := fun h =>
    head_toDigits (Nat.pos_of_ne_zero hpos) (by rw [hdigits, h]; rfl)
  have hrest : (if rest = [] then none else some rest : Option Text).getD [] = rest := by
    split
    · next h => exact h.symm
    · rfl
  refine ⟨⟨[first], if rest = [] then none else some rest, List.cons_ne_nil _ _, ?_⟩, n - 1, _,
    ⟨?_, hread, hnumeric, fun c hc => (Option.some.inj hc).symm, Shown.of_digits ?_ ?_,
      fun h => ?_, ?_⟩⟩
  · rw [hrest, List.singleton_append, ← hdigits]
    exact isDigit_toDigits
  · simp only [toText, if_neg hpos, ← hk, ← hn, if_neg hwhole, if_neg hpoint, if_neg hsmall,
      DecimalString.text]
    rw [hdigits]
    cases rest with
    | nil => rfl
    | cons c rest => rfl
  · simp only [hrest, hdigits, List.singleton_append]
  · simp only [hrest]
    rw [hdigits, List.length_cons] at hk
    omega
  · exact absurd (Option.some.inj h) hfirst
  · simp only []
    split
    · nofun
    · next h => exact fun heq => h (Option.some.inj heq)

end Forms

theorem exists_shown (a : Decimal) : ∃ s e tail, Shown a s e tail := by
  by_cases hzero : a.mantissa = 0
  · exact exists_shown_zero hzero
  by_cases hwhole : ((Nat.toDigits 10 a.mantissa).length : Int) ≤
      (Nat.toDigits 10 a.mantissa).length + a.exponent ∧
        (Nat.toDigits 10 a.mantissa).length + a.exponent ≤ 21
  · exact exists_shown_whole rfl rfl hzero hwhole.1 hwhole.2
  by_cases hpoint : 0 < (Nat.toDigits 10 a.mantissa).length + a.exponent ∧
      (Nat.toDigits 10 a.mantissa).length + a.exponent ≤ 21
  · exact exists_shown_point rfl rfl hzero (by omega) hpoint.1 hpoint.2
  by_cases hsmall : -6 < (Nat.toDigits 10 a.mantissa).length + a.exponent ∧
      (Nat.toDigits 10 a.mantissa).length + a.exponent ≤ 0
  · exact exists_shown_small rfl rfl hzero hsmall.2 hsmall.1
  · exact exists_shown_exponent rfl rfl hzero hwhole hpoint hsmall

/-- **What is read in the text of a number is the number.** -/
theorem jsonMagnitude_toText (a : Decimal) : jsonMagnitude a.toText = some a := by
  obtain ⟨s, e, tail, h⟩ := exists_shown a
  exact h.jsonMagnitude

/-- The text is of characters of numbers, the first of them a digit. -/
theorem numeric_toText (a : Decimal) : (∀ c ∈ a.toText, IsNumeric c) ∧
    ∃ c rest, a.toText = c :: rest ∧ c.isDigit = true := by
  obtain ⟨s, e, tail, h⟩ := exists_shown a
  rw [h.text, DecimalString.text]
  constructor
  · intro c hc
    rcases List.mem_append.mp hc with hc | hc
    · rcases List.mem_append.mp hc with hc | hc
      · exact Or.inl (s.digits c (List.mem_append_left _ hc))
      · cases hfraction : s.fraction with
        | none =>
            rw [hfraction] at hc
            cases hc
        | some fraction =>
            rw [hfraction, Option.elim_some] at hc
            rcases List.mem_cons.mp hc with rfl | hc
            · decide
            · refine Or.inl (s.digits c (List.mem_append_right _ ?_))
              rw [hfraction]
              exact hc
    · exact h.numeric c hc
  · obtain ⟨c, rest, hwhole⟩ := List.exists_cons_of_ne_nil s.whole_ne_nil
    rw [hwhole, List.append_assoc, List.cons_append]
    exact ⟨c, _, rfl, s.digits c (by rw [hwhole]; exact List.mem_cons_self)⟩

end Decimal

namespace JsNumber

theorem numeric_toText (a : JsNumber) : (∀ c ∈ a.toText, IsNumeric c) ∧
    ∃ c rest, a.toText = c :: rest ∧ (c.isDigit = true ∨ c = '-') := by
  obtain ⟨hnumeric, c, rest, htext, hdigit⟩ := a.magnitude.numeric_toText
  rw [toText]
  split
  · refine ⟨fun c hc => ?_, '-', _, rfl, Or.inr rfl⟩
    rcases List.mem_cons.mp hc with rfl | hc
    · decide
    · exact hnumeric c hc
  · exact ⟨hnumeric, c, rest, htext, Or.inl hdigit⟩

/-- **A number that is shown is read as itself.** -/
theorem jsonNumber_toText (a : JsNumber) : jsonNumber a.toText = some a := by
  obtain ⟨-, c, rest, htext, hdigit⟩ := a.magnitude.numeric_toText
  have hread := a.magnitude.jsonMagnitude_toText
  obtain ⟨negative, magnitude, signed⟩ := a
  cases negative with
  | true =>
      have hzero : magnitude.mantissa ≠ 0 := fun h => nomatch signed h
      simp [jsonNumber, toText, hread, ofSign, hzero]
  | false =>
      have hminus : ∀ text, magnitude.toText ≠ '-' :: text := by
        intro text h
        rw [htext] at h
        rw [(List.cons.inj h).1] at hdigit
        exact absurd hdigit (by decide)
      have hplain : jsonNumber magnitude.toText =
          (jsonMagnitude magnitude.toText).map (ofSign false) := by
        unfold jsonNumber
        split
        · next text h => exact absurd h (hminus text)
        · rfl
      simp [toText, hplain, hread, ofSign]

end JsNumber
end BitcoinOracle
