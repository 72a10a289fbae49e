import BitcoinOracle.JsStrings

/-! # The amounts the validators sign

An order hash has the amount of a transfer and the two balances in it, as integers.  The
validator of Unisat scales what its source says by the decimals of the token.  The one
of Hiro takes the point out of the text, whatever the decimals are.

For a string with at most as many places as decimals the two integers are the same
exactly if it has all of them, or is zero (`hiro_eq_unisat_iff`).
-/
namespace BitcoinOracle
namespace SignedAmounts

/-! ## The validators -/

/-- A value of an answer of the API. -/
inductive ApiValue where
  | string (val : Text)
  /-- Anything else, and how a template shows it. -/
  | other (shown : Text)
  deriving DecidableEq

inductive Thrown where
  | issue (message : Text)
  | syntaxError
  deriving DecidableEq

/-- `val.replace('.', '')` takes out the first point. -/
def hiroAmountBigIntSchema : ApiValue → Except Thrown Int
  | .string val =>
      match bigInt (val.erase '.') with
      | some n => .ok n
      | none => .error .syntaxError
  | .other shown => .error (.issue ("Invalid HiroAmountBigIntSchema: ".toList ++ shown))

/-- The amounts of `generateOrderHash`. -/
structure Signed where
  amt : Int
  fromBal : Int
  toBal : Int
  deriving DecidableEq

/-- A balance that is not there is zero. -/
def hiroBalance : Option ApiValue → Except Thrown Int
  | some overallBalance => hiroAmountBigIntSchema overallBalance
  | none => .ok 0

/-- `submitIndexerTx` of Hiro. -/
def hiroSigned (amount : ApiValue) (fromBalance toBalance : Option ApiValue) :
    Except Thrown Signed := do
  let amt ← hiroAmountBigIntSchema amount
  let fromBal ← hiroBalance fromBalance
  let toBal ← hiroBalance toBalance
  pure ⟨amt, fromBal, toBal⟩

/-- `submitIndexerTx` of Unisat. -/
def unisatSigned (parseUnits : Text → Nat → Int) (decimals : Nat)
    (amount fromBal toBal : Text) : Signed :=
  ⟨parseUnits amount decimals, parseUnits fromBal decimals, parseUnits toBal decimals⟩

/-- `parseUnits` is exact where there are no more places than decimals. -/
def ExactUnits (parseUnits : Text → Nat → Int) : Prop :=
  ∀ (s : DecimalString) (d : Nat), s.places ≤ d → parseUnits s.text d = s.scaled d

/-! ## One string -/

section
variable (s : DecimalString)

/-- Without its point a decimal string is its digits. -/
theorem erase_point : s.text.erase '.' = s.whole ++ s.fraction.getD [] := by
  have hwhole : '.' ∉ s.whole := fun h => s.point_notMem (List.mem_append_left _ h)
  cases hfraction : s.fraction with
  | none => simp [DecimalString.text, hfraction, List.erase_of_not_mem hwhole]
  | some fraction => simp [DecimalString.text, hfraction, List.erase_append_right _ hwhole]

theorem hiroAmount_text : hiroAmountBigIntSchema (.string s.text) = .ok s.mantissa := by
  have hne : s.whole ++ s.fraction.getD [] ≠ [] := by simp [s.whole_ne_nil]
  rw [hiroAmountBigIntSchema, erase_point, bigInt_of_digits hne s.digits]
  rfl

variable {s} {d : Nat}

/-- Scaling by what is missing changes nothing but zero, unless nothing is missing. -/
theorem mantissa_eq_scaled_iff (h : s.places ≤ d) :
    s.mantissa = s.scaled d ↔ s.places = d ∨ s.mantissa = 0 := by
  unfold DecimalString.scaled
  constructor
  · intro heq
    rcases Nat.eq_zero_or_pos s.mantissa with hzero | hpos
    · exact Or.inr hzero
    · have hpow : 10 ^ (d - s.places) = 1 := Nat.eq_of_mul_eq_mul_left hpos (by omega)
      have hnone : d - s.places = 0 := by simpa using hpow
      exact Or.inl (by omega)
  · rintro (heq | hzero)
    · simp [heq]
    · simp [hzero]

end

/-! ## Both validators -/

/-- **Both validators sign the same integers** for an amount and two balances exactly
where each has as many places as the token has decimals, or is zero. -/
theorem hiro_eq_unisat_iff {parseUnits : Text → Nat → Int} (hunits : ExactUnits parseUnits)
    {d : Nat} {amount fromBal toBal : DecimalString} (hamount : amount.places ≤ d)
    (hfrom : fromBal.places ≤ d) (hto : toBal.places ≤ d) :
    ∃ signed, hiroSigned (.string amount.text) (some (.string fromBal.text))
        (some (.string toBal.text)) = .ok signed ∧
      let unisat := unisatSigned parseUnits d amount.text fromBal.text toBal.text
      (signed.amt = unisat.amt ↔ amount.places = d ∨ amount.mantissa = 0) ∧
      (signed.fromBal = unisat.fromBal ↔ fromBal.places = d ∨ fromBal.mantissa = 0) ∧
      (signed.toBal = unisat.toBal ↔ toBal.places = d ∨ toBal.mantissa = 0) := by
  have hiff {s : DecimalString} (hs : s.places ≤ d) :
      (s.mantissa : Int) = parseUnits s.text d ↔ s.places = d ∨ s.mantissa = 0 := by
    rw [hunits s d hs, Int.natCast_inj, mantissa_eq_scaled_iff hs]
  refine ⟨⟨amount.mantissa, fromBal.mantissa, toBal.mantissa⟩, ?_, hiff hamount, hiff hfrom,
    hiff hto⟩
  simp only [hiroSigned, hiroBalance, hiroAmount_text]
  rfl

/-! ## An exact `parseUnits` -/

/-- The number of places of a text. -/
def placesOf (text : Text) : Nat := (text.dropWhile (· ≠ '.')).tail.length

def units (text : Text) (d : Nat) : Int :=
  (Nat.ofDigitChars 10 (text.erase '.') 0 * 10 ^ (d - placesOf text) : Nat)

theorem placesOf_text (s : DecimalString) : placesOf s.text = s.places := by
  have hwhole : ∀ c ∈ s.whole, decide (c ≠ '.') = true := by
    intro c hc
    refine decide_eq_true fun heq => s.point_notMem ?_
    exact List.mem_append_left _ (heq ▸ hc)
  rw [placesOf, DecimalString.text, List.dropWhile_append_of_pos hwhole]
  cases hfraction : s.fraction with
  | none => simp [DecimalString.places, hfraction]
  | some fraction => simp [DecimalString.places, hfraction]

theorem exactUnits_units : ExactUnits units := by
  intro s d _
  rw [units, erase_point, placesOf_text]
  rfl

theorem digits_of_text {whole : Text} {fraction : Option Text}
    (h : (whole ++ fraction.getD []).all Char.isDigit = true) :
    ∀ c ∈ whole ++ fraction.getD [], c.isDigit = true := List.all_eq_true.mp h

/-- `1000.50` -/
def halfPlaces : DecimalString :=
  ⟨['1', '0', '0', '0'], some ['5', '0'], by simp, digits_of_text (by decide)⟩

/-- `0` -/
def zeroUnits : DecimalString := ⟨['0'], none, by simp, digits_of_text (by decide)⟩

theorem hiro_eq_unisat_iff_two : ExactUnits units ∧ ∃ signed,
    hiroSigned (.string halfPlaces.text) (some (.string zeroUnits.text))
        (some (.string halfPlaces.text)) = .ok signed ∧
      let unisat := unisatSigned units 2 halfPlaces.text zeroUnits.text halfPlaces.text
      signed.amt = unisat.amt ∧ signed.fromBal = unisat.fromBal ∧ signed.toBal = unisat.toBal :=
  have hhalf : halfPlaces.places ≤ 2 := by decide
  have hzero : zeroUnits.places ≤ 2 := by decide
  have ⟨signed, hsigned, hamt, hfrom, hto⟩ :=
    hiro_eq_unisat_iff exactUnits_units hhalf hzero hhalf
  ⟨exactUnits_units, signed, hsigned, hamt.mpr (Or.inl rfl), hfrom.mpr (Or.inr rfl),
    hto.mpr (Or.inl rfl)⟩

/-- With three decimals Hiro signs a tenth of what Unisat signs. -/
theorem hiro_ne_unisat :
    hiroSigned (.string "1000.50".toList) (some (.string "1000.50".toList)) none =
        .ok ⟨100050, 100050, 0⟩ ∧
      unisatSigned units 3 "1000.50".toList "1000.50".toList "0".toList =
        ⟨1000500, 1000500, 0⟩ := by
  decide +kernel

end SignedAmounts
end BitcoinOracle
