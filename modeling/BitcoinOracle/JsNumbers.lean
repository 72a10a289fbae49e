import BitcoinOracle.JsStrings
import Mathlib.Algebra.Order.Field.Rat
import Mathlib.Algebra.Order.Ring.Rat
import Mathlib.Tactic.Ring

/-! # Decimal numbers and their texts

A number is taken for an exact decimal, a mantissa and a power of ten.  Without zeros at
the end of the mantissa there is one way to write it (`value_injective`), so equal numbers
are equal structures.

`number` reads one from its text, and `toText` shows it as JavaScript does: without an
exponent between a millionth and `10 ^ 21`, with one elsewhere.
-/
namespace BitcoinOracle

/-! ## Decimals -/

/-- `mantissa * 10 ^ exponent`. -/
structure Decimal where
  mantissa : Nat
  exponent : Int
  /-- The last digit is not a zero, and zero has one form. -/
  normal : mantissa % 10 ≠ 0 ∨ mantissa = 0 ∧ exponent = 0
  deriving DecidableEq

namespace Decimal

def zero : Decimal := ⟨0, 0, Or.inr ⟨rfl, rfl⟩⟩

def value (a : Decimal) : ℚ := a.mantissa * 10 ^ a.exponent

/-- Takes the zeros off the end, with as much fuel as the mantissa is large. -/
def strip : Nat → Nat → Int → Nat × Int
  | 0, m, e => (m, e)
  | fuel + 1, m, e => if m % 10 = 0 then strip fuel (m / 10) (e + 1) else (m, e)

theorem strip_normal (fuel m : Nat) (e : Int) (hpos : 0 < m) (hfuel : m ≤ fuel) :
    (strip fuel m e).1 % 10 ≠ 0 := by
  induction fuel generalizing m e with
  | zero => omega
  | succ fuel ih =>
      rw [strip]
      split
      · exact ih (m / 10) (e + 1) (by omega) (by omega)
      · next h => exact h

theorem strip_value (fuel m : Nat) (e : Int) :
    ((strip fuel m e).1 : ℚ) * 10 ^ (strip fuel m e).2 = m * 10 ^ e := by
  induction fuel generalizing m e with
  | zero => rfl
  | succ fuel ih =>
      rw [strip]
      split
      · next h =>
          have hm : m = 10 * (m / 10) := by omega
          have hcast : (m : ℚ) = 10 * (m / 10 : Nat) := by exact_mod_cast hm
          rw [ih, hcast, zpow_add_one₀ (by decide)]
          ring
      · rfl

/-- `m * 10 ^ e`. -/
def normalize (m : Nat) (e : Int) : Decimal :=
  if h : m = 0 then zero
  else ⟨(strip m m e).1, (strip m m e).2,
    Or.inl (strip_normal m m e (Nat.pos_of_ne_zero h) (Nat.le_refl m))⟩

theorem value_normalize (m : Nat) (e : Int) : (normalize m e).value = m * 10 ^ e := by
  unfold normalize
  split
  · next h => simp [h, zero, value]
  · exact strip_value m m e

/-- A mantissa without zeros at its end leaves no choice for the exponent. -/
theorem eq_of_value_eq_of_le {a b : Decimal} (h : a.value = b.value)
    (hle : a.exponent ≤ b.exponent) : a = b := by
  obtain ⟨n, hn⟩ := Int.le.dest hle
  have hpos : (10 : ℚ) ^ a.exponent ≠ 0 := zpow_ne_zero _ (by decide)
  have hcast : (a.mantissa : ℚ) = b.mantissa * 10 ^ n := by
    rw [value, value, ← hn, zpow_add₀ (by decide), zpow_natCast] at h
    refine mul_right_cancel₀ hpos ?_
    rw [h]
    ring
  have hmantissa : a.mantissa = b.mantissa * 10 ^ n := by exact_mod_cast hcast
  cases n with
  | zero =>
      have hexponent : a.exponent = b.exponent := by omega
      cases a
      cases b
      simp_all
  | succ n =>
      -- a last digit of `a` would be a zero
      have hmod : a.mantissa % 10 = 0 := by
        rw [hmantissa, Nat.pow_succ, ← Nat.mul_assoc, Nat.mul_mod_left]
      obtain ⟨hzero, hexponent⟩ := a.normal.resolve_left fun hne => hne hmod
      have hb : b.mantissa = 0 := by
        rw [hzero] at hmantissa
        simpa using hmantissa
      obtain ⟨-, hbexponent⟩ := b.normal.resolve_left fun hne => hne (by rw [hb])
      omega

/-- **Equal numbers are equal structures.** -/
theorem value_injective : Function.Injective value := by
  intro a b h
  rcases Int.le_total a.exponent b.exponent with hle | hle
  · exact eq_of_value_eq_of_le h hle
  · exact (eq_of_value_eq_of_le h.symm hle).symm

/-! ## Texts -/

/-- `Number::toString`. -/
def toText (a : Decimal) : Text :=
  let digits := Nat.toDigits 10 a.mantissa
  let k : Int := digits.length
  let n := k + a.exponent
  if a.mantissa = 0 then ['0']
  else if k ≤ n ∧ n ≤ 21 then digits ++ List.replicate (n - k).toNat '0'
  else if 0 < n ∧ n ≤ 21 then digits.take n.toNat ++ '.' :: digits.drop n.toNat
  else if -6 < n ∧ n ≤ 0 then '0' :: '.' :: (List.replicate (-n).toNat '0' ++ digits)
  else
    let sign := if n - 1 < 0 then '-' else '+'
    let point := if digits.length = 1 then [] else '.' :: digits.drop 1
    digits.take 1 ++ point ++ 'e' :: sign :: Nat.toDigits 10 (n - 1).natAbs

/-- The exponent behind the digits, none being zero. -/
def readExponent : Text → Option Int
  | [] => some 0
  | c :: text =>
      if c = 'e' ∨ c = 'E' then
        match text with
        | '-' :: digits => (digitsIn 10 digits).map fun n => -(n : Int)
        | '+' :: digits => (digitsIn 10 digits).map Int.ofNat
        | digits => (digitsIn 10 digits).map Int.ofNat
      else none

/-- Digits with a point in them, before them or behind them, and an exponent. -/
def readUnsigned (text : Text) : Option Decimal :=
  let whole := text.takeWhile Char.isDigit
  let rest := text.dropWhile Char.isDigit
  let fraction := match rest with
    | '.' :: rest => rest.takeWhile Char.isDigit
    | _ => []
  let rest := match rest with
    | '.' :: rest => rest.dropWhile Char.isDigit
    | _ => rest
  if whole ++ fraction = [] then none
  else (readExponent rest).map fun e =>
    normalize (Nat.ofDigitChars 10 (whole ++ fraction) 0) (e - fraction.length)

/-- `Number(text)`, of a number in base ten that is not negative. -/
def number (text : Text) : Option Decimal :=
  match trim text with
  | [] => some zero
  | '+' :: text => readUnsigned text
  | text => readUnsigned text

example : (["0.08", " 0.120", "5", "1e3", "0.0000001", ".5"].map fun s =>
      (number s.toList).map toText) =
    ["0.08", "0.12", "5", "1000", "1e-7", "0.5"].map fun s => some s.toList := by
  decide +kernel

end Decimal
end BitcoinOracle
