import BitcoinOracle.SubmittedIds

/-! # Strings and numbers of JavaScript

A string is a list of 16-bit units, any list of them being one.  `BigInt` reads a number
from its text: digits, with a sign or in another base, and white space around them; no
text at all is zero, and whatever else there is makes it throw.

A decimal string is digits, and perhaps a point and more digits.
-/
namespace BitcoinOracle

/-! ## Strings -/

abbrev JsString := List UInt16

/-- The unit of a character below `0x10000`. -/
def unit (c : Char) : UInt16 := UInt16.ofNat c.toNat

/-- The string of a text without characters from `0x10000` on. -/
def js (text : Text) : JsString := text.map unit

/-- The character of a unit.  That of a surrogate, which has none, is zero. -/
def unitChar (u : UInt16) : Char := Char.ofNat u.toNat

/-- `toLowerCase`, of ASCII. -/
def lower (u : UInt16) : UInt16 :=
  if 65 ≤ u.toNat ∧ u.toNat ≤ 90 then UInt16.ofNat (u.toNat + 32) else u

/-! ## White space -/

/-- White space and line terminators. -/
def isSpace (c : Char) : Bool :=
  c ∈ ['\t', '\n', '\x0b', '\x0c', '\r', ' ', '\u00a0', '\u1680', '\u2028', '\u2029', '\u202f',
    '\u205f', '\u3000', '\ufeff'] || (0x2000 ≤ c.toNat && c.toNat ≤ 0x200a)

/-- `trim()`. -/
def trim (text : Text) : Text := ((text.dropWhile isSpace).reverse.dropWhile isSpace).reverse

theorem dropWhile_of_head {p : Char → Bool} {text : Text} (h : ∀ c ∈ text, p c = false) :
    text.dropWhile p = text := by
  cases text with
  | nil => rfl
  | cons c text =>
      rw [List.dropWhile_cons_of_neg]
      simp [h c List.mem_cons_self]

theorem trim_of_forall {text : Text} (h : ∀ c ∈ text, isSpace c = false) : trim text = text := by
  have hreverse : ∀ c ∈ text.reverse, isSpace c = false :=
    fun c hc => h c (List.mem_reverse.mp hc)
  rw [trim, dropWhile_of_head h, dropWhile_of_head hreverse, List.reverse_reverse]

theorem isSpace_of_isDigit {c : Char} (h : c.isDigit = true) : isSpace c = false := by
  have hall : ∀ n < 58, (Char.ofNat n).isDigit = true → isSpace (Char.ofNat n) = false := by
    decide
  have hlt : c.toNat < 58 := Nat.lt_succ_of_le (Char.isDigit_iff_toNat.mp h).2
  have hc := hall c.toNat hlt
  rw [Char.ofNat_toNat] at hc
  exact hc h

/-! ## Integers -/

/-- The number of digits in a base, at least one of them. -/
def digitsIn (base : Nat) (text : Text) : Option Nat :=
  if text = [] then none
  else text.foldlM (fun (n : Nat) c =>
    (hexValue c).bind fun v => if v < base then some (base * n + v) else none) 0

/-- `BigInt(text)`, which throws a `SyntaxError` where there is none. -/
def bigInt (text : Text) : Option Int :=
  match trim text with
  | [] => some 0
  | '-' :: text => (digitsIn 10 text).map fun n => -(n : Int)
  | '+' :: text => (digitsIn 10 text).map Int.ofNat
  | '0' :: 'x' :: text => (digitsIn 16 text).map Int.ofNat
  | '0' :: 'X' :: text => (digitsIn 16 text).map Int.ofNat
  | '0' :: 'o' :: text => (digitsIn 8 text).map Int.ofNat
  | '0' :: 'O' :: text => (digitsIn 8 text).map Int.ofNat
  | '0' :: 'b' :: text => (digitsIn 2 text).map Int.ofNat
  | '0' :: 'B' :: text => (digitsIn 2 text).map Int.ofNat
  | text => (digitsIn 10 text).map Int.ofNat

theorem hexValue_of_isDigit {c : Char} (h : c.isDigit = true) :
    hexValue c = some (c.toNat - 48) ∧ c.toNat - 48 < 10 := by
  obtain ⟨hlow, hhigh⟩ := Char.isDigit_iff_toNat.mp h
  have hrange : '0' ≤ c ∧ c ≤ '9' := ⟨hlow, hhigh⟩
  have h9 : c.toNat ≤ 57 := hhigh
  exact ⟨by rw [hexValue, if_pos hrange], by omega⟩

theorem foldlM_of_digits (text : Text) (hdigits : ∀ c ∈ text, c.isDigit = true) (n : Nat) :
    text.foldlM (fun (n : Nat) c =>
      (hexValue c).bind fun v => if v < 10 then some (10 * n + v) else none) n =
      some (Nat.ofDigitChars 10 text n) := by
  induction text generalizing n with
  | nil => simp
  | cons c text ih =>
      obtain ⟨hvalue, hlt⟩ := hexValue_of_isDigit (hdigits c List.mem_cons_self)
      rw [List.foldlM_cons, hvalue, Option.bind_some, if_pos hlt, Nat.ofDigitChars_cons]
      exact ih (fun d hd => hdigits d (List.mem_cons_of_mem c hd)) _

/-- Digits are read as their number, leading zeros or not. -/
theorem bigInt_of_digits {text : Text} (hne : text ≠ [])
    (hdigits : ∀ c ∈ text, c.isDigit = true) :
    bigInt text = some (Nat.ofDigitChars 10 text 0 : Nat) := by
  have htrim : trim text = text :=
    trim_of_forall fun c hc => isSpace_of_isDigit (hdigits c hc)
  have hread : digitsIn 10 text = some (Nat.ofDigitChars 10 text 0) := by
    rw [digitsIn, if_neg hne, foldlM_of_digits text hdigits]
  have hnot {c : Char} (hc : c.isDigit = false) (hmem : c ∈ text) : False := by
    rw [hdigits c hmem] at hc
    cases hc
  unfold bigInt
  rw [htrim]
  -- every other form has a character that is no digit
  split
  · exact absurd rfl hne
  · exact (hnot (by decide) List.mem_cons_self).elim
  · exact (hnot (by decide) List.mem_cons_self).elim
  · exact (hnot (by decide) (List.mem_cons_of_mem _ List.mem_cons_self)).elim
  · exact (hnot (by decide) (List.mem_cons_of_mem _ List.mem_cons_self)).elim
  · exact (hnot (by decide) (List.mem_cons_of_mem _ List.mem_cons_self)).elim
  · exact (hnot (by decide) (List.mem_cons_of_mem _ List.mem_cons_self)).elim
  · exact (hnot (by decide) (List.mem_cons_of_mem _ List.mem_cons_self)).elim
  · exact (hnot (by decide) (List.mem_cons_of_mem _ List.mem_cons_self)).elim
  · rw [hread]
    rfl

/-! ## Decimal strings -/

/-- Digits, and perhaps a point and more digits. -/
structure DecimalString where
  whole : Text
  fraction : Option Text
  whole_ne_nil : whole ≠ []
  digits : ∀ c ∈ whole ++ fraction.getD [], c.isDigit = true

namespace DecimalString
variable (s : DecimalString)

def text : Text := s.whole ++ s.fraction.elim [] ('.' :: ·)

/-- The number of digits behind the point. -/
def places : Nat := (s.fraction.getD []).length

/-- The number without its point. -/
def mantissa : Nat := Nat.ofDigitChars 10 (s.whole ++ s.fraction.getD []) 0

/-- What the string stands for, times `10 ^ d`, if it has no more than `d` places. -/
def scaled (d : Nat) : Nat := s.mantissa * 10 ^ (d - s.places)

theorem point_notMem : '.' ∉ s.whole ++ s.fraction.getD [] := fun h =>
  absurd (s.digits '.' h) (by decide)

end DecimalString
end BitcoinOracle
