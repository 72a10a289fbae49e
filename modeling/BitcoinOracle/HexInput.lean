import BitcoinOracle.JsStrings

/-! # Hexadecimal input

`BufferHexSchema` reads the buffers of a request.  A string may stand behind `0x`, `\x`
or `\\x`, which the schema tells from their second or third character, and the rest goes
to a decoder that stops at the first pair that is none of digits, of whose characters it
sees the low bytes.  No string is rejected.

So a string is read exactly if it is one of these prefixes, or none, with an even number
of digits behind it, and only then (`bufferHexSchema_exact_iff`).
-/
namespace BitcoinOracle
open Clarity Indexer

def IsHexUnit (u : UInt16) : Prop := (hexValue (unitChar u)).isSome = true

instance : DecidablePred IsHexUnit := fun _ => inferInstanceAs (Decidable (_ = true))

namespace HexInput

/-! ## The schema -/

/-- A value, as far as the schema looks at it. -/
inductive Input where
  | string (val : JsString)
  | buffer (val : Bytes)
  /-- Anything else, and how a template shows it. -/
  | other (shown : JsString)
  deriving DecidableEq

/-- `Buffer.from(val, 'hex')`, which looks at the low byte of a unit only. -/
def fromHex (val : JsString) : Bytes := bufferFromHex (val.map fun u => unitChar (u % 256))

def bufferHexSchema : Input → Except JsString Bytes
  | .string val =>
      if 2 ≤ val.length ∧ val[1]? = some (unit 'x') then .ok (fromHex (val.drop 2))
      else if 3 ≤ val.length ∧ val[0]? = some (unit '\\') ∧ val[1]? = some (unit '\\') ∧
          val[2]? = some (unit 'x') then .ok (fromHex (val.drop 3))
      else .ok (fromHex val)
  | .buffer val => .ok val
  | .other shown => .error (js "val is not a buffer: ".toList ++ shown)

/-! ## What it is to read -/

/-- What may stand before the digits. -/
def hexPrefixes : List JsString := [[], js ['0', 'x'], js ['\\', 'x'], js ['\\', '\\', 'x']]

/-- An even number of digits, with or without a prefix. -/
def WellFormed (s : JsString) : Prop :=
  ∃ p digits, s = p ++ digits ∧ p ∈ hexPrefixes ∧ (∀ u ∈ digits, IsHexUnit u) ∧
    digits.length % 2 = 0

/-- The digits of the buffer are those of the string, in lower case. -/
def Exact (s : JsString) (b : Bytes) : Prop :=
  ∃ p digits, s = p ++ digits ∧ p ∈ hexPrefixes ∧ js (hex b) = digits.map lower

theorem exists_append_iff {s p : JsString} {P : JsString → Prop} :
    (∃ digits, s = p ++ digits ∧ P digits) ↔ p <+: s ∧ P (s.drop p.length) := by
  constructor
  · rintro ⟨digits, rfl, h⟩
    exact ⟨List.prefix_append p digits, by rwa [List.drop_left]⟩
  · rintro ⟨⟨digits, rfl⟩, h⟩
    exact ⟨digits, rfl, by rwa [List.drop_left] at h⟩

instance (s : JsString) (b : Bytes) : Decidable (Exact s b) :=
  decidable_of_iff (∃ p ∈ hexPrefixes, p <+: s ∧ js (hex b) = (s.drop p.length).map lower) <| by
    refine exists_congr fun p => ?_
    rw [← exists_append_iff (P := fun digits => js (hex b) = digits.map lower)]
    exact ⟨fun ⟨hp, digits, hs, h⟩ => ⟨digits, hs, hp, h⟩,
      fun ⟨digits, hs, hp, h⟩ => ⟨hp, digits, hs, h⟩⟩

/-! ## Digits -/

theorem toNat_lt_of_hexValue {c : Char} (h : (hexValue c).isSome = true) : c.toNat < 103 := by
  have hle : ∀ {d : Char}, c ≤ d → c.toNat ≤ d.toNat := fun h => h
  unfold hexValue at h
  split at h
  · next hc => exact Nat.lt_of_le_of_lt (hle hc.2) (by decide)
  split at h
  · next hc => exact Nat.lt_of_le_of_lt (hle hc.2) (by decide)
  split at h
  · next hc => exact Nat.lt_of_le_of_lt (hle hc.2) (by decide)
  · cases h

theorem IsHexUnit.toNat_lt {u : UInt16} (h : IsHexUnit u) : u.toNat < 103 := by
  by_cases hvalid : u.toNat.isValidChar
  · have hlt := toNat_lt_of_hexValue h
    rwa [unitChar, Char.ofNat, dif_pos hvalid] at hlt
  · -- the character of a surrogate is no digit
    have hzero : unitChar u = '\x00' := by
      rw [unitChar, Char.ofNat, dif_neg hvalid]
      rfl
    rw [IsHexUnit, hzero] at h
    exact absurd h (by decide)

/-- A digit is its own low byte. -/
theorem IsHexUnit.mod_eq {u : UInt16} (h : IsHexUnit u) : u % 256 = u := by
  have hlt := IsHexUnit.toNat_lt h
  rw [← UInt16.toNat_inj, UInt16.toNat_mod]
  exact Nat.mod_eq_of_lt (Nat.lt_trans hlt (by decide))

/-- The digit of the value of a digit is that digit, in lower case. -/
theorem unit_hexDigit {u : UInt16} {x : Nat} (h : hexValue (unitChar u) = some x) :
    x < 16 ∧ unit (hexDigit x) = lower u := by
  have hall : ∀ n < 103, ∀ x ∈ hexValue (unitChar (UInt16.ofNat n)),
      x < 16 ∧ unit (hexDigit x) = lower (UInt16.ofNat n) := by decide +kernel
  have hlt : u.toNat < 103 := IsHexUnit.toNat_lt (by rw [IsHexUnit, h]; rfl)
  have hu := hall u.toNat hlt x
  rw [UInt16.ofNat_toNat] at hu
  exact hu h

theorem isHexUnit_of_lower {u : UInt16} {n : Nat} (hn : n < 16)
    (h : lower u = unit (hexDigit n)) : IsHexUnit u := by
  have hall : ∀ m < 103, (∃ n < 16, lower (UInt16.ofNat m) = unit (hexDigit n)) →
      IsHexUnit (UInt16.ofNat m) := by decide +kernel
  have hdigit : ∀ n < 16, (unit (hexDigit n)).toNat < 103 := by decide +kernel
  have hle : u.toNat ≤ (lower u).toNat := by
    unfold lower
    split
    · next hupper =>
        rw [UInt16.toNat_ofNat_of_lt' (by simp only [UInt16.size]; omega)]
        omega
    · exact Nat.le_refl _
  have hlt : u.toNat < 103 := Nat.lt_of_le_of_lt (h ▸ hle) (hdigit n hn)
  have hu := hall u.toNat hlt
  rw [UInt16.ofNat_toNat] at hu
  exact hu ⟨n, hn, h⟩

/-- **An even number of digits is decoded exactly.** -/
theorem hex_fromHex : ∀ digits : JsString, (∀ u ∈ digits, IsHexUnit u) →
    digits.length % 2 = 0 → js (hex (fromHex digits)) = digits.map lower
  | [], _, _ => rfl
  | [_], _, heven => by simp at heven
  | u :: v :: digits, hhex, heven => by
      obtain ⟨x, hx⟩ := Option.isSome_iff_exists.mp (hhex u (by simp))
      obtain ⟨y, hy⟩ := Option.isSome_iff_exists.mp (hhex v (by simp))
      obtain ⟨hx16, hxu⟩ := unit_hexDigit hx
      obtain ⟨hy16, hyv⟩ := unit_hexDigit hy
      have hrest := hex_fromHex digits (fun w hw => hhex w (by simp [hw]))
        (by simp only [List.length_cons] at heven; omega)
      have hbyte : (UInt8.ofNat (16 * x + y)).toNat = 16 * x + y := by
        rw [UInt8.toNat_ofNat_of_lt' (by simp only [UInt8.size]; omega)]
      have hcons : fromHex (u :: v :: digits) = UInt8.ofNat (16 * x + y) :: fromHex digits := by
        have hu : u % 256 = u := IsHexUnit.mod_eq (hhex u (by simp))
        have hv : v % 256 = v := IsHexUnit.mod_eq (hhex v (by simp))
        simp [fromHex, bufferFromHex, hu, hv, hx, hy]
      have hhigh : (16 * x + y) / 16 = x := by omega
      have hlow : (16 * x + y) % 16 = y := by omega
      rw [hcons, hex_cons, hbyte, hhigh, hlow]
      simp only [js, List.map_cons, hxu, hyv]
      rw [← hrest, js]

/-! ## Well-formed strings -/

/-- No digit is what the schema looks for. -/
theorem not_isHexUnit : ¬ IsHexUnit (unit 'x') ∧ ¬ IsHexUnit (unit '\\') := by decide

/-- Behind a prefix, or without one, the schema decodes the digits. -/
theorem bufferHexSchema_of_digits {p digits : JsString} (hp : p ∈ hexPrefixes)
    (hhex : ∀ u ∈ digits, IsHexUnit u) :
    bufferHexSchema (.string (p ++ digits)) = .ok (fromHex digits) := by
  simp only [hexPrefixes, List.mem_cons, List.not_mem_nil, or_false] at hp
  rcases hp with rfl | rfl | rfl | rfl
  · -- digits alone: neither their second nor their third character is an x
    have hsecond : digits[1]? ≠ some (unit 'x') := fun h =>
      not_isHexUnit.1 (hhex _ (List.mem_of_getElem? h))
    have hthird : digits[2]? ≠ some (unit 'x') := fun h =>
      not_isHexUnit.1 (hhex _ (List.mem_of_getElem? h))
    simp [bufferHexSchema, hsecond, hthird]
  · simp [bufferHexSchema, js]
  · simp [bufferHexSchema, js]
  · have hne : unit '\\' ≠ unit 'x' := by decide
    simp [bufferHexSchema, js, hne]

theorem length_hex (b : Bytes) : (hex b).length = 2 * b.length := by
  induction b with
  | nil => rfl
  | cons x b ih =>
      rw [hex_cons]
      simp only [List.length_cons, ih]
      omega

theorem mem_hex {b : Bytes} {c : Char} (h : c ∈ hex b) : ∃ n < 16, c = hexDigit n := by
  obtain ⟨x, -, hx⟩ := List.mem_flatMap.mp h
  have hlt := x.toNat_lt
  simp only [List.mem_cons, List.not_mem_nil, or_false] at hx
  rcases hx with rfl | rfl
  · exact ⟨x.toNat / 16, by omega, rfl⟩
  · exact ⟨x.toNat % 16, by omega, rfl⟩

/-- What is read exactly is well-formed. -/
theorem Exact.wellFormed {s : JsString} {b : Bytes} (h : Exact s b) : WellFormed s := by
  obtain ⟨p, digits, hs, hp, heq⟩ := h
  refine ⟨p, digits, hs, hp, fun u hu => ?_, ?_⟩
  · have hmem : lower u ∈ js (hex b) := heq ▸ List.mem_map_of_mem hu
    obtain ⟨c, hc, hunit⟩ := List.mem_map.mp hmem
    obtain ⟨n, hn, rfl⟩ := mem_hex hc
    exact isHexUnit_of_lower hn hunit.symm
  · have hlength := congrArg List.length heq
    simp only [js, List.length_map, length_hex] at hlength
    omega

theorem WellFormed.exact {s : JsString} (h : WellFormed s) :
    ∃ b, bufferHexSchema (.string s) = .ok b ∧ Exact s b := by
  obtain ⟨p, digits, rfl, hp, hhex, heven⟩ := h
  exact ⟨fromHex digits, bufferHexSchema_of_digits hp hhex,
    p, digits, rfl, hp, hex_fromHex digits hhex heven⟩

/-- No string is rejected. -/
theorem bufferHexSchema_string (s : JsString) : ∃ b, bufferHexSchema (.string s) = .ok b := by
  unfold bufferHexSchema
  dsimp only
  split
  · exact ⟨_, rfl⟩
  split
  · exact ⟨_, rfl⟩
  · exact ⟨_, rfl⟩

/-- **Hexadecimal input is read exactly, or rejected, only if it is well-formed.** -/
theorem bufferHexSchema_exact_iff (s : JsString) :
    ((∀ b, bufferHexSchema (.string s) = .ok b → Exact s b) ↔ WellFormed s) ∧
      ((¬ WellFormed s → ∃ e, bufferHexSchema (.string s) = .error e) ↔ WellFormed s) := by
  obtain ⟨b, hb⟩ := bufferHexSchema_string s
  constructor
  · constructor
    · exact fun h => (h b hb).wellFormed
    · intro h b' hb'
      obtain ⟨c, hc, hexact⟩ := h.exact
      obtain rfl : c = b' := Except.ok.inj (hc.symm.trans hb')
      exact hexact
  · constructor
    · intro h
      by_contra hno
      obtain ⟨e, he⟩ := h hno
      rw [hb] at he
      cases he
    · exact fun h hno => absurd h hno

/-- A digit too many, something else than a digit, and an x behind something else: what
is cut off is not missed. -/
theorem not_exact_truncated :
    (bufferHexSchema (.string (js "0x123".toList)) = .ok [0x12] ∧
      ¬ Exact (js "0x123".toList) [0x12]) ∧
    (bufferHexSchema (.string (js "12zz".toList)) = .ok [0x12] ∧
      ¬ Exact (js "12zz".toList) [0x12]) ∧
    bufferHexSchema (.string (js "zx12".toList)) = .ok [0x12] ∧
      ¬ Exact (js "zx12".toList) [0x12] := by
  decide +kernel

end HexInput
end BitcoinOracle
