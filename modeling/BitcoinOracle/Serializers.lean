import BitcoinOracle.BufferFolds
import BitcoinOracle.ConsensusBuff

/-! # The serializers of `utils`

`utils` writes values in their consensus encoding with nothing but `element-at` and
`index-of`: a byte is looked up in the list of all bytes, and a character in a list that
is to have it at its own code.

Numbers, buffers and truth values come out right.  The list of characters fills the
places of the control characters with slashes, and finds a slash in the first of them
(`serializers_iff`).
-/
namespace Clarity

/-- A printable character. -/
def Printable (c : Char) : Prop := 32 ≤ c.toNat ∧ c.toNat ≤ 126

/-- What a `string-ascii` admits: printable characters, and the white space among the
others. -/
def IsAscii (c : Char) : Prop := Printable c ∨ c ∈ ['\t', '\n', '\x0c', '\r']

instance : DecidablePred Printable := fun _ => inferInstanceAs (Decidable (_ ∧ _))

instance : DecidablePred IsAscii := fun _ => inferInstanceAs (Decidable (_ ∨ _))

/-- `(string-ascii n)`. -/
structure StringAscii (n : Nat) where
  chars : List Char
  length_le : chars.length ≤ n
  ascii : ∀ c ∈ chars, IsAscii c

def asciiCode (c : Char) : UInt8 := UInt8.ofNat c.toNat

/-- A `bool`: its type byte. -/
def serializeBool (value : Bool) : Bytes := [if value then 0x03 else 0x04]

/-- A `string-ascii`: type byte `0x0d`, its length, its characters. -/
def serializeStringAscii {n : Nat} (s : StringAscii n) : Bytes :=
  0x0d :: (bytesBe 4 s.chars.length ++ s.chars.map asciiCode)

/-- `(index-of xs x)`. -/
def indexOf {α : Type} [DecidableEq α] (xs : List α) (x : α) : Option Nat := xs.idxOf? x

end Clarity

namespace BitcoinOracle
namespace Serializers

open Clarity
open Clarity.Result (unwrapPanic)

/-! ## The contract -/

def byteList : Bytes := (List.range 256).map UInt8.ofNat

def asciiList : List Char :=
  List.replicate 32 '/' ++
    (" !\"#$%&\x27()*+,-./0123456789:;<=>?@ABCDEFGHIJKLMNOPQRSTUVWXYZ[\\]^_\x60" ++
      "abcdefghijklmnopqrstuvwxyz\x7b|\x7d~").toList ++
    List.replicate 129 '/'

/-- `(unwrap-panic (element-at byte-list i))`. -/
def byteAt (i : Nat) : Result Bytes := do
  let byte ← unwrapPanic (elementAt byteList i)
  pure [byte]

def uint128ToBuffBe (n : Nat) : Result Bytes := do
  let b₁₅ ← byteAt (n / 1329227995784915872903807060280344576 % 256)
  let b₁₄ ← byteAt (n / 5192296858534827628530496329220096 % 256)
  let b₁₃ ← byteAt (n / 20282409603651670423947251286016 % 256)
  let b₁₂ ← byteAt (n / 79228162514264337593543950336 % 256)
  let b₁₁ ← byteAt (n / 309485009821345068724781056 % 256)
  let b₁₀ ← byteAt (n / 1208925819614629174706176 % 256)
  let b₉ ← byteAt (n / 4722366482869645213696 % 256)
  let b₈ ← byteAt (n / 18446744073709551616 % 256)
  let b₇ ← byteAt (n / 72057594037927936 % 256)
  let b₆ ← byteAt (n / 281474976710656 % 256)
  let b₅ ← byteAt (n / 1099511627776 % 256)
  let b₄ ← byteAt (n / 4294967296 % 256)
  let b₃ ← byteAt (n / 16777216 % 256)
  let b₂ ← byteAt (n / 65536 % 256)
  let b₁ ← byteAt (n / 256 % 256)
  let b₀ ← byteAt (n % 256)
  pure (b₁₅ ++ (b₁₄ ++ (b₁₃ ++ (b₁₂ ++ (b₁₁ ++ (b₁₀ ++ (b₉ ++ (b₈ ++ (b₇ ++ (b₆ ++ (b₅ ++
    (b₄ ++ (b₃ ++ (b₂ ++ (b₁ ++ b₀)))))))))))))))

def uint32ToBuffBe (n : Nat) : Result Bytes := do
  let b₃ ← byteAt (n / 16777216 % 256)
  let b₂ ← byteAt (n / 65536 % 256)
  let b₁ ← byteAt (n / 256 % 256)
  let b₀ ← byteAt (n % 256)
  pure (b₃ ++ (b₂ ++ (b₁ ++ b₀)))

def stringAsciiToByte (c : Char) : Result Bytes := do
  let i ← unwrapPanic (indexOf asciiList c)
  byteAt i

def stringAsciiToBuffIter (c : Char) (a : Bytes) : Result Bytes := do
  let byte ← stringAsciiToByte c
  unwrapPanic (asMaxLen (a ++ byte) 256)

def stringAsciiToBuff (str : StringAscii 256) : Result Bytes :=
  str.chars.foldlM (fun a c => stringAsciiToBuffIter c a) []

def serializeBool (value : Bool) : Result Bytes := pure (if value then [0x03] else [0x04])

def serializeUint (value : Uint) : Result Bytes := do
  let bytes ← uint128ToBuffBe value.val
  pure ([0x01] ++ bytes)

def serializeString (value : StringAscii 256) : Result Bytes := do
  let length ← uint32ToBuffBe value.chars.length
  let bytes ← stringAsciiToBuff value
  pure ([0x0d] ++ (length ++ bytes))

def serializeBuff (value : Buff 256) : Result Bytes := do
  let length ← uint32ToBuffBe value.bytes.length
  pure ([0x02] ++ (length ++ value.bytes))

/-! ## Bytes -/

theorem byteAt_of_lt {i : Nat} (h : i < 256) : byteAt i = .ok [UInt8.ofNat i] := by
  simp [byteAt, elementAt, byteList, h]

@[simp] theorem byteAt_mod (n : Nat) : byteAt (n % 256) = .ok [UInt8.ofNat n] := by
  have hmod : UInt8.ofNat (n % 256) = UInt8.ofNat n := UInt8.toNat_inj.mp (by simp)
  rw [byteAt_of_lt (Nat.mod_lt _ (by decide)), hmod]

theorem uint128ToBuffBe_eq (n : Nat) : uint128ToBuffBe n = .ok (bytesBe 16 n) := by
  simp [uint128ToBuffBe, bytesBe, Nat.shiftRight_eq_div_pow]

theorem uint32ToBuffBe_eq (n : Nat) : uint32ToBuffBe n = .ok (bytesBe 4 n) := by
  simp [uint32ToBuffBe, bytesBe, Nat.shiftRight_eq_div_pow]

/-! ## Characters -/

/-- **One character.**  It comes out as its own code if it is printable and no slash. -/
theorem stringAsciiToByte_iff {c : Char} (h : IsAscii c) :
    stringAsciiToByte c = .ok [asciiCode c] ↔ Printable c ∧ c ≠ '/' := by
  have hall : ∀ n < 127, IsAscii (Char.ofNat n) →
      (stringAsciiToByte (Char.ofNat n) = .ok [asciiCode (Char.ofNat n)] ↔
        Printable (Char.ofNat n) ∧ Char.ofNat n ≠ '/') := by decide +kernel
  have hlt : c.toNat < 127 := by
    rcases h with h | h
    · exact Nat.lt_succ_of_le h.2
    · revert h
      simp only [List.mem_cons, List.not_mem_nil, or_false]
      rintro (rfl | rfl | rfl | rfl) <;> decide
  have hchar := hall c.toNat hlt
  rw [Char.ofNat_toNat] at hchar
  exact hchar h

theorem stringAsciiToByte_eq_ok_iff (c : Char) (b : Bytes) :
    stringAsciiToByte c = .ok b ↔ c ∈ asciiList ∧ b = [UInt8.ofNat (asciiList.idxOf c)] := by
  have hlength : asciiList.length = 256 := by decide +kernel
  by_cases hmem : c ∈ asciiList
  · have hfound : indexOf asciiList c = some (asciiList.idxOf c) := by
      obtain ⟨i, hi⟩ := Option.isSome_iff_exists.mp (List.isSome_idxOf?.mpr hmem)
      rw [indexOf, List.idxOf_eq_getD_idxOf?, hi, Option.getD_some]
    have hlt : asciiList.idxOf c < 256 := hlength ▸ List.idxOf_lt_length_of_mem hmem
    rw [stringAsciiToByte, hfound, Result.unwrapPanic_some, Result.ok_bind, byteAt_of_lt hlt]
    simp [hmem, eq_comm]
  · have hnone : indexOf asciiList c = none := List.idxOf?_eq_none_iff.mpr hmem
    simp [stringAsciiToByte, hnone, hmem]

theorem stringAsciiToBuff_iff (s : StringAscii 256) :
    stringAsciiToBuff s = .ok (s.chars.map asciiCode) ↔
      ∀ c ∈ s.chars, Printable c ∧ c ≠ '/' := by
  have hfold := foldlM_concat stringAsciiToByte_eq_ok_iff s.chars (a := [])
    (b := s.chars.map asciiCode) (Nat.zero_le 256)
  have hcodes : s.chars.map asciiCode =
      [] ++ s.chars.flatMap (fun c => [UInt8.ofNat (asciiList.idxOf c)]) ↔
      ∀ c ∈ s.chars, asciiCode c = UInt8.ofNat (asciiList.idxOf c) := by
    rw [List.nil_append, ← List.map_eq_flatMap, List.map_inj_left]
  have hlength : (s.chars.map asciiCode).length ≤ 256 := by simpa using s.length_le
  have hchar (c : Char) (hc : c ∈ s.chars) :
      c ∈ asciiList ∧ asciiCode c = UInt8.ofNat (asciiList.idxOf c) ↔ Printable c ∧ c ≠ '/' := by
    rw [← stringAsciiToByte_iff (s.ascii c hc), stringAsciiToByte_eq_ok_iff, List.singleton_inj]
  unfold stringAsciiToBuff stringAsciiToBuffIter
  rw [hfold, hcodes, and_iff_left hlength, ← forall₂_and]
  exact forall₂_congr hchar

/-! ## Values -/

theorem serializeUint_eq (n : Uint) : serializeUint n = .ok (Clarity.serializeUint n) := by
  rw [serializeUint, uint128ToBuffBe_eq]
  rfl

theorem serializeBuff_eq (b : Buff 256) : serializeBuff b = .ok (Clarity.serializeBuff b) := by
  rw [serializeBuff, uint32ToBuffBe_eq]
  rfl

theorem serializeBool_eq (value : Bool) :
    serializeBool value = .ok (Clarity.serializeBool value) := by
  cases value <;> rfl

theorem serializeString_iff (s : StringAscii 256) :
    serializeString s = .ok (serializeStringAscii s) ↔ ∀ c ∈ s.chars, Printable c ∧ c ≠ '/' := by
  rw [← stringAsciiToBuff_iff, serializeString, uint32ToBuffBe_eq, Result.ok_bind,
    Result.bind_eq_ok]
  simp [serializeStringAscii]

/-- **The serializers follow the consensus encoding** of every number, every buffer and
every truth value, and of the strings of printable characters without a slash. -/
theorem serializers_iff (n : Uint) (b : Buff 256) (value : Bool) (s : StringAscii 256) :
    serializeUint n = .ok (Clarity.serializeUint n) ∧
      serializeBuff b = .ok (Clarity.serializeBuff b) ∧
      serializeBool value = .ok (Clarity.serializeBool value) ∧
      (serializeString s = .ok (serializeStringAscii s) ↔
        ∀ c ∈ s.chars, Printable c ∧ c ≠ '/') :=
  ⟨serializeUint_eq n, serializeBuff_eq b, serializeBool_eq value, serializeString_iff s⟩

theorem ascii_slash : ∀ c ∈ ['/'], IsAscii c := by
  intro c hc
  rw [List.mem_singleton.mp hc]
  decide

theorem length_slash : ['/'].length ≤ 256 := by decide

def slash : StringAscii 256 := ⟨['/'], length_slash, ascii_slash⟩

/-- A slash comes out as a zero byte. -/
theorem serializeString_slash :
    serializeString slash = .ok [0x0d, 0x00, 0x00, 0x00, 0x01, 0x00] ∧
      serializeStringAscii slash = [0x0d, 0x00, 0x00, 0x00, 0x01, 0x2f] ∧
      serializeString slash ≠ .ok (serializeStringAscii slash) := by
  decide +kernel

end Serializers
end BitcoinOracle
