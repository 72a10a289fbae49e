import BitcoinOracle.ClarityData

/-! # SHA-256

The hash function of FIPS 180-4, on byte lists.  Nothing in the development
depends on how it is computed: every theorem takes the hash function as a
parameter.  It is here so that a run on a concrete Bitcoin transaction, header or
event can be evaluated with the function the chain really uses.

Words are natural numbers below `2 ^ 32`, which the kernel computes with directly.
-/
namespace Sha256
open Clarity (Bytes Primitives bytesBe bytesBe_length)

/-- The low 32 bits. -/
def low32 (x : Nat) : Nat := x.mod 4294967296

/-- A word twice in a row: in its low 32 bits, a shift is a rotation of the word. -/
def twice (x : Nat) : Nat := x.mul 4294967297

def ch (x y z : Nat) : Nat := z.xor (x.land (y.xor z))

def maj (x y z : Nat) : Nat := (x.land y).lor (z.land (x.lor y))

def bigSigma0 (x : Nat) : Nat :=
  (((twice x).shiftRight 2).xor ((twice x).shiftRight 13)).xor ((twice x).shiftRight 22)

def bigSigma1 (x : Nat) : Nat :=
  (((twice x).shiftRight 6).xor ((twice x).shiftRight 11)).xor ((twice x).shiftRight 25)

def smallSigma0 (x : Nat) : Nat :=
  (((twice x).shiftRight 7).xor ((twice x).shiftRight 18)).xor (x.shiftRight 3)

def smallSigma1 (x : Nat) : Nat :=
  (((twice x).shiftRight 17).xor ((twice x).shiftRight 19)).xor (x.shiftRight 10)

def roundConstants : List Nat := [
  0x428a2f98, 0x71374491, 0xb5c0fbcf, 0xe9b5dba5, 0x3956c25b, 0x59f111f1, 0x923f82a4, 0xab1c5ed5,
  0xd807aa98, 0x12835b01, 0x243185be, 0x550c7dc3, 0x72be5d74, 0x80deb1fe, 0x9bdc06a7, 0xc19bf174,
  0xe49b69c1, 0xefbe4786, 0x0fc19dc6, 0x240ca1cc, 0x2de92c6f, 0x4a7484aa, 0x5cb0a9dc, 0x76f988da,
  0x983e5152, 0xa831c66d, 0xb00327c8, 0xbf597fc7, 0xc6e00bf3, 0xd5a79147, 0x06ca6351, 0x14292967,
  0x27b70a85, 0x2e1b2138, 0x4d2c6dfc, 0x53380d13, 0x650a7354, 0x766a0abb, 0x81c2c92e, 0x92722c85,
  0xa2bfe8a1, 0xa81a664b, 0xc24b8b70, 0xc76c51a3, 0xd192e819, 0xd6990624, 0xf40e3585, 0x106aa070,
  0x19a4c116, 0x1e376c08, 0x2748774c, 0x34b0bcb5, 0x391c0cb3, 0x4ed8aa4a, 0x5b9cca4f, 0x682e6ff3,
  0x748f82ee, 0x78a5636f, 0x84c87814, 0x8cc70208, 0x90befffa, 0xa4506ceb, 0xbef9a3f7, 0xc67178f2]

/-- The eight working variables. -/
structure Registers where
  a : Nat
  b : Nat
  c : Nat
  d : Nat
  e : Nat
  f : Nat
  g : Nat
  h : Nat

def initialHash : Registers :=
  ⟨0x6a09e667, 0xbb67ae85, 0x3c6ef372, 0xa54ff53a, 0x510e527f, 0x9b05688c, 0x1f83d9ab, 0x5be0cd19⟩

/-- One round for each constant and schedule word. -/
def rounds : List Nat → List Nat → Registers → Registers
  | k :: ks, w :: ws, ⟨a, b, c, d, e, f, g, h⟩ =>
      let t1 := h.add ((bigSigma1 e).add ((ch e f g).add (k.add w)))
      let t2 := (bigSigma0 a).add (maj a b c)
      rounds ks ws ⟨low32 (t1.add t2), a, b, c, low32 (d.add t1), e, f, g⟩
  | _, _, s => s

/-- The word of a message schedule after those two, seven, fifteen and sixteen back. -/
def scheduleWord (w2 w7 w15 w16 : Nat) : Nat :=
  low32 ((smallSigma1 w2).add (w7.add ((smallSigma0 w15).add w16)))

/-- The next sixteen words of a message schedule. -/
def nextWords : List Nat → List Nat
  | [w0, w1, w2, w3, w4, w5, w6, w7, w8, w9, w10, w11, w12, w13, w14, w15] =>
      let w16 := scheduleWord w14 w9 w1 w0
      let w17 := scheduleWord w15 w10 w2 w1
      let w18 := scheduleWord w16 w11 w3 w2
      let w19 := scheduleWord w17 w12 w4 w3
      let w20 := scheduleWord w18 w13 w5 w4
      let w21 := scheduleWord w19 w14 w6 w5
      let w22 := scheduleWord w20 w15 w7 w6
      let w23 := scheduleWord w21 w16 w8 w7
      let w24 := scheduleWord w22 w17 w9 w8
      let w25 := scheduleWord w23 w18 w10 w9
      let w26 := scheduleWord w24 w19 w11 w10
      let w27 := scheduleWord w25 w20 w12 w11
      let w28 := scheduleWord w26 w21 w13 w12
      let w29 := scheduleWord w27 w22 w14 w13
      let w30 := scheduleWord w28 w23 w15 w14
      let w31 := scheduleWord w29 w24 w16 w15
      [w16, w17, w18, w19, w20, w21, w22, w23, w24, w25, w26, w27, w28, w29, w30, w31]
  | w => w

def schedule (w : List Nat) : List Nat :=
  w ++ (nextWords w ++ (nextWords (nextWords w) ++ nextWords (nextWords (nextWords w))))

/-- Big-endian words of a message. -/
def words : Bytes → List Nat
  | a :: b :: c :: d :: bs =>
      (((a.toNat * 256 + b.toNat) * 256 + c.toNat) * 256 + d.toNat) :: words bs
  | _ => []

/-- One block of sixteen words. -/
def compress (s : Registers) (block : List Nat) : Registers :=
  let r := rounds roundConstants (schedule block) s
  ⟨low32 (s.a.add r.a), low32 (s.b.add r.b), low32 (s.c.add r.c), low32 (s.d.add r.d),
    low32 (s.e.add r.e), low32 (s.f.add r.f), low32 (s.g.add r.g), low32 (s.h.add r.h)⟩

def compressBlocks : Nat → List Nat → Registers → Registers
  | 0, _, s => s
  | n + 1, w, s => compressBlocks n (w.drop 16) (compress s (w.take 16))

/-- The message with its padding: a whole number of blocks. -/
def pad (m : Bytes) : Bytes :=
  m ++ (0x80 :: (List.replicate ((119 - m.length % 64) % 64) 0 ++ bytesBe 8 (8 * m.length)))

def digest (s : Registers) : Bytes :=
  bytesBe 4 s.a ++ bytesBe 4 s.b ++ bytesBe 4 s.c ++ bytesBe 4 s.d ++
    bytesBe 4 s.e ++ bytesBe 4 s.f ++ bytesBe 4 s.g ++ bytesBe 4 s.h

/-- SHA-256. -/
def hash (m : Bytes) : Bytes :=
  digest (compressBlocks ((m.length + 72) / 64) (words (pad m)) initialHash)

theorem hash_length (m : Bytes) : (hash m).length = 32 := by
  simp only [hash, digest, List.length_append, bytesBe_length]

/-- The native functions with this hash, given a signature recovery. -/
def primitives (recover : Bytes → Bytes → Except Nat Bytes) : Primitives where
  sha256 := hash
  sha256_length := hash_length
  secp256k1Recover := recover

/-- The one-block example of FIPS 180-4, `"abc"`. -/
example : hash [0x61, 0x62, 0x63] =
    [0xba, 0x78, 0x16, 0xbf, 0x8f, 0x01, 0xcf, 0xea, 0x41, 0x41, 0x40, 0xde, 0x5d, 0xae, 0x22,
      0x23, 0xb0, 0x03, 0x61, 0xa3, 0x96, 0x17, 0x7a, 0x9c, 0xb4, 0x10, 0xff, 0x61, 0xf2, 0x00,
      0x15, 0xad] := by decide +kernel

end Sha256
