import BitcoinOracle.ClarityCall
import Mathlib.Data.List.Basic
import Mathlib.Data.Nat.Bitwise

/-! # Clarity values

The value types of the language and its operators on them.  Buffers and strings
carry their length bound and a `uint` its 128 bits, so that a value of a type is
always one the language admits.  Inside a function, where a value has no declared
bound, a buffer is its list of bytes and a `uint` a natural number, on which
every arithmetic operator checks for overflow itself.
-/
namespace Clarity

abbrev Bytes := List UInt8

instance Bytes.lawfulBEq : LawfulBEq Bytes := inferInstance

/-- `uint`.  No arithmetic of `Fin` is ever used on it. -/
abbrev Uint := Fin (2 ^ 128)

instance Uint.neZero : NeZero (2 ^ 128) := ⟨by decide⟩

/-- `(buff n)`. -/
structure Buff (n : Nat) where
  bytes : Bytes
  length_le : bytes.length ≤ n
  deriving DecidableEq

/-- `(string-utf8 n)`. -/
structure StringUtf8 (n : Nat) where
  chars : List Char
  length_le : chars.length ≤ n
  deriving DecidableEq

@[ext] theorem Buff.ext {n : Nat} {a b : Buff n} (h : a.bytes = b.bytes) : a = b := by
  cases a
  cases b
  cases h
  rfl

/-! ## Sequences -/

section Sequences
variable {α : Type}

/-- `(slice? xs left right)`. -/
def slice (xs : List α) (left right : Nat) : Option (List α) :=
  if left ≤ right ∧ right ≤ xs.length then some ((xs.take right).drop left) else none

/-- `(as-max-len? xs n)`. -/
def asMaxLen (xs : List α) (n : Nat) : Option (List α) :=
  if xs.length ≤ n then some xs else none

/-- `(element-at? xs i)`, also written `element-at`. -/
def elementAt (xs : List α) (i : Nat) : Option α := xs[i]?

/-- `(replace-at? xs i x)`. -/
def replaceAt (xs : List α) (i : Nat) (x : α) : Option (List α) :=
  if i < xs.length then some (xs.set i x) else none

theorem slice_eq_some {xs ys : List α} {left right : Nat} :
    slice xs left right = some ys ↔
      left ≤ right ∧ right ≤ xs.length ∧ ys = (xs.take right).drop left := by
  unfold slice
  split <;> simp_all [eq_comm]

theorem slice_length {xs ys : List α} {left right : Nat} (h : slice xs left right = some ys) :
    ys.length = right - left := by
  obtain ⟨-, hr, rfl⟩ := slice_eq_some.mp h
  rw [List.length_drop, List.length_take, Nat.min_eq_left hr]

theorem asMaxLen_of_le {xs : List α} {n : Nat} (h : xs.length ≤ n) :
    asMaxLen xs n = some xs := if_pos h

theorem asMaxLen_eq_some {xs ys : List α} {n : Nat} :
    asMaxLen xs n = some ys ↔ xs.length ≤ n ∧ ys = xs := by
  unfold asMaxLen
  split <;> simp_all [eq_comm]

end Sequences

/-- `(as-max-len? b m)` on a buffer, whose type it narrows. -/
def Buff.asMaxLen {n : Nat} (b : Buff n) (m : Nat) : Option (Buff m) :=
  if h : b.bytes.length ≤ m then some ⟨b.bytes, h⟩ else none

theorem Buff.asMaxLen_eq_some {n m : Nat} {b : Buff n} {c : Buff m} :
    b.asMaxLen m = some c ↔ c.bytes = b.bytes := by
  unfold Buff.asMaxLen
  split
  · constructor
    · rintro h
      rw [← Option.some.inj h]
    · exact fun h => congrArg some (Buff.ext h.symm)
  · rename_i hlong
    constructor
    · nofun
    · exact fun h => absurd (h ▸ c.length_le) hlong

/-- `(buff-to-uint-le b)`. -/
def buffToUintLe : Bytes → Nat
  | [] => 0
  | b :: bs => b.toNat + 256 * buffToUintLe bs

/-- The `n` low bytes of a number, most significant byte first. -/
def bytesBe : Nat → Nat → Bytes
  | 0, _ => []
  | n + 1, v => UInt8.ofNat (v >>> (8 * n)) :: bytesBe n v

@[simp] theorem bytesBe_length (n v : Nat) : (bytesBe n v).length = n := by
  induction n with
  | zero => rfl
  | succ n ih => rw [bytesBe, List.length_cons, ih]

/-! ## Arithmetic on `uint` -/

/-- `(+ a b)`. -/
def add (a b : Nat) : Result Nat :=
  if a + b < 2 ^ 128 then .ok (a + b) else .abort .arithmeticOverflow

/-- `(- a b)`. -/
def sub (a b : Nat) : Result Nat :=
  if b ≤ a then .ok (a - b) else .abort .arithmeticUnderflow

/-- `(pow a b)`. -/
def pow (a b : Nat) : Result Nat :=
  if a ^ b < 2 ^ 128 then .ok (a ^ b) else .abort .arithmeticOverflow

/-- `(bit-shift-left a b)`: the shift is taken modulo 128, and bits are lost
at the top. -/
def bitShiftLeft (a b : Nat) : Nat := (a <<< (b % 128)) % 2 ^ 128

/-- `(bit-and a b)`. -/
def bitAnd (a b : Nat) : Nat := a &&& b

/-- `(+ a b)`, where the sum is stored as a `uint`. -/
def addUint (a b : Uint) : Result Uint :=
  if h : a.val + b.val < 2 ^ 128 then .ok ⟨a.val + b.val, h⟩ else .abort .arithmeticOverflow

/-- `(- a b)`, where the difference is stored as a `uint`. -/
def subUint (a b : Uint) : Result Uint :=
  if b.val ≤ a.val then .ok ⟨a.val - b.val, by omega⟩ else .abort .arithmeticUnderflow

theorem add_of_lt {a b : Nat} (h : a + b < 2 ^ 128) : add a b = .ok (a + b) := if_pos h

theorem pow_of_lt {a b : Nat} (h : a ^ b < 2 ^ 128) : pow a b = .ok (a ^ b) := if_pos h

theorem addUint_eq_ok {a b n : Uint} : addUint a b = .ok n ↔ n.val = a.val + b.val := by
  unfold addUint
  constructor
  · intro h
    split at h
    · rw [← Result.ok.inj h]
    · cases h
  · intro h
    rw [dif_pos (h ▸ n.isLt)]
    exact congrArg Result.ok (Fin.ext h.symm)

theorem subUint_eq_ok {a b n : Uint} : subUint a b = .ok n ↔ n.val + b.val = a.val := by
  unfold subUint
  constructor
  · intro h
    split at h
    · rw [← Result.ok.inj h]
      exact Nat.sub_add_cancel ‹_›
    · cases h
  · intro h
    rw [if_pos (by omega)]
    exact congrArg Result.ok (Fin.ext (by show a.val - b.val = n.val; omega))

/-! ## Native functions

Hashing and signature recovery are parameters: nothing but the length of a digest
is assumed of them here.  What a transaction reads off the chain is fixed for its
whole execution. -/

structure Primitives where
  sha256 : Bytes → Bytes
  sha256_length : ∀ m, (sha256 m).length = 32
  /-- `(secp256k1-recover? message-hash signature)`: the compressed public key. -/
  secp256k1Recover : Bytes → Bytes → Except Nat Bytes

/-- `(is-eq r (ok k))`, on the optional of a response. -/
theorem toOption_eq_some {ε α : Type} {r : Except ε α} {k : α} : r.toOption = some k ↔ r = .ok k := by
  cases r <;> simp [Except.toOption]

structure Env where
  /-- `chain-id`. -/
  chainId : Nat
  /-- `(get-burn-block-info? header-hash height)`. -/
  burnHeaderHash : Uint → Option (Buff 32)

/-! ## Data maps -/

/-- The contents of a `define-map`. -/
abbrev DataMap (K V : Type) := K → Option V

namespace DataMap
variable {K V : Type} [DecidableEq K]

/-- No entries. -/
def empty : DataMap K V := fun _ => none

/-- `(map-set m k v)`. -/
def set (m : DataMap K V) (k : K) (v : V) : DataMap K V := Function.update m k (some v)

/-- `(map-delete m k)`. -/
def delete (m : DataMap K V) (k : K) : DataMap K V := Function.update m k none

omit [DecidableEq K] in
@[simp] theorem empty_apply (k : K) : (empty : DataMap K V) k = none := rfl

@[simp] theorem set_self (m : DataMap K V) (k : K) (v : V) : m.set k v k = some v :=
  Function.update_self ..

theorem set_of_ne {m : DataMap K V} {k k' : K} {v : V} (h : k' ≠ k) : m.set k v k' = m k' :=
  Function.update_of_ne h ..

theorem set_apply (m : DataMap K V) (k k' : K) (v : V) :
    m.set k v k' = if k' = k then some v else m k' := by
  by_cases h : k' = k
  · rw [if_pos h, h, set_self]
  · rw [if_neg h, set_of_ne h]

@[simp] theorem delete_self (m : DataMap K V) (k : K) : m.delete k k = none :=
  Function.update_self ..

theorem delete_of_ne {m : DataMap K V} {k k' : K} (h : k' ≠ k) : m.delete k k' = m k' :=
  Function.update_of_ne h ..

/-- `map-set` never removes an entry. -/
theorem set_isSome_mono {m : DataMap K V} {k k' : K} {v : V} (h : (m k').isSome) :
    (m.set k v k').isSome := by
  rw [set_apply]
  split
  · rfl
  · exact h

end DataMap
end Clarity
