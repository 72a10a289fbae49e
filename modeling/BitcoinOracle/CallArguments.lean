import BitcoinOracle.Oracle
import Mathlib.Data.List.Forall2

/-! # Arguments of contract calls

Off chain a value is a buffer, an integer or a string of any size.  As an argument
of a call it has a type: the encoders refuse a negative integer or an address that
is none, and the node a value too long for its type.  Both together are `encode`,
which is `none` for a call that never reaches the contract.
-/
namespace Clarity

def Uint.ofInt (v : Int) : Option Uint :=
  if h : 0 ≤ v ∧ v < 2 ^ 128 then some ⟨v.toNat, by omega⟩ else none

def Buff.ofBytes (n : Nat) (b : Bytes) : Option (Buff n) :=
  if h : b.length ≤ n then some ⟨b, h⟩ else none

def StringUtf8.ofChars (n : Nat) (cs : List Char) : Option (StringUtf8 n) :=
  if h : cs.length ≤ n then some ⟨cs, h⟩ else none

theorem Uint.ofInt_eq_some {v : Int} {u : Uint} : Uint.ofInt v = some u ↔ (u.val : Int) = v := by
  have hu := u.isLt
  unfold Uint.ofInt
  split
  · next h =>
      rw [Option.some.injEq, Fin.ext_iff]
      show v.toNat = u.val ↔ _
      omega
  · next h =>
      refine iff_of_false nofun fun hv => h ?_
      omega

theorem Buff.ofBytes_eq_some {n : Nat} {b : Bytes} {c : Buff n} :
    Buff.ofBytes n b = some c ↔ c.bytes = b := by
  unfold Buff.ofBytes
  split
  · next h => exact ⟨fun hc => by rw [← Option.some.inj hc], fun hc => congrArg some (Buff.ext hc.symm)⟩
  · next h => exact iff_of_false (Option.some_ne_none c).symm fun hc => h (hc ▸ c.length_le)

theorem StringUtf8.ofChars_eq_some {n : Nat} {cs : List Char} {s : StringUtf8 n} :
    StringUtf8.ofChars n cs = some s ↔ s.chars = cs := by
  unfold StringUtf8.ofChars
  cases s with
  | mk chars hchars =>
      split
      · next h => rw [Option.some.injEq, StringUtf8.mk.injEq, eq_comm]
      · next h => exact iff_of_false nofun fun (hs : chars = cs) => h (hs ▸ hchars)

/-- `listT`: element by element. -/
def encodeList {α β : Type} (f : α → Option β) : List α → Option (List β)
  | [] => some []
  | x :: xs => (f x).bind fun y => (encodeList f xs).map (y :: ·)

theorem encodeList_eq_some {α β : Type} {f : α → Option β} {xs : List α} {ys : List β} :
    encodeList f xs = some ys ↔ List.Forall₂ (fun x y => f x = some y) xs ys := by
  induction xs generalizing ys with
  | nil =>
      rw [List.forall₂_nil_left_iff, encodeList, Option.some.injEq, eq_comm]
  | cons x xs ih =>
      simp only [encodeList, Option.bind_eq_some_iff, Option.map_eq_some_iff, ih,
        List.forall₂_cons_left_iff]
      constructor
      · intro ⟨y, hy, zs, hzs, h⟩
        exact ⟨y, zs, hy, hzs, h.symm⟩
      · intro ⟨y, zs, hy, hzs, h⟩
        exact ⟨y, hy, zs, hzs, h.symm⟩

theorem exists_of_forall₂ {α β : Type} {R : α → β → Prop} {xs : List α} {ys : List β}
    (h : List.Forall₂ R xs ys) {y : β} (hy : y ∈ ys) : ∃ x ∈ xs, R x y := by
  induction h with
  | nil => exact nomatch hy
  | @cons x y' xs ys hxy _ ih =>
      rcases List.mem_cons.mp hy with hfirst | hlater
      · exact ⟨x, List.mem_cons_self, hfirst ▸ hxy⟩
      · obtain ⟨x', hx', hR⟩ := ih hlater
        exact ⟨x', List.mem_cons_of_mem x hx', hR⟩

theorem exists_encodeList {α β : Type} {f : α → Option β} {xs : List α}
    (h : ∀ x ∈ xs, ∃ y, f x = some y) : ∃ ys, encodeList f xs = some ys := by
  induction xs with
  | nil => exact ⟨[], rfl⟩
  | cons x xs ih =>
      obtain ⟨y, hy⟩ := h x List.mem_cons_self
      obtain ⟨ys, hys⟩ := ih fun x' hx' => h x' (List.mem_cons_of_mem x hx')
      exact ⟨y :: ys, by rw [encodeList, hy, hys]; rfl⟩

end Clarity

namespace BitcoinOracle
open Clarity

abbrev Text := List Char

instance Text.lawfulBEq : LawfulBEq Text := inferInstance

/-- The `tx` of a call. -/
structure TxArgument where
  bitcoinTx : Bytes
  output : Int
  offset : Int
  tick : Text
  amt : Int
  fromUser : Bytes
  toUser : Bytes
  fromBal : Int
  toBal : Int
  decimals : Int
  deriving DecidableEq

structure SignaturePackArgument where
  signer : Text
  txHash : Bytes
  signature : Bytes
  deriving DecidableEq

structure BlockArgument where
  header : Bytes
  height : Int
  deriving DecidableEq

structure ProofArgument where
  txIndex : Int
  hashes : List Bytes
  treeDepth : Int
  deriving DecidableEq

/-- One element of `tx-many`. -/
structure TxManyInput where
  tx : TxArgument
  block : BlockArgument
  proof : ProofArgument
  signaturePacks : List SignaturePackArgument
  deriving DecidableEq

def TxArgument.encode (a : TxArgument) : Option Tx := do
  let bitcoinTx ← Buff.ofBytes 8192 a.bitcoinTx
  let output ← Uint.ofInt a.output
  let offset ← Uint.ofInt a.offset
  let tick ← StringUtf8.ofChars 4 a.tick
  let amt ← Uint.ofInt a.amt
  let fromUser ← Buff.ofBytes 128 a.fromUser
  let toUser ← Buff.ofBytes 128 a.toUser
  let fromBal ← Uint.ofInt a.fromBal
  let toBal ← Uint.ofInt a.toBal
  let decimals ← Uint.ofInt a.decimals
  some ⟨bitcoinTx, output, offset, tick, amt, fromUser, toUser, fromBal, toBal, decimals⟩

/-- The key `get-bitcoin-tx-indexed-or-fail` is asked for. -/
def encodeKey (bitcoinTx : Bytes) (output offset : Int) : Option (IndexedKey 8192) := do
  let txHash ← Buff.ofBytes 8192 bitcoinTx
  let output ← Uint.ofInt output
  let offset ← Uint.ofInt offset
  some ⟨txHash, output, offset⟩

def SignaturePackArgument.encode (principal : Text → Option Principal)
    (a : SignaturePackArgument) : Option SignaturePack := do
  let signer ← principal a.signer
  let txHash ← Buff.ofBytes 32 a.txHash
  let signature ← Buff.ofBytes 65 a.signature
  some ⟨signer, txHash, signature⟩

def BlockArgument.encode (a : BlockArgument) : Option ClarityBitcoin.Block := do
  let header ← Buff.ofBytes 80 a.header
  let height ← Uint.ofInt a.height
  some ⟨header, height⟩

def ProofArgument.encode (a : ProofArgument) : Option ClarityBitcoin.Proof := do
  let txIndex ← Uint.ofInt a.txIndex
  let hashes ← encodeList (Buff.ofBytes 32) a.hashes
  let treeDepth ← Uint.ofInt a.treeDepth
  if h : hashes.length ≤ 14 then some ⟨txIndex, hashes, treeDepth, h⟩ else none

/-- `principal` reads an address. -/
def TxManyInput.encode (principal : Text → Option Principal) (a : TxManyInput) :
    Option SignedTx := do
  let tx ← a.tx.encode
  let block ← a.block.encode
  let proof ← a.proof.encode
  let packs ← encodeList (SignaturePackArgument.encode principal) a.signaturePacks
  if h : packs.length ≤ 10 then some ⟨tx, block, proof, packs, h⟩ else none

def encodeTxMany (principal : Text → Option Principal) (inputs : List TxManyInput) :
    Option TxMany := do
  let elements ← encodeList (TxManyInput.encode principal) inputs
  if h : elements.length ≤ 25 then some ⟨elements, h⟩ else none

/-! ## What an argument is encoded as -/

/-- An event, as an argument. -/
def Tx.argument (tx : Tx) : TxArgument :=
  ⟨tx.bitcoinTx.bytes, tx.output.val, tx.offset.val, tx.tick.chars, tx.amt.val, tx.fromUser.bytes,
    tx.toUser.bytes, tx.fromBal.val, tx.toBal.val, tx.decimals.val⟩

theorem TxArgument.encode_eq_some {a : TxArgument} {tx : Tx} :
    a.encode = some tx ↔ tx.argument = a := by
  simp only [TxArgument.encode, Option.bind_eq_bind, Option.bind_eq_some_iff,
    Buff.ofBytes_eq_some, Uint.ofInt_eq_some, StringUtf8.ofChars_eq_some, Option.some.injEq]
  constructor
  · intro ⟨_, h1, _, h2, _, h3, _, h4, _, h5, _, h6, _, h7, _, h8, _, h9, _, h10, htx⟩
    subst htx
    cases a
    simp_all [Tx.argument]
  · intro h
    subst h
    exact ⟨_, rfl, _, rfl, _, rfl, _, rfl, _, rfl, _, rfl, _, rfl, _, rfl, _, rfl, _, rfl, rfl⟩

theorem encodeKey_eq_some {bitcoinTx : Bytes} {output offset : Int} {key : IndexedKey 8192} :
    encodeKey bitcoinTx output offset = some key ↔ key.txHash.bytes = bitcoinTx ∧
      (key.output.val : Int) = output ∧ (key.offset.val : Int) = offset := by
  simp only [encodeKey, Option.bind_eq_bind, Option.bind_eq_some_iff, Buff.ofBytes_eq_some,
    Uint.ofInt_eq_some, Option.some.injEq]
  constructor
  · intro ⟨_, h1, _, h2, _, h3, hkey⟩
    subst hkey
    exact ⟨h1, h2, h3⟩
  · intro ⟨h1, h2, h3⟩
    exact ⟨_, h1, _, h2, _, h3, rfl⟩

/-- An event is indexed under the key the relayer asks for. -/
theorem TxArgument.encodeKey_of_encode {a : TxArgument} {tx : Tx} (h : a.encode = some tx) :
    encodeKey a.bitcoinTx a.output a.offset =
      some ⟨tx.bitcoinTx, tx.output, tx.offset⟩ := by
  rw [TxArgument.encode_eq_some] at h
  subst h
  exact encodeKey_eq_some.mpr ⟨rfl, rfl, rfl⟩

theorem SignaturePackArgument.encode_eq_some {principal : Text → Option Principal}
    {a : SignaturePackArgument} {pack : SignaturePack} :
    a.encode principal = some pack ↔ principal a.signer = some pack.signer ∧
      pack.txHash.bytes = a.txHash ∧ pack.signature.bytes = a.signature := by
  simp only [SignaturePackArgument.encode, Option.bind_eq_bind, Option.bind_eq_some_iff,
    Buff.ofBytes_eq_some, Option.some.injEq]
  constructor
  · intro ⟨_, h1, _, h2, _, h3, hpack⟩
    subst hpack
    exact ⟨h1, h2, h3⟩
  · intro ⟨h1, h2, h3⟩
    exact ⟨_, h1, _, h2, _, h3, rfl⟩

/-- **An input is encoded part by part, and carries at most ten signatures.** -/
theorem TxManyInput.encode_eq_some {principal : Text → Option Principal} {a : TxManyInput}
    {e : SignedTx} :
    a.encode principal = some e ↔ a.tx.encode = some e.tx ∧ a.block.encode = some e.block ∧
      a.proof.encode = some e.proof ∧
      List.Forall₂ (fun p pack => p.encode principal = some pack) a.signaturePacks
        e.signaturePacks := by
  simp only [TxManyInput.encode, Option.bind_eq_bind, Option.bind_eq_some_iff,
    encodeList_eq_some]
  constructor
  · intro ⟨tx, htx, block, hblock, proof, hproof, packs, hpacks, he⟩
    split at he
    · cases he
      exact ⟨htx, hblock, hproof, hpacks⟩
    · cases he
  · intro ⟨htx, hblock, hproof, hpacks⟩
    refine ⟨_, htx, _, hblock, _, hproof, _, hpacks, ?_⟩
    rw [dif_pos e.signaturePacks_length]

theorem encodeTxMany_eq_some {principal : Text → Option Principal} {inputs : List TxManyInput}
    {txMany : TxMany} :
    encodeTxMany principal inputs = some txMany ↔
      List.Forall₂ (fun a e => a.encode principal = some e) inputs txMany.elements := by
  simp only [encodeTxMany, Option.bind_eq_bind, Option.bind_eq_some_iff, encodeList_eq_some]
  constructor
  · intro ⟨elements, helements, h⟩
    split at h
    · cases h
      exact helements
    · cases h
  · intro h
    refine ⟨_, h, ?_⟩
    rw [dif_pos txMany.elements_length]

end BitcoinOracle
