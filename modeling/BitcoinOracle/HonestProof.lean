import BitcoinOracle.MinedSoundness
import BitcoinOracle.TransactionRoundTrip

/-! # Honest proofs

What a validator assembles for a transaction of a block is accepted: the siblings that
Electrum answers with, byte-reversed one by one, are the nodes the contract hashes, the
position chooses their sides, and the root they climb to is the one in the header.
Hex strings are taken as the bytes they denote.
-/
namespace BitcoinOracle
open Clarity

/-! ## The validator -/

namespace Validator

/-- One turn of the loop of `reverseBuffer`. -/
def swap (buffer : Bytes) (i j : Nat) : Bytes :=
  (buffer.set i (buffer.getD j 0)).set j (buffer.getD i 0)

def reverseBuffer (buffer : Bytes) : Bytes :=
  if buffer.length < 1 then buffer
  else
    (List.range ((buffer.length + 1) / 2)).foldl
      (fun b i => swap b i (buffer.length - 1 - i)) buffer

/-- `blockchain_transaction_get`, as far as it is read. -/
structure VerboseTx where
  hex : Bytes
  confirmations : Option Nat
  blockhash : Bytes

/-- `blockchain_transaction_getMerkle`. -/
structure ElectrumMerkle where
  merkle : List Bytes
  pos : Nat

structure ElectrumClient where
  transactionGet : Bytes → VerboseTx
  transactionGetMerkle : Bytes → Nat → ElectrumMerkle

/-- What the API answers for a block hash. -/
structure IndexedBlock where
  header : Bytes
  height : Nat

structure ProofArg where
  txIndex : Nat
  hashes : List Bytes
  treeDepth : Nat

structure BitcoinTxData where
  tx : Bytes
  header : Bytes
  height : Nat
  proof : ProofArg

def getBitcoinTx (client : ElectrumClient) (api : Bytes → IndexedBlock) (txId : Bytes) :
    Except String BitcoinTxData :=
  let tx := client.transactionGet txId
  if tx.confirmations.getD 0 < 1 then
    .error "Tx is not confirmed"
  else
    let bitcoinBlockHeight := api tx.blockhash
    let merkle := client.transactionGetMerkle txId bitcoinBlockHeight.height
    let merkleHashes := merkle.merkle.map reverseBuffer
    .ok ⟨tx.hex, bitcoinBlockHeight.header, bitcoinBlockHeight.height,
      ⟨merkle.pos, merkleHashes, merkleHashes.length⟩⟩

/-- The data, as arguments of the contract. -/
structure BitcoinTxData.Carries (data : BitcoinTxData) (tx : Buff 8192)
    (block : ClarityBitcoin.Block) (proof : ClarityBitcoin.Proof) : Prop where
  tx : tx.bytes = data.tx
  header : block.header.bytes = data.header
  height : block.height.val = data.height
  txIndex : proof.txIndex.val = data.proof.txIndex
  hashes : proof.hashes.map Buff.bytes = data.proof.hashes
  treeDepth : proof.treeDepth.val = data.proof.treeDepth

/-- `buffer` after `k` turns: its `k` outermost bytes on either side have changed places. -/
def Reversed (buffer : Bytes) (k : Nat) (b : Bytes) : Prop :=
  b.length = buffer.length ∧ ∀ i < buffer.length,
    b[i]? = if i < k ∨ buffer.length - 1 - i < k then buffer[buffer.length - 1 - i]? else buffer[i]?

theorem reversed_iff {buffer b : Bytes} {k : Nat} :
    Reversed buffer k b ↔ MirroredInPlace buffer k b := by
  constructor
  · rintro ⟨hlen, hget⟩
    refine ⟨⟨hlen, fun i hi hout => ?_⟩, fun i hi hin => ?_⟩
    · rw [hget i hi, if_pos hout]
    · rw [hget i hi, if_neg hin]
  · intro h
    refine ⟨h.length, fun i hi => ?_⟩
    split
    · next hout => exact h.outer i hi hout
    · next hin => exact h.inner i hi hin

theorem Reversed.swap {buffer b : Bytes} {k : Nat} (h : Reversed buffer k b)
    (hk : k < (buffer.length + 1) / 2) :
    Reversed buffer (k + 1) (Validator.swap b k (buffer.length - 1 - k)) := by
  have hget : ∀ j < buffer.length, b[j]? = some (b.getD j 0) := by
    intro j hj
    rw [List.getD_eq_getElem?_getD, List.getElem?_eq_getElem (h.1.symm ▸ hj), Option.getD_some]
  exact reversed_iff.mpr
    ((reversed_iff.mp h).set (by omega) (hget k (by omega)) (hget _ (by omega)))

theorem Reversed.loop {buffer : Bytes} {k : Nat} (hk : k ≤ (buffer.length + 1) / 2) :
    Reversed buffer k ((List.range k).foldl
      (fun b i => Validator.swap b i (buffer.length - 1 - i)) buffer) := by
  induction k with
  | zero => exact reversed_iff.mpr (mirroredInPlace_zero buffer)
  | succ k ih =>
      rw [List.range_succ, List.foldl_append]
      exact (ih (by omega)).swap hk

theorem reverseBuffer_eq (buffer : Bytes) : reverseBuffer buffer = buffer.reverse := by
  unfold reverseBuffer
  by_cases hempty : buffer.length < 1
  · rw [if_pos hempty, List.length_eq_zero_iff.mp (Nat.lt_one_iff.mp hempty)]
    rfl
  · rw [if_neg hempty]
    exact (reversed_iff.mp (Reversed.loop (Nat.le_refl _))).eq_reverse (by omega)

end Validator

/-! ## Transactions of a block -/

namespace ClarityBitcoin
open Encoding

/-- The transaction without marker, flag and witnesses. -/
def WitnessTx.stripped (t : WitnessTx) : LegacyTx := ⟨t.version, t.ins, t.outs, t.locktime⟩

/-- A transaction of a block.  Its id is the one of its legacy serialization. -/
inductive BitcoinTx where
  | legacy (t : LegacyTx)
  | segwit (t : WitnessTx)

namespace BitcoinTx

def serialize : BitcoinTx → Bytes
  | legacy t => t.serialize
  | segwit t => t.serialize

def body : BitcoinTx → Bytes
  | legacy t => t.serialize
  | segwit t => t.stripped.serialize

/-- Within the limits of the contract.  A transaction without inputs is none: its
legacy serialization would read like a segwit one. -/
def InLimits : BitcoinTx → Prop
  | legacy t => t.Fits ∧ t.ins ≠ [] ∧ t.serialize.length ≤ 8192
  | segwit t => t.Fits ∧ t.serialize.length ≤ 8192

def isSegwit : BitcoinTx → Bool
  | legacy _ => false
  | segwit _ => true

end BitcoinTx

theorem WitnessTx.Fits.drops {t : WitnessTx} (h : t.Fits) :
    Drops t.serialize t.stripped.serialize := by
  refine ⟨bytesLe 4 t.version, bytesLe 1 t.segwitMarker ++ bytesLe 1 t.segwitVersion, t.ins, _,
    t.outs, _, t.witnesses, _, bytesLe 4 t.locktime, bytesLe_length .., rfl,
    ⟨h.ins_length, encodes_ins h.ins_length h.ins⟩, ⟨h.outs_length, encodes_outs h.outs_length h.outs⟩,
    h.witnesses_length, seq_flatMap fun w hw => (h.witnesses w hw).encodes, ?_, ?_, ?_⟩
  · rw [bytesLe_length]
  · rw [List.append_assoc]
    rfl
  · rw [List.append_assoc]
    rfl

theorem WitnessTx.Fits.isSegwitTx {t : WitnessTx} (h : t.Fits) (hlen : Addressable t.serialize) :
    isSegwitTx t.serialize = .ok true := by
  have hmarker : t.serialize[4]? = some 0 := by
    rw [WitnessTx.serialize, List.getElem?_append_right (by rw [bytesLe_length]), bytesLe_length,
      h.segwitMarker]
    rfl
  rw [isSegwitTx_eq hlen, hmarker]
  rfl

theorem LegacyTx.Fits.isSegwitTx {t : LegacyTx} (h : t.Fits) (hins : t.ins ≠ [])
    (hlen : Addressable t.serialize) : isSegwitTx t.serialize = .ok false := by
  have hpos := List.length_pos_iff.mpr hins
  have hle := h.ins_length
  have hcount : t.serialize[4]? = some (UInt8.ofNat t.ins.length) := by
    rw [LegacyTx.serialize, List.getElem?_append_right (by rw [bytesLe_length]), bytesLe_length,
      serializeList, compactSize, if_pos (by omega)]
    rfl
  have hne : UInt8.ofNat t.ins.length ≠ 0 := by
    intro hzero
    have h0 := congrArg UInt8.toNat hzero
    rw [UInt8.toNat_ofNat', Nat.mod_eq_of_lt (by omega)] at h0
    exact absurd h0 (Nat.ne_of_gt hpos)
  rw [isSegwitTx_eq hlen, hcount]
  exact congrArg Result.ok (decide_eq_false hne)

namespace BitcoinTx
variable {t : BitcoinTx} (h : t.InLimits)
include h

theorem InLimits.length_le : t.serialize.length ≤ 8192 := by
  cases t with
  | legacy t => exact h.2.2
  | segwit t => exact h.2

theorem InLimits.isSegwitTx : isSegwitTx t.serialize = .ok t.isSegwit := by
  have hlen := addressable_of_le h.length_le
  cases t with
  | legacy t => exact h.1.isSegwitTx h.2.1 hlen
  | segwit t => exact h.1.isSegwitTx hlen

/-- The id the contract checks, whichever of the two checks is made. -/
theorem InLimits.wasMined (P : Primitives) (env : Env) (mock : MockHeaders) (block : Block)
    (proof : Proof) :
    (if t.isSegwit then wasSegwitTxMined P env mock block t.serialize proof
      else wasTxMined P env mock block t.serialize proof) =
      ClarityBitcoin.wasMined P env mock (.ok (sha256d P t.body)) block proof := by
  have hlen := addressable_of_le h.length_le
  cases t with
  | legacy t => rfl
  | segwit t =>
      have hdropped := (droppedTx_eq_ok_iff hlen).mpr h.1.drops
      show wasSegwitTxMined P env mock block t.serialize proof = _
      unfold wasSegwitTxMined getReversedSegwitTxid
      rw [show droppedTx t.serialize = _ from hdropped]
      rfl

end BitcoinTx
end ClarityBitcoin

/-! ## The proof of a block -/

namespace Oracle
open ClarityBitcoin Validator MerkleTree
variable (P : Primitives) (env : Env) (mock : MockHeaders)

/-- The block of the transactions with these legacy serializations, recorded at its
height. -/
structure RecordedBlock (bodies : List Bytes) (block : Block) : Prop where
  two_le : 2 ≤ bodies.length
  le_max : bodies.length ≤ 2 ^ 14
  header_length : block.header.bytes.length = 80
  root : root (merkleNode P) (txids P bodies) = some (merkleRootField block.header.bytes)
  recorded : ∃ hash, getBcHHash env mock block.height = some hash ∧
    hash.bytes = (sha256d P block.header.bytes).reverse

/-- The id of a transaction as it is shown and asked for. -/
def displayedTxid (t : BitcoinTx) : Bytes := (sha256d P t.body).reverse

/-- Electrum and the API answer truly about the transaction `t` at position `j`. -/
structure Serves (client : ElectrumClient) (api : Bytes → IndexedBlock) (bodies : List Bytes)
    (j : Nat) (t : BitcoinTx) (block : Block) : Prop where
  hex : (client.transactionGet (displayedTxid P t)).hex = t.serialize
  confirmed : ∃ n, (client.transactionGet (displayedTxid P t)).confirmations = some n ∧ 1 ≤ n
  indexed : api (client.transactionGet (displayedTxid P t)).blockhash =
    ⟨block.header.bytes, block.height.val⟩
  merkle : client.transactionGetMerkle (displayedTxid P t) block.height.val =
    ⟨(siblings (merkleNode P) (height bodies.length) (txids P bodies) j).map List.reverse, j⟩

theorem exists_buffs {n : Nat} {hs : List Bytes} (h : ∀ x ∈ hs, x.length = n) :
    ∃ bs : List (Buff n), bs.map Buff.bytes = hs := by
  induction hs with
  | nil => exact ⟨[], rfl⟩
  | cons x hs ih =>
      obtain ⟨bs, rfl⟩ := ih fun y hy => h y (List.mem_cons_of_mem x hy)
      exact ⟨⟨x, le_of_eq (h x List.mem_cons_self)⟩ :: bs, rfl⟩

/-- Reversing the displayed hashes one by one gives the nodes of the tree again. -/
theorem reverse_displayed (hs : List Bytes) : (hs.map List.reverse).map reverseBuffer = hs := by
  rw [List.map_map]
  refine (List.map_congr_left fun h _ => ?_).trans (List.map_id hs)
  rw [Function.comp_apply, reverseBuffer_eq, List.reverse_reverse, id]

variable {P env mock} {client : ElectrumClient} {api : Bytes → IndexedBlock} {bodies : List Bytes}
  {j : Nat} {t : BitcoinTx} {block : Block}

theorem Serves.getBitcoinTx (h : Serves P client api bodies j t block) (hj : j < bodies.length) :
    getBitcoinTx client api (displayedTxid P t) = .ok ⟨t.serialize, block.header.bytes,
      block.height.val, ⟨j, siblings (merkleNode P) (height bodies.length) (txids P bodies) j,
        height bodies.length⟩⟩ := by
  obtain ⟨n, hconfirmations, hn⟩ := h.confirmed
  obtain ⟨x, hx⟩ : ∃ x, (txids P bodies)[j]? = some x :=
    ⟨_, List.getElem?_eq_getElem (by rwa [txids_length])⟩
  unfold Validator.getBitcoinTx
  dsimp only
  rw [hconfirmations, Option.getD_some, if_neg (Nat.not_lt.mpr hn), h.indexed, h.hex, h.merkle, reverse_displayed,
    siblings_length _ hx]

/-- The proof of a position, as an argument of the contract. -/
theorem exists_proof (hblock : RecordedBlock P env mock bodies block) (hj : j < bodies.length) :
    ∃ proof : Proof, proof.txIndex.val = j ∧ proof.treeDepth.val = height bodies.length ∧
      proof.hashes.map Buff.bytes =
        siblings (merkleNode P) (height bodies.length) (txids P bodies) j := by
  obtain ⟨x, hx⟩ : ∃ x, (txids P bodies)[j]? = some x :=
    ⟨_, List.getElem?_eq_getElem (by rwa [txids_length])⟩
  have h14 : height bodies.length ≤ 14 := Nat.clog_le_of_le_pow hblock.le_max
  have hmax := hblock.le_max
  have hlength : ∀ h ∈ siblings (merkleNode P) (height bodies.length) (txids P bodies) j,
      h.length = 32 := by
    intro h hmem
    obtain ⟨i, hi⟩ := exists_level_of_mem_siblings (merkleNode P) hmem
    exact length_of_mem_level hi
  obtain ⟨hashes, hhashes⟩ := exists_buffs hlength
  refine ⟨⟨⟨j, by omega⟩, hashes, ⟨height bodies.length, by omega⟩, ?_⟩, rfl, rfl, hhashes⟩
  rw [← List.length_map Buff.bytes, hhashes, siblings_length _ hx]
  exact h14

/-- **Honest proofs are accepted.** -/
theorem honest_proof_accepted (hblock : RecordedBlock P env mock bodies block)
    (hj : bodies[j]? = some t.body) (ht : t.InLimits)
    (hserves : Serves P client api bodies j t block) :
    ∃ data, getBitcoinTx client api (displayedTxid P t) = .ok data ∧
      ∃ tx proof, data.Carries tx block proof ∧
        ∃ segwit, isSegwitTx tx.bytes = .ok segwit ∧
          (if segwit then wasSegwitTxMined P env mock block tx.bytes proof
            else wasTxMined P env mock block tx.bytes proof) = .ok true := by
  have hlt : j < bodies.length := (List.getElem?_eq_some_iff.mp hj).1
  obtain ⟨proof, hindex, hdepth, hhashes⟩ := exists_proof hblock hlt
  have hleaf : (txids P bodies)[j]? = some (sha256d P t.body) := by
    rw [txids, List.getElem?_map, hj]
    rfl
  have hlength : proof.hashes.length = height bodies.length := by
    rw [← List.length_map Buff.bytes, hhashes, siblings_length _ hleaf]
  refine ⟨_, hserves.getBitcoinTx hlt, ⟨t.serialize, ht.length_le⟩, proof,
    ⟨rfl, rfl, rfl, hindex, hhashes, hdepth⟩, t.isSegwit, ht.isSegwitTx, ?_⟩
  show (if t.isSegwit = true then wasSegwitTxMined P env mock block t.serialize proof
    else wasTxMined P env mock block t.serialize proof) = _
  rw [ht.wasMined P env mock block proof,
    wasMined_eq_true_iff_climb P env mock hblock.header_length]
  refine ⟨(verifyBlockHeader_eq_true_iff P env mock).mpr hblock.recorded, ⟨?_, ?_, ?_⟩, _, rfl, ?_⟩
  · rw [hdepth, hlength]
  · rw [hlength]
    exact Nat.clog_pos (by decide) hblock.two_le
  · have h14 : height bodies.length ≤ 14 := Nat.clog_le_of_le_pow hblock.le_max
    have hpow : 2 ^ height bodies.length ≤ 2 ^ 14 := Nat.pow_le_pow_right (by decide) h14
    have hmax := hblock.le_max
    rw [hdepth, hindex]
    omega
  · -- the path is the branch of the leaf, and the level it ends at is the root
    have hsteps : proof.steps =
        sided j (siblings (merkleNode P) (height bodies.length) (txids P bodies) j) := by
      refine List.ext_getElem? fun k => ?_
      rw [proof.steps_getElem?, hindex, sided, List.getElem?_mapIdx, ← hhashes, List.getElem?_map,
        Option.map_map]
      rfl
    have hne : txids P bodies ≠ [] := fun hnil => by
      rw [hnil] at hleaf
      cases hleaf
    obtain ⟨r, hlevel, hr⟩ := level_height (merkleNode P) hne
    rw [txids_length] at hlevel
    obtain rfl : r = _ := Option.some.inj (hr.symm.trans hblock.root)
    rw [hsteps]
    exact (isBranch_siblings (merkleNode P) hleaf hlevel).climb_eq (merkleNode P) (by
      rw [sided, List.length_mapIdx, siblings_length _ hleaf]
      exact hlevel)

/-! ### A block of three

The last transaction has no neighbour among the leaves, and its parent none either. -/

def sampleBodies : List Bytes := [[1], [2], partlyWitnessedTx.stripped.serialize]

def samplePrimitives : Primitives := Sha256.primitives fun _ _ => .error 0

def sampleRoot : Bytes :=
  (root (merkleNode samplePrimitives) (txids samplePrimitives sampleBodies)).getD []

theorem root_sampleRoot :
    root (merkleNode samplePrimitives) (txids samplePrimitives sampleBodies) = some sampleRoot ∧
      sampleRoot.length = 32 := by
  obtain ⟨r, hlevel, hr⟩ := level_height (merkleNode samplePrimitives)
    (show txids samplePrimitives sampleBodies ≠ [] by nofun)
  have hsample : sampleRoot = r := by rw [sampleRoot, hr, Option.getD_some]
  rw [hsample]
  exact ⟨hr, length_of_mem_level (hlevel ▸ List.mem_singleton_self r)⟩

def sampleBlock : Block where
  header := ⟨List.replicate 36 0 ++ (sampleRoot ++ List.replicate 12 0), by
    simp [root_sampleRoot.2]⟩
  height := 100

def sampleHeaders : MockHeaders := fun _ =>
  some ⟨(sha256d samplePrimitives sampleBlock.header.bytes).reverse, by simp [sha256d_length]⟩

def sampleEnv : Env where
  chainId := 2
  burnHeaderHash := fun _ => none

def sampleClient : ElectrumClient where
  transactionGet := fun _ => ⟨partlyWitnessedTx.serialize, some 6, []⟩
  transactionGetMerkle := fun _ _ => ⟨(siblings (merkleNode samplePrimitives)
    (height sampleBodies.length) (txids samplePrimitives sampleBodies) 2).map List.reverse, 2⟩

theorem sampleBlock_recorded :
    RecordedBlock samplePrimitives sampleEnv sampleHeaders sampleBodies sampleBlock where
  two_le := by decide
  le_max := by decide
  header_length := by simp [sampleBlock, root_sampleRoot.2]
  root := by
    rw [root_sampleRoot.1, merkleRootField, sampleBlock, List.take_append, List.drop_append]
    simp [root_sampleRoot.2]
  recorded := ⟨_, rfl, rfl⟩

theorem honest_proof_accepted_sample :
    ∃ data, getBitcoinTx sampleClient (fun _ => ⟨sampleBlock.header.bytes, 100⟩)
        (displayedTxid samplePrimitives (.segwit partlyWitnessedTx)) = .ok data ∧
      ∃ tx proof, data.Carries tx sampleBlock proof ∧
        ∃ segwit, isSegwitTx tx.bytes = .ok segwit ∧
          (if segwit then
            wasSegwitTxMined samplePrimitives sampleEnv sampleHeaders sampleBlock tx.bytes proof
          else wasTxMined samplePrimitives sampleEnv sampleHeaders sampleBlock tx.bytes proof) =
            .ok true :=
  honest_proof_accepted sampleBlock_recorded (show sampleBodies[2]? = some _ from rfl)
    (show BitcoinTx.InLimits _ from ⟨by decide +kernel, by decide +kernel⟩)
    ⟨rfl, ⟨6, rfl, by decide⟩, rfl, rfl⟩

end Oracle
end BitcoinOracle
