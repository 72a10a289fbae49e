import BitcoinOracle.BitcoinReader
import BitcoinOracle.MerkleTree
import Mathlib.Data.List.Enum

/-! # Headers and Merkle proofs

The verifying half of `clarity-bitcoin-v1-05`: block headers, transaction ids and
the fourteen-fold loop over the hashes of a Merkle proof.

`verifyMerkleProof_eq` says what that loop computes: the value the proof climbs to
from the transaction id, compared with the root, provided the claimed depth is the
number of hashes.  The bits of the index choose the sides.
-/
namespace BitcoinOracle.ClarityBitcoin
open Clarity

/-- `{ header: (buff 80), height: uint }`. -/
structure Block where
  header : Buff 80
  height : Uint
  deriving DecidableEq

/-- `{ tx-index: uint, hashes: (list 14 (buff 32)), tree-depth: uint }`. -/
structure Proof where
  txIndex : Uint
  hashes : List (Buff 32)
  treeDepth : Uint
  hashes_length : hashes.length ≤ 14
  deriving DecidableEq

structure BlockHeader where
  version : Nat
  parent : Bytes
  merkleRoot : Bytes
  timestamp : Nat
  nbits : Nat
  nonce : Nat

/-- The contract's only map, `mock-burnchain-header-hashes`. -/
abbrev MockHeaders := DataMap Uint (Buff 32)

variable (P : Primitives) (env : Env) (mock : MockHeaders)

def parseBlockHeader (headerbuff : Bytes) : Result BlockHeader := do
  let parsedVersion ← readUint32 ⟨headerbuff, 0⟩
  let parsedParentHash ← readHashslice parsedVersion.ctx
  let parsedMerkleRoot ← readHashslice parsedParentHash.ctx
  let parsedTimestamp ← readUint32 parsedMerkleRoot.ctx
  let parsedNbits ← readUint32 parsedTimestamp.ctx
  let parsedNonce ← readUint32 parsedNbits.ctx
  pure ⟨parsedVersion.value, parsedParentHash.value, parsedMerkleRoot.value,
    parsedTimestamp.value, parsedNbits.value, parsedNonce.value⟩

def mockAddBurnchainBlockHeaderHash (burnHeight : Uint) (hash : Buff 32) : Call MockHeaders Bool :=
  .transaction do
    Call.modify fun mock => mock.set burnHeight hash
    pure true

def getBcHHash (bh : Uint) : Option (Buff 32) :=
  if env.chainId = 1 then env.burnHeaderHash bh else mock bh

/-- `(sha256 (sha256 m))`. -/
def sha256d (m : Bytes) : Bytes := P.sha256 (P.sha256 m)

def verifyBlockHeader (headerbuff : Bytes) (expectedBlockHeight : Uint) : Result Bool :=
  match getBcHHash env mock expectedBlockHeight with
  | some bhh => do
      let hash ← reverseBuff32 (sha256d P headerbuff)
      pure (decide (bhh.bytes = hash))
  | none => .ok false

def getReversedTxid (tx : Bytes) : Bytes := sha256d P tx

def getTxid (tx : Bytes) : Result Bytes := reverseBuff32 (getReversedTxid P tx)

def getReversedSegwitTxid (tx : Bytes) : Result Bytes := do
  let dropped ← droppedTx tx
  pure (sha256d P dropped)

def getSegwitTxid (tx : Bytes) : Result Bytes := do
  let reversed ← getReversedSegwitTxid P tx
  reverseBuff32 reversed

def isBitSet (val bit : Nat) : Bool := decide (0 < bitAnd val (bitShiftLeft 1 bit))

/-- The accumulator of the fold in `verify-merkle-proof`. -/
structure MerkleState where
  path : Nat
  rootHash : Bytes
  proofHashes : List (Buff 32)
  treeDepth : Nat
  curHash : Bytes
  verified : Bool

def innerMerkleProofVerify (ctr : Nat) (state : MerkleState) : Result MerkleState :=
  if state.verified then
    .ok state
  else if state.treeDepth ≤ ctr then
    .ok { state with verified := false }
  else do
    let isLeft := isBitSet state.path ctr
    let sibling ← .unwrapPanic (elementAt state.proofHashes ctr)
    let h1 := if isLeft then sibling.bytes else state.curHash
    let h2 := if isLeft then state.curHash else sibling.bytes
    let nextHash := sha256d P (h1 ++ h2)
    let next ← add 1 ctr
    pure { state with
      curHash := nextHash
      verified := decide (next = state.proofHashes.length ∧ nextHash = state.rootHash) }

def verifyMerkleProof (reversedTxid merkleRoot : Bytes) (proof : Proof) : Result Bool :=
  if proof.hashes.length < proof.treeDepth.val then
    .err errProofTooShort
  else do
    let leaves ← pow 2 proof.treeDepth.val
    let path ← add leaves proof.txIndex.val
    let final ← (List.range 14).foldlM (fun state ctr => innerMerkleProofVerify P ctr state)
      { path := path
        rootHash := merkleRoot
        proofHashes := proof.hashes
        curHash := reversedTxid
        treeDepth := proof.treeDepth.val
        verified := false }
    pure final.verified

/-- The common body of `was-tx-mined?` and `was-segwit-tx-mined?`. -/
def wasMined (reversedTxid : Result Bytes) (block : Block) (proof : Proof) : Result Bool := do
  let headerValid ← verifyBlockHeader P env mock block.header.bytes block.height
  let txid ← reversedTxid
  let parsedHeader ← parseBlockHeader block.header.bytes
  let merkleRoot ← reverseBuff32 parsedHeader.merkleRoot
  let merkleValid ← (verifyMerkleProof P txid merkleRoot proof).response
  if headerValid then .ofResponse merkleValid else .ok false

def wasTxMined (block : Block) (tx : Bytes) (proof : Proof) : Result Bool :=
  wasMined P env mock (.ok (getReversedTxid P tx)) block proof

def wasSegwitTxMined (block : Block) (tx : Bytes) (proof : Proof) : Result Bool :=
  wasMined P env mock (getReversedSegwitTxid P tx) block proof

/-! ## What the loop computes -/

/-- The concatenation hashed at an inner node of Bitcoin's Merkle tree. -/
def merkleNode (a b : Bytes) : Bytes := sha256d P (a ++ b)

/-- The steps of a proof: bit `k` of the index puts hash `k` on the left. -/
def Proof.steps (proof : Proof) : List (MerkleTree.Step Bytes) :=
  proof.hashes.mapIdx fun k h => (proof.txIndex.val.testBit k, h.bytes)

@[simp] theorem Proof.steps_length (proof : Proof) : proof.steps.length = proof.hashes.length :=
  List.length_mapIdx

theorem Proof.steps_getElem? (proof : Proof) (k : Nat) :
    proof.steps[k]? = proof.hashes[k]?.map fun h => (proof.txIndex.val.testBit k, h.bytes) :=
  List.getElem?_mapIdx

theorem sha256d_length (m : Bytes) : (sha256d P m).length = 32 := P.sha256_length _

/-- Below the depth, the bits of `2 ^ depth + index` are those of the index. -/
theorem isBitSet_path {depth index k : Nat} (hk : k < depth) (h128 : k < 128) :
    isBitSet (2 ^ depth + index) k = index.testBit k := by
  have hshift : bitShiftLeft 1 k = 2 ^ k := by
    rw [bitShiftLeft, Nat.mod_eq_of_lt h128, Nat.one_shiftLeft,
      Nat.mod_eq_of_lt (Nat.pow_lt_pow_right (by omega) h128)]
  rw [isBitSet, bitAnd, hshift, Nat.and_two_pow, Nat.testBit_two_pow_add_gt hk]
  cases index.testBit k with
  | false => simp
  | true => exact decide_eq_true (Nat.mul_pos Nat.one_pos (Nat.two_pow_pos k))

/-- Whether the loop has found the root after `k` turns. -/
def found (txid root : Bytes) (proof : Proof) (k : Nat) : Prop :=
  proof.treeDepth.val = proof.hashes.length ∧ 0 < proof.hashes.length ∧ proof.hashes.length ≤ k ∧
    MerkleTree.climb (merkleNode P) txid proof.steps = root

instance (txid root : Bytes) (proof : Proof) (k : Nat) : Decidable (found P txid root proof k) :=
  inferInstanceAs (Decidable (_ ∧ _))

/-- The state of the loop after `k` turns. -/
def loopState (txid root : Bytes) (proof : Proof) (k : Nat) : MerkleState where
  path := 2 ^ proof.treeDepth.val + proof.txIndex.val
  rootHash := root
  proofHashes := proof.hashes
  treeDepth := proof.treeDepth.val
  curHash := MerkleTree.climb (merkleNode P) txid (proof.steps.take (min k proof.treeDepth.val))
  verified := decide (found P txid root proof k)

theorem loopState_step {txid root : Bytes} {proof : Proof} {k : Nat}
    (hd : proof.treeDepth.val ≤ proof.hashes.length) (hk : k < 14) :
    innerMerkleProofVerify P k (loopState P txid root proof k) =
      .ok (loopState P txid root proof (k + 1)) := by
  have h14 := proof.hashes_length
  unfold innerMerkleProofVerify
  by_cases hf : found P txid root proof k
  · -- the root has been found: nothing changes any more
    have hf' : found P txid root proof (k + 1) := ⟨hf.1, hf.2.1, by have := hf.2.2.1; omega, hf.2.2.2⟩
    have hmin : min (k + 1) proof.treeDepth.val = min k proof.treeDepth.val := by
      have := hf.1
      have := hf.2.2.1
      omega
    rw [if_pos (show (loopState P txid root proof k).verified = true from decide_eq_true hf)]
    simp only [loopState, hmin, decide_eq_true hf, decide_eq_true hf']
  · rw [if_neg (show ¬ (loopState P txid root proof k).verified = true from by simpa [loopState])]
    by_cases hle : proof.treeDepth.val ≤ k
    · -- the depth is used up
      have hf' : ¬ found P txid root proof (k + 1) := by
        rintro ⟨h1, h2, -, h4⟩
        exact hf ⟨h1, h2, by omega, h4⟩
      have hmin : min (k + 1) proof.treeDepth.val = min k proof.treeDepth.val := by omega
      rw [if_pos (show (loopState P txid root proof k).treeDepth ≤ k from hle)]
      simp only [loopState, hmin, decide_eq_false hf']
    · -- one more hash
      obtain ⟨sibling, hsib⟩ : ∃ sibling, proof.hashes[k]? = some sibling :=
        ⟨_, List.getElem?_eq_getElem (by omega)⟩
      have hstep : proof.steps[k]? = some (proof.txIndex.val.testBit k, sibling.bytes) := by
        rw [proof.steps_getElem?, hsib]
        rfl
      have htake : proof.steps.take (min (k + 1) proof.treeDepth.val) =
          proof.steps.take (min k proof.treeDepth.val) ++
            [(proof.txIndex.val.testBit k, sibling.bytes)] := by
        rw [Nat.min_eq_left (by omega), Nat.min_eq_left (by omega), List.take_add_one, hstep]
        rfl
      have hfound : found P txid root proof (k + 1) ↔ 1 + k = proof.hashes.length ∧
          MerkleTree.climb (merkleNode P) txid
            (proof.steps.take (min (k + 1) proof.treeDepth.val)) = root := by
        constructor
        · rintro ⟨h1, h2, h3, h4⟩
          refine ⟨by omega, ?_⟩
          rwa [List.take_of_length_le (by rw [proof.steps_length]; omega)]
        · rintro ⟨h1, h2⟩
          rw [List.take_of_length_le (by rw [proof.steps_length]; omega)] at h2
          exact ⟨by omega, by omega, by omega, h2⟩
      rw [if_neg (show ¬ (loopState P txid root proof k).treeDepth ≤ k from hle)]
      simp only [loopState, elementAt, hsib, Result.unwrapPanic_some, Result.ok_bind,
        isBitSet_path (show k < proof.treeDepth.val by omega) (show k < 128 by omega),
        add_of_lt (show 1 + k < 2 ^ 128 by omega), Result.pure_def, hfound, htake,
        MerkleTree.climb_append, MerkleTree.climb_cons, MerkleTree.climb_nil]
      cases proof.txIndex.val.testBit k <;> rfl

theorem loopState_run {txid root : Bytes} {proof : Proof} {n : Nat}
    (hd : proof.treeDepth.val ≤ proof.hashes.length) (hn : n ≤ 14) :
    (List.range n).foldlM (fun state ctr => innerMerkleProofVerify P ctr state)
      (loopState P txid root proof 0) = .ok (loopState P txid root proof n) := by
  induction n with
  | zero => rfl
  | succ n ih =>
      rw [List.range_succ, List.foldlM_append, ih (by omega), Result.ok_bind, List.foldlM_cons,
        loopState_step P hd (by omega), Result.ok_bind, List.foldlM_nil, Result.pure_def]

/-- **What `verify-merkle-proof` answers**, when `2 ^ depth + index` is a `uint`:
that the depth is the number of hashes, at least one, and the proof climbs from
the transaction id to the root. -/
theorem verifyMerkleProof_eq {txid root : Bytes} {proof : Proof}
    (hd : proof.treeDepth.val ≤ proof.hashes.length)
    (hpath : 2 ^ proof.treeDepth.val + proof.txIndex.val < 2 ^ 128) :
    verifyMerkleProof P txid root proof = .ok (decide (found P txid root proof 14)) := by
  have h0 : ¬ found P txid root proof 0 := fun h => by
    have := h.2.1
    have := h.2.2.1
    omega
  have hinit : (⟨2 ^ proof.treeDepth.val + proof.txIndex.val, root, proof.hashes,
      proof.treeDepth.val, txid, false⟩ : MerkleState) = loopState P txid root proof 0 := by
    simp only [loopState, Nat.zero_min, List.take_zero, MerkleTree.climb_nil, decide_eq_false h0]
  rw [verifyMerkleProof, if_neg (by omega), pow_of_lt (by omega), Result.ok_bind,
    add_of_lt hpath, Result.ok_bind, hinit, loopState_run P hd (Nat.le_refl 14), Result.ok_bind]
  rfl

/-- A proof of an honest depth: neither error nor abort. -/
def Proof.WellFormed (proof : Proof) : Prop :=
  proof.treeDepth.val = proof.hashes.length ∧ 0 < proof.hashes.length ∧
    2 ^ proof.treeDepth.val + proof.txIndex.val < 2 ^ 128

theorem verifyMerkleProof_eq_true_iff {txid root : Bytes} {proof : Proof} :
    verifyMerkleProof P txid root proof = .ok true ↔
      proof.WellFormed ∧ MerkleTree.climb (merkleNode P) txid proof.steps = root := by
  by_cases hd : proof.treeDepth.val ≤ proof.hashes.length
  · by_cases hpath : 2 ^ proof.treeDepth.val + proof.txIndex.val < 2 ^ 128
    · rw [verifyMerkleProof_eq P hd hpath]
      have h14 := proof.hashes_length
      rw [Result.ok.injEq, decide_eq_true_iff]
      constructor
      · rintro ⟨h1, h2, -, h4⟩
        exact ⟨⟨h1, h2, hpath⟩, h4⟩
      · rintro ⟨⟨h1, h2, -⟩, h4⟩
        exact ⟨h1, h2, h14, h4⟩
    · have hpow : 2 ^ proof.treeDepth.val < 2 ^ 128 :=
        Nat.pow_lt_pow_right (by omega) (by have := proof.hashes_length; omega)
      rw [verifyMerkleProof, if_neg (by omega), pow_of_lt hpow, Result.ok_bind, add,
        if_neg hpath]
      simp only [Result.abort_bind, reduceCtorEq, false_iff, not_and]
      exact fun h => absurd h.2.2 hpath
  · rw [verifyMerkleProof, if_pos (by omega)]
    simp only [reduceCtorEq, false_iff, not_and]
    exact fun h => absurd h.1 (by omega)

/-! ## Headers -/

/-- The Merkle root field of a header, in the byte order it is stored in. -/
def merkleRootField (header : Bytes) : Bytes := (header.take 68).drop 36

theorem merkleRootField_length {header : Bytes} (h : header.length = 80) :
    (merkleRootField header).length = 32 := by
  rw [merkleRootField, List.length_drop, List.length_take, h]
  rfl

/-- A full header parses, and its root is the root field byte-reversed. -/
theorem parseBlockHeader_eq {header : Bytes} (h : header.length = 80) :
    ∃ parsed, parseBlockHeader header = .ok parsed ∧
      parsed.merkleRoot = (merkleRootField header).reverse := by
  have window : ∀ i j, i ≤ j → j ≤ 80 → slice header i j = some ((header.take j).drop i) :=
    fun i j hij hj => slice_eq_some.mpr ⟨hij, by omega, rfl⟩
  have hversion := readUintLe_eq (window 0 (0 + 4) (by omega) (by omega)) (by omega)
  have hparent := readHashslice_eq (window 4 (32 + 4) (by omega) (by omega)) (by omega)
  have hroot := readHashslice_eq (window 36 (32 + 36) (by omega) (by omega)) (by omega)
  have htimestamp := readUintLe_eq (window 68 (68 + 4) (by omega) (by omega)) (by omega)
  have hnbits := readUintLe_eq (window 72 (72 + 4) (by omega) (by omega)) (by omega)
  have hnonce := readUintLe_eq (window 76 (76 + 4) (by omega) (by omega)) (by omega)
  have hparse : parseBlockHeader header = .ok ⟨buffToUintLe ((header.take 4).drop 0),
      ((header.take 36).drop 4).reverse, (merkleRootField header).reverse,
      buffToUintLe ((header.take 72).drop 68), buffToUintLe ((header.take 76).drop 72),
      buffToUintLe ((header.take 80).drop 76)⟩ := by
    simp only [parseBlockHeader, readUint32, hversion, hparent, hroot, htimestamp, hnbits, hnonce,
      Result.ok_bind, Result.pure_def]
    rfl
  exact ⟨_, hparse, rfl⟩

end BitcoinOracle.ClarityBitcoin
