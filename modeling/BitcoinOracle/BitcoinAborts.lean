import BitcoinOracle.TransactionRoundTrip
import BitcoinOracle.MinedCheck
import BitcoinOracle.Sha256

/-! # What aborts the Bitcoin contract

A malformed transaction, header or proof should be answered with an error code.  It is
not always: a witness that announces more than 62 items aborts `parse-wtx`, a buffer
that starts like a segwit transaction and is none aborts `was-segwit-tx-mined?`, and an
index that does not fit above the depth aborts both checks.  Nothing else aborts.
-/
namespace BitcoinOracle
open Clarity Result

namespace ClarityBitcoin
variable (P : Primitives) (env : Env) (mock : MockHeaders)

/-- What is left of the buffer without marker, flag and witnesses exists. -/
def SegwitLayout (tx : Bytes) : Prop := ∃ body, Drops tx body

/-- `2 ^ depth + index` is a `uint`, unless the header or the proof are too short for it
to be computed. -/
def IndexFits (block : Block) (proof : Proof) : Prop :=
  block.header.bytes.length < 80 ∨ proof.hashes.length < proof.treeDepth.val ∨
    2 ^ proof.treeDepth.val + proof.txIndex.val < 2 ^ 128

theorem responds_isSegwitTx {tx : Bytes} (htx : Addressable tx) : Responds (isSegwitTx tx) := by
  rw [isSegwitTx_eq htx]
  cases tx[4]? with
  | none => exact responds_err _
  | some marker => exact responds_ok _

theorem responds_iff_not_exists {α : Type} {r : Result α} : Responds r ↔ ¬ ∃ x, r = .abort x :=
  not_exists.symm

theorem responds_getReversedSegwitTxid_iff {tx : Bytes} (htx : Addressable tx) :
    Responds (getReversedSegwitTxid P tx) ↔ SegwitLayout tx := by
  have hdropped : Responds (droppedTx tx) ↔ SegwitLayout tx := by
    rw [responds_iff_not_exists, droppedTx_abort_iff htx, not_not]
    rfl
  rw [← hdropped, getReversedSegwitTxid, responds_bind_iff]
  exact and_iff_left fun _ _ => responds_ok _

theorem responds_verifyMerkleProof_iff {txid root : Bytes} {proof : Proof} :
    Responds (verifyMerkleProof P txid root proof) ↔
      proof.hashes.length < proof.treeDepth.val ∨
        2 ^ proof.treeDepth.val + proof.txIndex.val < 2 ^ 128 := by
  by_cases hd : proof.treeDepth.val ≤ proof.hashes.length
  · rw [or_iff_right (Nat.not_lt.mpr hd)]
    by_cases hpath : 2 ^ proof.treeDepth.val + proof.txIndex.val < 2 ^ 128
    · rw [verifyMerkleProof_eq P hd hpath]
      exact iff_of_true (responds_ok _) hpath
    · have hpow : 2 ^ proof.treeDepth.val < 2 ^ 128 :=
        Nat.pow_lt_pow_right (by omega) (by have := proof.hashes_length; omega)
      rw [verifyMerkleProof, if_neg (Nat.not_lt.mpr hd), pow_of_lt hpow, ok_bind, add, if_neg hpath]
      exact iff_of_false (not_responds_abort _) hpath
  · rw [verifyMerkleProof, if_pos (Nat.lt_of_not_le hd)]
    exact iff_of_true (responds_err _) (Or.inl (Nat.lt_of_not_le hd))

theorem verifyBlockHeader_ok (header : Bytes) (height : Uint) :
    ∃ valid, verifyBlockHeader P env mock header height = .ok valid := by
  unfold verifyBlockHeader
  rw [reverseBuff32_eq (sha256d_length P header)]
  cases getBcHHash env mock height with
  | none => exact ⟨_, rfl⟩
  | some hash => exact ⟨_, rfl⟩

/-- `parse-block-header` runs out of bounds on a header that is too short. -/
theorem parseBlockHeader_length {header : Bytes} (h : Addressable header) {parsed : BlockHeader}
    (hparsed : parseBlockHeader header = .ok parsed) : 80 ≤ header.length := by
  unfold parseBlockHeader at hparsed
  simp only [Result.bind_eq_ok] at hparsed
  obtain ⟨p₁, h₁, p₂, h₂, p₃, h₃, p₄, h₄, p₅, h₅, p₆, h₆, -⟩ := hparsed
  obtain ⟨_, _, ⟨-, rfl⟩, hocc₁, rfl⟩ := (readUint32_reads header _ h (Nat.zero_le _) p₁).mp h₁
  obtain ⟨_, _, ⟨hlen₂, rfl⟩, hocc₂, rfl⟩ := (readHashslice_reads header _ h hocc₁.le p₂).mp h₂
  obtain ⟨_, _, ⟨hlen₃, rfl⟩, hocc₃, rfl⟩ := (readHashslice_reads header _ h hocc₂.le p₃).mp h₃
  obtain ⟨_, _, ⟨-, rfl⟩, hocc₄, rfl⟩ := (readUint32_reads header _ h hocc₃.le p₄).mp h₄
  obtain ⟨_, _, ⟨-, rfl⟩, hocc₅, rfl⟩ := (readUint32_reads header _ h hocc₄.le p₅).mp h₅
  obtain ⟨_, _, ⟨-, rfl⟩, hocc₆, rfl⟩ := (readUint32_reads header _ h hocc₅.le p₆).mp h₆
  have hle := hocc₆.le
  simp only [bytesLe_length, List.length_reverse, hlen₂, hlen₃] at hle
  exact hle

theorem responds_parseBlockHeader {header : Bytes} (h : Addressable header) :
    Responds (parseBlockHeader header) := by
  have htotal : Total fun ctx => (do
      let parsedVersion ← readUint32 ctx
      let parsedParentHash ← readHashslice parsedVersion.ctx
      let parsedMerkleRoot ← readHashslice parsedParentHash.ctx
      let parsedTimestamp ← readUint32 parsedMerkleRoot.ctx
      let parsedNbits ← readUint32 parsedTimestamp.ctx
      let parsedNonce ← readUint32 parsedNbits.ctx
      pure (⟨parsedVersion.value, parsedParentHash.value, parsedMerkleRoot.value,
        parsedTimestamp.value, parsedNbits.value, parsedNonce.value⟩ : BlockHeader)) := by
    refine Total.bind readUint32_total readUint32_reads fun _ _ _ => ?_
    dsimp only
    refine Total.bind readHashslice_total readHashslice_reads fun _ _ _ => ?_
    dsimp only
    refine Total.bind readHashslice_total readHashslice_reads fun _ _ _ => ?_
    dsimp only
    refine Total.bind readUint32_total readUint32_reads fun _ _ _ => ?_
    dsimp only
    refine Total.bind readUint32_total readUint32_reads fun _ _ _ => ?_
    dsimp only
    refine Total.bind readUint32_total readUint32_reads fun _ _ _ => ?_
    exact .ret _
  exact total_iff.mp htotal header 0 h (Nat.zero_le _)

/-- The common body of the two checks, for an id that is computed without an error. -/
theorem responds_wasMined_iff {reversedTxid : Result Bytes} {block : Block} {proof : Proof}
    (herr : ∀ e, reversedTxid ≠ .err e) :
    Responds (wasMined P env mock reversedTxid block proof) ↔
      Responds reversedTxid ∧ IndexFits block proof := by
  have hheader : Addressable block.header.bytes :=
    Nat.lt_of_le_of_lt block.header.length_le (by decide)
  obtain ⟨headerValid, hvalid⟩ :=
    verifyBlockHeader_ok P env mock block.header.bytes block.height
  unfold wasMined
  rw [hvalid, ok_bind]
  cases reversedTxid with
  | err e => exact absurd rfl (herr e)
  | abort x => simp
  | ok txid =>
      rw [ok_bind]
      by_cases hlen : block.header.bytes.length = 80
      · obtain ⟨parsed, hparsed, hfield⟩ := parseBlockHeader_eq hlen
        have hroot : reverseBuff32 parsed.merkleRoot = .ok parsed.merkleRoot.reverse := by
          refine reverseBuff32_eq ?_
          rw [hfield, List.length_reverse, merkleRootField_length hlen]
        rw [hparsed, ok_bind, hroot, ok_bind, responds_bind_iff, responds_response_iff,
          responds_verifyMerkleProof_iff]
        constructor
        · rintro ⟨hproof, -⟩
          exact ⟨responds_ok _, Or.inr hproof⟩
        · rintro ⟨-, hshort | hproof⟩
          · omega
          · refine ⟨hproof, fun merkleValid _ => ?_⟩
            cases headerValid with
            | true => exact responds_ofResponse merkleValid
            | false => exact responds_ok _
      · have hshort : block.header.bytes.length < 80 :=
          Nat.lt_of_le_of_ne block.header.length_le hlen
        refine iff_of_true ?_ ⟨responds_ok _, Or.inl hshort⟩
        refine responds_bind_iff.mpr ⟨responds_parseBlockHeader hheader, fun parsed hparsed => ?_⟩
        exact absurd (parseBlockHeader_length hheader hparsed) (Nat.not_le.mpr hshort)

theorem responds_wasTxMined_iff {block : Block} {tx : Bytes} {proof : Proof} :
    Responds (wasTxMined P env mock block tx proof) ↔ IndexFits block proof := by
  rw [wasTxMined, responds_wasMined_iff]
  · exact and_iff_right (responds_ok _)
  · nofun

theorem responds_wasSegwitTxMined_iff {block : Block} {tx : Bytes} (htx : Addressable tx)
    {proof : Proof} :
    Responds (wasSegwitTxMined P env mock block tx proof) ↔
      SegwitLayout tx ∧ IndexFits block proof := by
  rw [wasSegwitTxMined, responds_wasMined_iff P env mock, responds_getReversedSegwitTxid_iff P htx]
  intro e he
  rcases Result.bind_eq_err.mp he with h | ⟨_, -, h⟩
  · exact droppedTx_ne_err h
  · cases h

end ClarityBitcoin

namespace Oracle
open ClarityBitcoin
variable (P : Primitives) (env : Env) (mock : MockHeaders)

/-- What `verify-mined` needs on the main chain: nothing of a buffer of fewer than five
bytes, the layout of a segwit transaction if the fifth is zero. -/
def Checkable (tx : Bytes) (block : Block) (proof : Proof) : Prop :=
  ∀ marker, tx[4]? = some marker → (marker = 0 → SegwitLayout tx) ∧ IndexFits block proof

theorem responds_verifyMined_iff {tx : Buff 8192} {block : Block} {proof : Proof} :
    Responds (verifyMined P env mock tx block proof) ↔
      (env.chainId = 1 → Checkable tx.bytes block proof) := by
  have htx := Buff.addressable tx
  unfold verifyMined Checkable
  by_cases hmainnet : env.chainId = 1
  · rw [if_pos hmainnet, isSegwitTx_eq htx]
    cases tx.bytes[4]? with
    | none => exact iff_of_true (responds_err _) fun _ => nofun
    | some marker =>
        show Responds (Result.ok (decide (marker = 0)) >>= _) ↔ _
        rw [ok_bind, responds_bind_iff, and_iff_left, responds_response_iff]
        · simp only [hmainnet, Option.some.injEq, forall_const, forall_eq']
          by_cases hzero : marker = 0
          · rw [if_pos (decide_eq_true hzero), responds_wasSegwitTxMined_iff P env mock htx]
            simp only [hzero, forall_const]
          · rw [if_neg (by rwa [decide_eq_true_iff]), responds_wasTxMined_iff]
            simp only [hzero, false_implies, true_and]
        · -- whatever the check answered, the answer to it is a response
          rintro (_ | _ | _) -
          · exact responds_err _
          · exact responds_err _
          · exact responds_ok _
  · rw [if_neg hmainnet]
    exact iff_of_true (responds_ok _) fun h => absurd h hmainnet

/-- **When the entry points respond.** -/
theorem responds_iff (tx : Buff 8192) (block : Block) (proof : Proof) :
    Responds (isSegwitTx tx.bytes) ∧ Responds (parseTx tx.bytes) ∧
      (Responds (parseWtx tx.bytes) ↔ ¬ OverfullTx tx.bytes) ∧
      (Responds (wasTxMined P env mock block tx.bytes proof) ↔ IndexFits block proof) ∧
      (Responds (wasSegwitTxMined P env mock block tx.bytes proof) ↔
        SegwitLayout tx.bytes ∧ IndexFits block proof) ∧
      (Responds (verifyMined P env mock tx block proof) ↔
        (env.chainId = 1 → Checkable tx.bytes block proof)) := by
  have htx := Buff.addressable tx
  refine ⟨responds_isSegwitTx htx, parseTx_ne_abort htx, ?_, responds_wasTxMined_iff P env mock,
    responds_wasSegwitTxMined_iff P env mock htx, responds_verifyMined_iff P env mock⟩
  rw [responds_iff_not_exists, parseWtx_abort_iff htx]

/-! ## Inputs that abort -/

/-- One input, and a witness that announces 63 items. -/
def overfullTx : Buff 8192 :=
  ⟨[2, 0, 0, 0, 0, 1, 1] ++ (List.replicate 36 0 ++ [0, 255, 255, 255, 255, 0, 63]), by decide⟩

/-- A version and a zero byte. -/
def bareMarker : Buff 8192 := ⟨[2, 0, 0, 0, 0], by decide⟩

def emptyBuff : Buff 8192 := ⟨[], by decide⟩

def zeroBlock : Block := ⟨⟨List.replicate 80 0, by decide⟩, 0⟩

theorem lastIndex_hashes : ([] : List (Buff 32)).length ≤ 14 := by decide

def lastIndex : Proof := ⟨⟨2 ^ 128 - 1, by decide⟩, [], 0, lastIndex_hashes⟩

def bareMainnet : Env where
  chainId := 1
  burnHeaderHash := fun _ => none

/-- Malformed transactions and indices abort instead of being answered. -/
theorem malformed_aborts :
    parseWtx overfullTx.bytes = .abort .unwrapFailure ∧
      verifyMined (Sha256.primitives fun _ _ => .error 0) bareMainnet (fun _ => none) bareMarker
        zeroBlock lastIndex = .abort .unwrapFailure ∧
      wasTxMined (Sha256.primitives fun _ _ => .error 0) bareMainnet (fun _ => none) zeroBlock
        emptyBuff.bytes lastIndex = .abort .arithmeticOverflow := by
  decide +kernel

end Oracle
end BitcoinOracle
