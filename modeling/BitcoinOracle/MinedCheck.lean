import BitcoinOracle.Oracle

/-! # What it takes to be verified as mined

On the main chain `verify-mined` looks at a buffer only through the bytes it takes
the transaction id of: the buffer itself, or what is left of it without marker, flag
and witnesses when its fifth byte is zero (`nonWitness`).  It answers `(ok true)`
when the header is the one of the claimed height and the proof climbs from that id to
the header's Merkle root (`verifyMined_eq_true_iff`).
-/
namespace BitcoinOracle
open Clarity

namespace ClarityBitcoin
variable (P : Primitives) (env : Env) (mock : MockHeaders)

/-- No two of the messages, nor of their digests, have one digest. -/
def CollisionFree (ms : List Bytes) : Prop :=
  ∀ m ∈ ms ++ ms.map P.sha256, ∀ m' ∈ ms ++ ms.map P.sha256, P.sha256 m = P.sha256 m' → m = m'

instance (ms : List Bytes) : Decidable (CollisionFree P ms) :=
  inferInstanceAs (Decidable (∀ m ∈ _, ∀ m' ∈ _, _))

variable {P} in
theorem CollisionFree.sha256d_inj {ms : List Bytes} (h : CollisionFree P ms) {m m' : Bytes}
    (hm : m ∈ ms) (hm' : m' ∈ ms) (heq : sha256d P m = sha256d P m') : m = m' := by
  have hdigest := h _ (List.mem_append_right _ (List.mem_map_of_mem hm))
    _ (List.mem_append_right _ (List.mem_map_of_mem hm')) heq
  exact h m (List.mem_append_left _ hm) m' (List.mem_append_left _ hm') hdigest

/-- The non-witness serialization a buffer denotes. -/
def nonWitness (tx : Bytes) : Result Bytes := do
  let segwit ← isSegwitTx tx
  if segwit then droppedTx tx else pure tx

/-- The transaction id of the non-witness serialization, as block explorers show it. -/
def classicTxid (tx : Bytes) : Result Bytes := do
  let segwit ← isSegwitTx tx
  if segwit then getSegwitTxid P tx else getTxid P tx

theorem nonWitness_eq_ok {tx body : Bytes} : nonWitness tx = .ok body ↔
    isSegwitTx tx = .ok true ∧ droppedTx tx = .ok body ∨
      isSegwitTx tx = .ok false ∧ tx = body := by
  unfold nonWitness
  rw [Result.bind_eq_ok]
  constructor
  · rintro ⟨segwit, hsegwit, hbody⟩
    cases segwit with
    | true => exact Or.inl ⟨hsegwit, hbody⟩
    | false => exact Or.inr ⟨hsegwit, Result.ok.inj hbody⟩
  · rintro (⟨hsegwit, hbody⟩ | ⟨hsegwit, rfl⟩)
    · exact ⟨true, hsegwit, hbody⟩
    · exact ⟨false, hsegwit, rfl⟩

theorem classicTxid_eq {tx body : Bytes} (h : nonWitness tx = .ok body) :
    classicTxid P tx = .ok (sha256d P body).reverse := by
  have hreverse := reverseBuff32_eq (sha256d_length P body)
  unfold classicTxid
  rcases nonWitness_eq_ok.mp h with ⟨hsegwit, hdropped⟩ | ⟨hsegwit, rfl⟩
  · rw [hsegwit]
    show (getReversedSegwitTxid P tx >>= fun reversed => reverseBuff32 reversed) = _
    unfold getReversedSegwitTxid
    rw [hdropped]
    exact hreverse
  · rw [hsegwit]
    exact hreverse

theorem verifyBlockHeader_eq_true_iff {header : Bytes} {height : Uint} :
    verifyBlockHeader P env mock header height = .ok true ↔
      ∃ hash, getBcHHash env mock height = some hash ∧
        hash.bytes = (sha256d P header).reverse := by
  unfold verifyBlockHeader
  rw [reverseBuff32_eq (sha256d_length P header)]
  cases getBcHHash env mock height with
  | none => simp
  | some hash => simp

/-- The proof is checked against the id, whichever way that was computed. -/
theorem wasMined_eq_true_iff {reversedTxid : Result Bytes} {block : Block} {proof : Proof} :
    wasMined P env mock reversedTxid block proof = .ok true ↔
      verifyBlockHeader P env mock block.header.bytes block.height = .ok true ∧
        ∃ txid, reversedTxid = .ok txid ∧ ∃ parsed root,
          parseBlockHeader block.header.bytes = .ok parsed ∧
          reverseBuff32 parsed.merkleRoot = .ok root ∧
          verifyMerkleProof P txid root proof = .ok true := by
  unfold wasMined
  simp only [Result.bind_eq_ok]
  constructor
  · rintro ⟨headerValid, hheader, txid, htxid, parsed, hparsed, root, hroot, response,
      hresponse, hvalid⟩
    cases headerValid with
    | false => cases hvalid
    | true =>
        refine ⟨hheader, txid, htxid, parsed, root, hparsed, hroot, ?_⟩
        -- an error of the proof is the answer, an abort is no answer
        cases hproof : verifyMerkleProof P txid root proof with
        | ok b =>
            rw [hproof] at hresponse
            cases hresponse
            exact hvalid
        | err e =>
            rw [hproof] at hresponse
            cases hresponse
            cases hvalid
        | abort r =>
            rw [hproof] at hresponse
            cases hresponse
  · rintro ⟨hheader, txid, htxid, parsed, root, hparsed, hroot, hproof⟩
    refine ⟨true, hheader, txid, htxid, parsed, hparsed, root, hroot, .ok true, ?_, rfl⟩
    rw [hproof]
    rfl

/-- With a full header: the proof climbs to the header's root. -/
theorem wasMined_eq_true_iff_climb {reversedTxid : Result Bytes} {block : Block} {proof : Proof}
    (hheader : block.header.bytes.length = 80) :
    wasMined P env mock reversedTxid block proof = .ok true ↔
      verifyBlockHeader P env mock block.header.bytes block.height = .ok true ∧
        proof.WellFormed ∧ ∃ txid, reversedTxid = .ok txid ∧
          MerkleTree.climb (merkleNode P) txid proof.steps = merkleRootField block.header.bytes := by
  obtain ⟨parsed, hparsed, hfield⟩ := parseBlockHeader_eq hheader
  have hroot : reverseBuff32 parsed.merkleRoot = .ok (merkleRootField block.header.bytes) := by
    rw [hfield, reverseBuff32_eq (by rw [List.length_reverse, merkleRootField_length hheader]),
      List.reverse_reverse]
  simp only [wasMined_eq_true_iff, verifyMerkleProof_eq_true_iff, hparsed, Result.ok.injEq]
  constructor
  · rintro ⟨hvalid, txid, htxid, _, root, rfl, hroot', hproof, hclimb⟩
    rw [hroot] at hroot'
    cases hroot'
    exact ⟨hvalid, hproof, txid, htxid, hclimb⟩
  · rintro ⟨hvalid, hproof, txid, htxid, hclimb⟩
    exact ⟨hvalid, txid, htxid, parsed, _, rfl, hroot, hproof, hclimb⟩

end ClarityBitcoin

namespace Oracle
open ClarityBitcoin
variable (P : Primitives) {env : Env} {mock : MockHeaders}

/-- **When `verify-mined` answers `(ok true)`.** -/
theorem verifyMined_eq_true_iff (hmainnet : env.chainId = 1) {tx : Buff 8192} {block : Block}
    {proof : Proof} :
    verifyMined P env mock tx block proof = .ok true ↔
      ∃ body, nonWitness tx.bytes = .ok body ∧
        wasMined P env mock (.ok (sha256d P body)) block proof = .ok true := by
  unfold verifyMined
  rw [if_pos hmainnet, Result.bind_eq_ok]
  constructor
  · rintro ⟨segwit, hsegwit, hanswer⟩
    obtain ⟨response, hresponse, htrue⟩ := Result.bind_eq_ok.mp hanswer
    split at htrue
    · -- the check that was made answered `(ok true)`
      have hmined := Result.response_eq_ok_ok.mp hresponse
      cases segwit with
      | true =>
          obtain ⟨hheader, txid, htxid, hproof⟩ := (wasMined_eq_true_iff P env mock).mp hmined
          obtain ⟨body, hbody, hid⟩ := Result.bind_eq_ok.mp htxid
          cases hid
          exact ⟨body, nonWitness_eq_ok.mpr (Or.inl ⟨hsegwit, hbody⟩),
            (wasMined_eq_true_iff P env mock).mpr ⟨hheader, _, rfl, hproof⟩⟩
      | false => exact ⟨tx.bytes, nonWitness_eq_ok.mpr (Or.inr ⟨hsegwit, rfl⟩), hmined⟩
    · cases htrue
  · rintro ⟨body, hbody, hmined⟩
    rcases nonWitness_eq_ok.mp hbody with ⟨hsegwit, hdropped⟩ | ⟨hsegwit, rfl⟩
    · have hid : getReversedSegwitTxid P tx.bytes = .ok (sha256d P body) := by
        unfold getReversedSegwitTxid
        rw [hdropped]
        rfl
      have hsegwitMined : wasSegwitTxMined P env mock block tx.bytes proof = .ok true := by
        unfold wasSegwitTxMined
        rwa [hid]
      refine ⟨true, hsegwit, ?_⟩
      rw [if_pos rfl, hsegwitMined]
      rfl
    · have hplainMined : wasTxMined P env mock block tx.bytes proof = .ok true := hmined
      refine ⟨false, hsegwit, ?_⟩
      rw [if_neg Bool.false_ne_true, hplainMined]
      rfl

/-- With a full header: the proof climbs to the header's root. -/
theorem verifyMined_eq_true_iff_climb (hmainnet : env.chainId = 1) {tx : Buff 8192} {block : Block}
    {proof : Proof} (hheader : block.header.bytes.length = 80) :
    verifyMined P env mock tx block proof = .ok true ↔
      verifyBlockHeader P env mock block.header.bytes block.height = .ok true ∧
        proof.WellFormed ∧ ∃ body, nonWitness tx.bytes = .ok body ∧
          MerkleTree.climb (merkleNode P) (sha256d P body) proof.steps =
            merkleRootField block.header.bytes := by
  simp only [verifyMined_eq_true_iff P hmainnet, wasMined_eq_true_iff_climb P env mock hheader,
    Result.ok.injEq]
  constructor
  · rintro ⟨body, hbody, hvalid, hproof, _, rfl, hclimb⟩
    exact ⟨hvalid, hproof, body, hbody, hclimb⟩
  · rintro ⟨hvalid, hproof, body, hbody, hclimb⟩
    exact ⟨body, hbody, hvalid, hproof, _, rfl, hclimb⟩

end Oracle
end BitcoinOracle
