import BitcoinOracle.HonestProof

/-! # Ids of segwit transactions, and the values of Merkle proofs

Two functions of the contract against what Bitcoin means by them.  The id of a segwit
transaction is the double hash of its legacy serialization, whatever its witnesses are,
as long as they stay within the limits of the contract; beyond the limits the contract
aborts, because the encodings of the format are prefix-free: a buffer that holds too
long a witness cannot be read in another way.

A Merkle proof stands for the value that its hashes lead to, one after another, each on
the side that a bit of the index chooses.  The loop of fourteen turns computes that
value at the depth of the proof, and compares it only when all hashes are used.
-/
namespace BitcoinOracle.ClarityBitcoin
open Clarity Encoding

/-! ## The format is prefix-free -/

section PrefixFree
variable {α ρ : Type} {mk : α → Ctx → ρ} {E : α → Bytes → Prop} {read : Ctx → Result ρ}

/-- What a reader accepts at a place is determined by the buffer. -/
theorem Reads.prefixFreeOn {xs : Bytes} (h : Reads mk E read) (hxs : Addressable xs)
    (hmk : ∀ v w c d, mk v c = mk w d → v = w ∧ c = d) : PrefixFreeOn xs E := by
  intro i x y b c hx hy hb hc
  have hi : i ≤ xs.length := by
    have := hb.le
    omega
  have hreadx := (h xs i hxs hi _).mpr ⟨x, b, hx, hb, rfl⟩
  have hready := (h xs i hxs hi _).mpr ⟨y, c, hy, hc, rfl⟩
  obtain ⟨hvalue, hctx⟩ := hmk _ _ _ _ (Result.ok.inj (hreadx.symm.trans hready))
  have hlen := congrArg Ctx.index hctx
  exact ⟨hvalue, hb.unique hc (Nat.add_left_cancel hlen)⟩

theorem parsed_mk_inj (v w : α) (c d : Ctx) (h : Parsed.mk v c = Parsed.mk w d) : v = w ∧ c = d :=
  Parsed.mk.inj h

variable {xs : Bytes} (hxs : Addressable xs)
include hxs

theorem compactSize_prefixFreeOn : PrefixFreeOn xs CompactSize :=
  readVarint_reads.prefixFreeOn hxs parsed_mk_inj

theorem varslice_prefixFreeOn : PrefixFreeOn xs EncodesVarslice :=
  readVarslice_reads.prefixFreeOn hxs parsed_mk_inj

theorem txins_prefixFreeOn : PrefixFreeOn xs (EncodesShort TxIn.Encodes) :=
  readTxins_reads.prefixFreeOn hxs fun _ _ _ _ h => by
    cases h
    exact ⟨rfl, rfl⟩

theorem txouts_prefixFreeOn : PrefixFreeOn xs (EncodesShort TxOut.Encodes) :=
  readTxouts_reads.prefixFreeOn hxs fun _ _ _ _ h => by
    cases h
    exact ⟨rfl, rfl⟩

theorem list_prefixFreeOn (h : PrefixFreeOn xs E) : PrefixFreeOn xs (EncodesList E) := by
  rintro i as as' _ _ ⟨p, body, hp, hbody, rfl⟩ ⟨p', body', hp', hbody', rfl⟩ hocc hocc'
  obtain ⟨hocc, hoccBody⟩ := occurs_append_iff.mp hocc
  obtain ⟨hocc', hoccBody'⟩ := occurs_append_iff.mp hocc'
  obtain ⟨hlen, rfl⟩ := compactSize_prefixFreeOn hxs i _ _ _ _ hp hp' hocc hocc'
  obtain ⟨rfl, rfl⟩ := h.seq hbody hbody' hlen hoccBody hoccBody'
  exact ⟨rfl, rfl⟩

end PrefixFree

/-! ## The id of a segwit transaction -/

/-- The transaction with witnesses. -/
def LegacyTx.withWitnesses (t : LegacyTx) (ws : List (List Bytes)) : WitnessTx :=
  ⟨t.version, 0, 1, t.ins, t.outs, ws, t.locktime⟩

@[simp] theorem LegacyTx.stripped_withWitnesses (t : LegacyTx) (ws : List (List Bytes)) :
    (t.withWitnesses ws).stripped = t := rfl

theorem LegacyTx.Fits.withWitnesses {t : LegacyTx} (h : t.Fits) {ws : List (List Bytes)}
    (hlen : ws.length = t.ins.length) (hws : ∀ w ∈ ws, WitnessFits w) :
    (t.withWitnesses ws).Fits where
  version := h.version
  segwitMarker := rfl
  segwitVersion := rfl
  ins_length := h.ins_length
  ins := h.ins
  outs_length := h.outs_length
  outs := h.outs
  witnesses_length := hlen
  witnesses := hws
  locktime := h.locktime

theorem compactSize_pos (n : Nat) : 0 < (compactSize n).length := by
  unfold compactSize
  split
  · exact Nat.one_pos
  split
  · exact Nat.succ_pos _
  split
  · exact Nat.succ_pos _
  · exact Nat.succ_pos _

theorem serializeVarslice_pos (s : Bytes) : 0 < (serializeVarslice s).length := by
  have := compactSize_pos s.length
  rw [serializeVarslice, List.length_append]
  omega

/-- A witness of any size is encoded, as long as it can stand in a buffer. -/
theorem encodes_witness {w : List Bytes} (h : (serializeWitness w).length < 2 ^ 64) :
    EncodesList EncodesVarslice w (serializeWitness w) := by
  have hbody : (w.flatMap serializeVarslice).length ≤ (serializeWitness w).length := by
    rw [serializeWitness, serializeList, List.length_append]
    exact Nat.le_add_left _ _
  have hcount := length_le_flatMap serializeVarslice_pos w
  refine serializeList_encodes (by omega) fun item hitem => serializeVarslice_encodes ?_
  have hone := length_le_flatMap_of_mem (f := serializeVarslice) hitem
  have hitemLength : item.length ≤ (serializeVarslice item).length := by
    rw [serializeVarslice, List.length_append]
    exact Nat.le_add_left _ _
  omega

theorem EncodesWitness.fits {w : List Bytes} {b : Bytes} (h : EncodesWitness w b) : WitnessFits w :=
  ⟨h.1, EncodesList.forall_mem (fun _ _ hitem => hitem.1) h.2⟩

theorem EncodesWitness.encodesList {w : List Bytes} {b : Bytes} (h : EncodesWitness w b) :
    EncodesList EncodesVarslice w b := by
  obtain ⟨-, p, body, hp, hbody, rfl⟩ := h
  exact ⟨p, body, hp, hbody.mono fun _ _ hitem => hitem.2, rfl⟩

/-- **Only witnesses within the limits are read.**  What the contract drops is decided
by the buffer, so the witnesses it reads are those that were written. -/
theorem witnessFits_of_drops {t : LegacyTx} (ht : t.Fits) {ws : List (List Bytes)}
    (hlen : ws.length = t.ins.length) (haddr : Addressable (t.withWitnesses ws).serialize)
    {body : Bytes} (h : Drops (t.withWitnesses ws).serialize body) : ∀ w ∈ ws, WitnessFits w := by
  obtain ⟨version, flags, ins, insBytes, outs, outsBytes, ws', wsBytes, rest, hversion, hflags, hins,
    houts, hlen', hws', -, htx, -⟩ := h
  have hread := occurs_self (t.withWitnesses ws).serialize
  have hwritten := hread
  nth_rewrite 1 [htx] at hread
  nth_rewrite 1 [WitnessTx.serialize] at hwritten
  -- the two readings agree field by field
  simp only [occurs_append_iff, bytesLe_length, hversion, hflags] at hread hwritten
  obtain ⟨-, -, hreadIns, hreadOuts, hreadWs, -⟩ := hread
  obtain ⟨-, -, -, hIns, hOuts, hWs, -⟩ := hwritten
  obtain ⟨rfl, rfl⟩ := txins_prefixFreeOn haddr _ _ _ _ _ hins
    ⟨ht.ins_length, encodes_ins ht.ins_length ht.ins⟩ hreadIns hIns
  obtain ⟨rfl, rfl⟩ := txouts_prefixFreeOn haddr _ _ _ _ _ houts
    ⟨ht.outs_length, encodes_outs ht.outs_length ht.outs⟩ hreadOuts hOuts
  have hbound : ∀ w ∈ ws, (serializeWitness w).length < 2 ^ 64 := fun w hw => by
    have hone := length_le_flatMap_of_mem (f := serializeWitness) hw
    have hall := hWs.le
    have htotal : (t.withWitnesses ws).serialize.length < 2 ^ 64 := haddr
    have : (LegacyTx.withWitnesses t ws).witnesses = ws := rfl
    rw [this] at hall
    omega
  obtain ⟨rfl, -⟩ := (list_prefixFreeOn haddr (varslice_prefixFreeOn haddr)).seq
    (hws'.mono fun _ _ hw => hw.encodesList)
    (seq_flatMap fun w hw => encodes_witness (hbound w hw)) (hlen'.trans hlen.symm) hreadWs hWs
  exact hws'.forall_mem fun _ _ hw => hw.fits

variable (P : Primitives)

/-- **The id of a segwit transaction** is the one of its legacy serialization, for every
witness data within the limits of the contract; with any other the contract aborts. -/
theorem segwit_txid_law {t : LegacyTx} (ht : t.Fits) (ws : List (List Bytes))
    (hws : ws.length = t.ins.length) (hlen : (t.withWitnesses ws).serialize.length ≤ 8192) :
    ((∀ w ∈ ws, WitnessFits w) →
      getReversedSegwitTxid P (t.withWitnesses ws).serialize = .ok (sha256d P t.serialize) ∧
      getSegwitTxid P (t.withWitnesses ws).serialize = getTxid P t.serialize ∧
      getTxid P t.serialize = .ok (sha256d P t.serialize).reverse) ∧
    ((¬ ∀ w ∈ ws, WitnessFits w) →
      ∃ x, getReversedSegwitTxid P (t.withWitnesses ws).serialize = .abort x) := by
  have haddr := addressable_of_le hlen
  constructor
  · intro hfits
    have hdrops := (ht.withWitnesses hws hfits).drops
    rw [LegacyTx.stripped_withWitnesses] at hdrops
    have hreversed : getReversedSegwitTxid P (t.withWitnesses ws).serialize =
        .ok (sha256d P t.serialize) := by
      rw [getReversedSegwitTxid, (droppedTx_eq_ok_iff haddr).mpr hdrops]
      rfl
    refine ⟨hreversed, ?_, reverseBuff32_eq (sha256d_length P t.serialize)⟩
    rw [getSegwitTxid, hreversed]
    rfl
  · intro hfits
    obtain ⟨x, hx⟩ := (droppedTx_abort_iff haddr).mpr fun ⟨_, hdrops⟩ =>
      hfits (witnessFits_of_drops ht hws haddr hdrops)
    exact ⟨x, by rw [getReversedSegwitTxid, hx]; rfl⟩

theorem segwit_txid_law_partlyWitnessed :
    (getReversedSegwitTxid Oracle.samplePrimitives partlyWitnessedTx.serialize =
      .ok (sha256d Oracle.samplePrimitives partlyWitnessedTx.stripped.serialize)) ∧
    ∃ x, getReversedSegwitTxid Oracle.samplePrimitives
      (partlyWitnessedTx.stripped.withWitnesses [[], [List.replicate 257 1]]).serialize = .abort x :=
  ⟨((segwit_txid_law Oracle.samplePrimitives (t := partlyWitnessedTx.stripped) (by decide +kernel)
      partlyWitnessedTx.witnesses rfl (by decide +kernel)).1 (by decide +kernel)).1,
    (segwit_txid_law Oracle.samplePrimitives (t := partlyWitnessedTx.stripped) (by decide +kernel)
      [[], [List.replicate 257 1]] rfl (by decide +kernel)).2 (by decide +kernel)⟩

/-! ## The value of a Merkle proof -/

/-- The value that the first `k` hashes of a proof lead to: the hash stands on the left
when its bit of the index is set, else on the right. -/
def merkleValue (reversedTxid : Bytes) (hashes : List Bytes) (txIndex : Nat) : Nat → Bytes
  | 0 => reversedTxid
  | k + 1 =>
    let curHash := merkleValue reversedTxid hashes txIndex k
    if txIndex.testBit k then sha256d P (hashes.getD k [] ++ curHash)
    else sha256d P (curHash ++ hashes.getD k [])

theorem climb_eq_merkleValue (reversedTxid : Bytes) (proof : Proof) {k : Nat}
    (hk : k ≤ proof.hashes.length) :
    MerkleTree.climb (merkleNode P) reversedTxid (proof.steps.take k) =
      merkleValue P reversedTxid (proof.hashes.map Buff.bytes) proof.txIndex.val k := by
  induction k with
  | zero => rfl
  | succ k ih =>
      have hget : proof.hashes[k]? = some proof.hashes[k] := List.getElem?_eq_getElem hk
      have hhash : (proof.hashes.map Buff.bytes).getD k [] = proof.hashes[k].bytes := by
        rw [List.getD_eq_getElem?_getD, List.getElem?_map, hget]
        rfl
      rw [List.take_add_one, proof.steps_getElem?, hget, MerkleTree.climb_append, ih (by omega),
        merkleValue, hhash]
      show MerkleTree.climbStep _ _ (proof.txIndex.val.testBit k, _) = _
      cases proof.txIndex.val.testBit k <;> rfl

/-- **What `verify-merkle-proof` answers**, for every proof whose path is a `uint`. -/
theorem verify_merkle_proof_spec (reversedTxid merkleRoot : Bytes) (proof : Proof)
    (hpath : 2 ^ proof.treeDepth.val + proof.txIndex.val < 2 ^ 128) :
    (verifyMerkleProof P reversedTxid merkleRoot proof = .err errProofTooShort ↔
      proof.hashes.length < proof.treeDepth.val) ∧
    (proof.treeDepth.val ≤ proof.hashes.length →
      verifyMerkleProof P reversedTxid merkleRoot proof =
        .ok (decide (proof.treeDepth.val = proof.hashes.length ∧ 1 ≤ proof.treeDepth.val ∧
          merkleValue P reversedTxid (proof.hashes.map Buff.bytes) proof.txIndex.val
            proof.treeDepth.val = merkleRoot))) := by
  constructor
  · constructor
    · intro herr
      by_contra hlong
      rw [verifyMerkleProof_eq P (by omega) hpath] at herr
      cases herr
    · intro hshort
      rw [verifyMerkleProof, if_pos hshort]
  · intro hlong
    rw [verifyMerkleProof_eq P hlong hpath]
    congr 2
    have h14 := proof.hashes_length
    have hclimb : proof.treeDepth.val = proof.hashes.length →
        MerkleTree.climb (merkleNode P) reversedTxid proof.steps =
          merkleValue P reversedTxid (proof.hashes.map Buff.bytes) proof.txIndex.val
            proof.treeDepth.val := by
      intro hd
      rw [← climb_eq_merkleValue P reversedTxid proof hlong,
        List.take_of_length_le (by rw [proof.steps_length]; omega)]
    apply propext
    constructor
    · rintro ⟨hd, hpos, -, hroot⟩
      exact ⟨hd, by omega, (hclimb hd).symm.trans hroot⟩
    · rintro ⟨hd, hpos, hroot⟩
      exact ⟨hd, by omega, h14, (hclimb hd).trans hroot⟩

/-- The second of two hashes stands on the left. -/
def pairProof : Proof :=
  ⟨2, [⟨List.replicate 32 1, by simp⟩, ⟨List.replicate 32 2, by simp⟩], 2, by simp⟩

theorem verify_merkle_proof_spec_pair :
    verifyMerkleProof Oracle.samplePrimitives [7]
      (merkleValue Oracle.samplePrimitives [7] (pairProof.hashes.map Buff.bytes) 2 2) pairProof =
        .ok true := by
  have hspec := (verify_merkle_proof_spec Oracle.samplePrimitives [7]
    (merkleValue Oracle.samplePrimitives [7] (pairProof.hashes.map Buff.bytes) 2 2)
    pairProof (by decide)).2 (by decide)
  rw [hspec]
  exact congrArg Clarity.Result.ok (decide_eq_true ⟨rfl, by decide, rfl⟩)

end BitcoinOracle.ClarityBitcoin
