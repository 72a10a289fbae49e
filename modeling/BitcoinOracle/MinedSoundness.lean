import BitcoinOracle.World
import BitcoinOracle.MinedCheck

/-! # What a transaction verified as mined is

A proof that climbs from the id of a transaction to the Merkle root of a block shows
that the transaction is in the block only if it climbs the whole height of the tree.
`verify-merkle-proof` asks for the height, "required because Bitcoin does not identify
merkle tree nodes as being leaves or intermediates", but takes it from the proof and
compares it with nothing but the proof's own length.

So there are two ways to have something else verified (`Forged`): 64 bytes that are
two neighbouring nodes of the tree, with the branch from their parent; and anything at
all below a transaction of the block that can be read as a pair of nodes.  They are
the only ones (`verifyMined_sound_iff`).
-/
namespace BitcoinOracle
open Clarity ClarityBitcoin MerkleTree

namespace Oracle
variable (P : Primitives)

/-- The leaves of the Merkle tree of a block. -/
def txids (txs : List Bytes) : List Bytes := txs.map (sha256d P)

/-- The two nodes of a pair, one after the other. -/
def concatPair (p : Bytes × Bytes) : Bytes := p.1 ++ p.2

/-- What is hashed to build the tree of a block and to check a proof against it. -/
def hashedMessages (txs : List Bytes) (body : Bytes) (proof : Proof) : List Bytes :=
  txs ++ body :: (treePairs (merkleNode P) (txids P txs) ++
    climbPairs (merkleNode P) (sha256d P body) proof.steps).map concatPair

/-- `body` is a pair of neighbours `k` levels above the leaves, and the proof the branch
that starts at their parent. -/
def ForgedInner (txs : List Bytes) (body : Bytes) (proof : Proof) : Prop :=
  ∃ k, k + 1 + proof.hashes.length = height txs.length ∧
    ∃ p ∈ pairs (level (merkleNode P) (txids P txs) k), body = concatPair p ∧
      IsBranch (merkleNode P) (level (merkleNode P) (txids P txs) (k + 1)) (sha256d P body)
        proof.steps

/-- The proof passes through a transaction of the block: the pair combined at some step is
one, and the steps above are its branch. -/
def ForgedBelow (txs : List Bytes) (body : Bytes) (proof : Proof) : Prop :=
  ∃ low s high, proof.steps = low ++ s :: high ∧ high.length = height txs.length ∧
    ∃ t ∈ txs, t = concatPair (stepPair (climb (merkleNode P) (sha256d P body) low) s) ∧
      IsBranch (merkleNode P) (txids P txs) (sha256d P t) high

/-- A proof of the wrong height that verifies. -/
def Forged (txs : List Bytes) (body : Bytes) (proof : Proof) : Prop :=
  proof.WellFormed ∧ (ForgedInner P txs body proof ∨ ForgedBelow P txs body proof)

variable {P}

/-! ## Nodes of 32 bytes -/

theorem txids_length (txs : List Bytes) : (txids P txs).length = txs.length := List.length_map _

theorem length_of_mem_level {txs : List Bytes} {k : Nat} {a : Bytes}
    (h : a ∈ level (merkleNode P) (txids P txs) k) : a.length = 32 := by
  cases k with
  | zero =>
      obtain ⟨t, -, rfl⟩ := List.mem_map.mp h
      exact sha256d_length P t
  | succ k =>
      rw [level_succ_eq_parents] at h
      obtain ⟨p, -, rfl⟩ := List.mem_map.mp h
      exact sha256d_length P (p.1 ++ p.2)

/-- One side of every pair a path combines is the value it has climbed to. -/
theorem length_of_mem_climbPairs {x : Bytes} {path : List (Step Bytes)} {q : Bytes × Bytes}
    (hx : x.length = 32) (hq : q ∈ climbPairs (merkleNode P) x path) :
    q.1.length = 32 ∨ q.2.length = 32 := by
  induction path generalizing x with
  | nil => cases hq
  | cons s path ih =>
      rcases List.mem_cons.mp hq with rfl | hrest
      · unfold stepPair
        split
        · exact Or.inr hx
        · exact Or.inl hx
      · exact ih (sha256d_length P _) hrest

/-- Where no two of the messages collide, no two of the pairs do. -/
theorem pair_eq_of_node_eq {txs : List Bytes} {body : Bytes} {proof : Proof}
    (hfree : CollisionFree P (hashedMessages P txs body proof)) {p q : Bytes × Bytes}
    (hp : p ∈ treePairs (merkleNode P) (txids P txs))
    (hq : q ∈ climbPairs (merkleNode P) (sha256d P body) proof.steps)
    (h : merkleNode P p.1 p.2 = merkleNode P q.1 q.2) : p = q := by
  have hmessage : ∀ r ∈ treePairs (merkleNode P) (txids P txs) ++
      climbPairs (merkleNode P) (sha256d P body) proof.steps,
      concatPair r ∈ hashedMessages P txs body proof := fun r hr =>
    List.mem_append_right _ (List.mem_cons_of_mem _ (List.mem_map_of_mem hr))
  have hconcat : p.1 ++ p.2 = q.1 ++ q.2 :=
    hfree.sha256d_inj (hmessage p (List.mem_append_left _ hp))
      (hmessage q (List.mem_append_right _ hq)) h
  obtain ⟨k, -, hpk⟩ := (mem_treePairs (merkleNode P)).mp hp
  obtain ⟨hp1, hp2⟩ := mem_of_mem_pairs hpk
  have hlen1 := length_of_mem_level hp1
  have hlen2 := length_of_mem_level hp2
  rcases length_of_mem_climbPairs (sha256d_length P body) hq with hq1 | hq2
  · obtain ⟨hl, hr⟩ := List.append_inj hconcat (hlen1.trans hq1.symm)
    exact Prod.ext hl hr
  · obtain ⟨hl, hr⟩ := List.append_inj' hconcat (hlen2.trans hq2.symm)
    exact Prod.ext hl hr

/-! ## Proofs that climb to the root -/

section Climb
variable {txs : List Bytes} {body root : Bytes} {proof : Proof}

/-- A proof of the right height. -/
theorem mem_of_climb_eq_root (htxs : txs ≠ [])
    (hroot : MerkleTree.root (merkleNode P) (txids P txs) = some root)
    (hfree : CollisionFree P (hashedMessages P txs body proof))
    (hheight : proof.hashes.length = height txs.length)
    (h : climb (merkleNode P) (sha256d P body) proof.steps = root) : body ∈ txs := by
  have hids : txids P txs ≠ [] := fun hnil => htxs (List.map_eq_nil_iff.mp hnil)
  have hlength : proof.steps.length = height (txids P txs).length := by
    rw [proof.steps_length, txids_length, hheight]
  have hbranch := isBranch_of_climb_eq_root hids hroot
    (fun p hp q hq => pair_eq_of_node_eq hfree hp hq) (le_of_eq hlength) h
  rw [hlength, Nat.sub_self, level_zero] at hbranch
  obtain ⟨t, ht, hid⟩ := List.mem_map.mp hbranch.mem
  have heq : t = body := hfree.sha256d_inj (List.mem_append_left _ ht)
    (List.mem_append_right _ List.mem_cons_self) hid
  rwa [← heq]

/-- A proof that is too short. -/
theorem forgedInner_of_climb_eq_root (htxs : txs ≠ [])
    (hroot : MerkleTree.root (merkleNode P) (txids P txs) = some root)
    (hfree : CollisionFree P (hashedMessages P txs body proof))
    (hheight : proof.hashes.length < height txs.length)
    (h : climb (merkleNode P) (sha256d P body) proof.steps = root) :
    ForgedInner P txs body proof := by
  have hids : txids P txs ≠ [] := fun hnil => htxs (List.map_eq_nil_iff.mp hnil)
  obtain ⟨k, hk⟩ : ∃ k, k + 1 + proof.hashes.length = height txs.length :=
    ⟨height txs.length - proof.hashes.length - 1, by omega⟩
  have hlevel : height (txids P txs).length - proof.steps.length = k + 1 := by
    rw [proof.steps_length, txids_length]
    omega
  have hbranch := isBranch_of_climb_eq_root hids hroot
    (fun p hp q hq => pair_eq_of_node_eq hfree hp hq)
    (by rw [proof.steps_length, txids_length]; omega) h
  rw [hlevel] at hbranch
  -- where the branch starts is a node of some pair
  have hmem := hbranch.mem
  rw [level_succ_eq_parents] at hmem
  obtain ⟨p, hp, hnode⟩ := List.mem_map.mp hmem
  have hpair : p ∈ treePairs (merkleNode P) (txids P txs) :=
    (mem_treePairs (merkleNode P)).mpr ⟨k, by rw [txids_length]; omega, hp⟩
  have hbody : concatPair p = body := hfree.sha256d_inj
    (List.mem_append_right _ (List.mem_cons_of_mem _
      (List.mem_map_of_mem (List.mem_append_left _ hpair))))
    (List.mem_append_right _ List.mem_cons_self) hnode
  exact ⟨k, hk, p, hp, hbody.symm, hbranch⟩

/-- A proof that is too long. -/
theorem forgedBelow_of_climb_eq_root (htxs : txs ≠ [])
    (hroot : MerkleTree.root (merkleNode P) (txids P txs) = some root)
    (hfree : CollisionFree P (hashedMessages P txs body proof))
    (hheight : height txs.length < proof.hashes.length)
    (h : climb (merkleNode P) (sha256d P body) proof.steps = root) :
    ForgedBelow P txs body proof := by
  have hids : txids P txs ≠ [] := fun hnil => htxs (List.map_eq_nil_iff.mp hnil)
  -- the last steps, as many as the tree is high, and the one before them
  obtain ⟨low, s, high, hsteps, hhigh⟩ : ∃ low s high, proof.steps = low ++ s :: high ∧
      high.length = height txs.length := by
    have hcut : proof.hashes.length - height txs.length - 1 < proof.steps.length := by
      rw [proof.steps_length]
      omega
    refine ⟨_, _, _, (List.take_append_drop _ _).symm.trans
      (congrArg _ (List.drop_eq_getElem_cons hcut)), ?_⟩
    rw [List.length_drop, proof.steps_length]
    omega
  have hcut : proof.steps = (low ++ [s]) ++ high := by
    rw [hsteps, ← List.append_cons]
  rw [hcut] at h
  have hbranch := isBranch_drop_of_climb_eq_root hids hroot
    (fun p hp q hq => pair_eq_of_node_eq hfree hp (by rwa [hcut]))
    (by rw [txids_length, hhigh]) h
  -- they are the branch of a leaf, which is the node of the pair before them
  rw [climb_append, climb_cons, climb_nil] at hbranch
  obtain ⟨t, ht, hnode⟩ := List.mem_map.mp hbranch.mem
  have hpair : stepPair (climb (merkleNode P) (sha256d P body) low) s ∈
      climbPairs (merkleNode P) (sha256d P body) proof.steps := by
    rw [hsteps, climbPairs_append]
    exact List.mem_append_right _ List.mem_cons_self
  have heq : t = concatPair (stepPair (climb (merkleNode P) (sha256d P body) low) s) :=
    hfree.sha256d_inj (List.mem_append_left _ ht)
      (List.mem_append_right _ (List.mem_cons_of_mem _
        (List.mem_map_of_mem (List.mem_append_right _ hpair)))) hnode
  refine ⟨low, s, high, hsteps, hhigh, t, ht, heq, ?_⟩
  rwa [hnode]

/-- Forged proofs climb to the root. -/
theorem Forged.climb_eq_root (htxs : txs ≠ [])
    (hroot : MerkleTree.root (merkleNode P) (txids P txs) = some root)
    (h : Forged P txs body proof) :
    climb (merkleNode P) (sha256d P body) proof.steps = root := by
  have hids : txids P txs ≠ [] := fun hnil => htxs (List.map_eq_nil_iff.mp hnil)
  obtain ⟨r, hlevel, hr⟩ := level_height (merkleNode P) hids
  obtain rfl : r = root := Option.some.inj (hr.symm.trans hroot)
  rw [txids_length] at hlevel
  rcases h.2 with ⟨k, hk, p, -, -, hbranch⟩ | ⟨low, s, high, hsteps, hhigh, t, -, rfl, hbranch⟩
  · apply hbranch.climb_eq
    rw [← level_add, proof.steps_length, hk]
    exact hlevel
  · rw [hsteps, climb_append, climb_cons]
    apply hbranch.climb_eq
    rw [hhigh]
    exact hlevel

end Climb

/-! ## Verification -/

/-- **When `verify-mined` is sound.**  For a block of the main chain, whatever the buffer
and the proof: what is verified as mined is in the block if and only if the buffer does
not denote something forged for that proof that is not in the block. -/
theorem verifyMined_sound_iff {env : Env} {mock : MockHeaders} {txs : List Bytes}
    {header : Buff 80} {height : Uint} {hash : Buff 32} {tx : Buff 8192} {proof : Proof}
    (hmainnet : env.chainId = 1) (htxs : txs ≠ []) (hheader : header.bytes.length = 80)
    (hroot : MerkleTree.root (merkleNode P) (txids P txs) = some (merkleRootField header.bytes))
    (hrecorded : env.burnHeaderHash height = some hash)
    (hhash : hash.bytes = (sha256d P header.bytes).reverse)
    (hfree : ∀ body, nonWitness tx.bytes = .ok body →
      CollisionFree P (hashedMessages P txs body proof)) :
    (verifyMined P env mock tx ⟨header, height⟩ proof = .ok true →
        ∃ body ∈ txs, nonWitness tx.bytes = .ok body) ↔
      ∀ body, nonWitness tx.bytes = .ok body → Forged P txs body proof → body ∈ txs := by
  have hvalid : verifyBlockHeader P env mock header.bytes height = .ok true := by
    apply (verifyBlockHeader_eq_true_iff P env mock).mpr
    refine ⟨hash, ?_, hhash⟩
    unfold getBcHHash
    rwa [if_pos hmainnet]
  rw [verifyMined_eq_true_iff_climb P hmainnet hheader]
  constructor
  · intro hsound body hbody hforged
    obtain ⟨body', hmem, hbody'⟩ :=
      hsound ⟨hvalid, hforged.1, body, hbody, hforged.climb_eq_root htxs hroot⟩
    rw [hbody] at hbody'
    cases hbody'
    exact hmem
  · rintro hforged ⟨-, hproof, body, hbody, hclimb⟩
    refine ⟨body, ?_, hbody⟩
    rcases Nat.lt_trichotomy proof.hashes.length (MerkleTree.height txs.length) with
      hshort | hequal | hlong
    · exact hforged body hbody ⟨hproof,
        Or.inl (forgedInner_of_climb_eq_root htxs hroot (hfree body hbody) hshort hclimb)⟩
    · exact mem_of_climb_eq_root htxs hroot (hfree body hbody) hequal hclimb
    · exact hforged body hbody ⟨hproof,
        Or.inr (forgedBelow_of_climb_eq_root htxs hroot (hfree body hbody) hlong hclimb)⟩

section Sample
open Sample

def bitcoinTxC : Buff 8192 := ⟨0x01 :: 0x00 :: 0x00 :: 0x00 :: 0x01 :: (bytesBe 32
    0x3333333333333333333333333333333333333333333333333333333333333333 ++
  bytesBe 24 0x0000000000ffffffff01b80b000000000000015300000000), by decide⟩

/-- A block of three transactions, hence of a tree of two levels above the leaves. -/
def wideBlock : List Bytes := [bitcoinTxA.bytes, bitcoinTxB.bytes, bitcoinTxC.bytes]

def wideHeader : Buff 80 :=
  ⟨bytesBe 4 0x00000020 ++ (bytesBe 32 0 ++
    (bytesBe 32 0xa186edee1e27528f05d30c9314d24ef9e868076df559be2b44daac8d72ee3cc6 ++
      bytesBe 12 0x58f35365ffff7f2000000000)), by simp⟩

def wideHeaderHash : Buff 32 :=
  ⟨bytesBe 32 0x190bf0898ba80f40d350128fb7cceb45cebd290cf3e74acbda6b3dc72c0c3623, by simp⟩

def wideMainnet : Env where
  chainId := 1
  burnHeaderHash := fun height => if height = 800001 then some wideHeaderHash else none

/-- The ids of the first two transactions, one after the other. -/
def innerNode : Buff 8192 := ⟨
  bytesBe 32 0xd8721dea30fd7b487c2d360d286b86ae353f1399cc47015307e3f5409c6a2999 ++
    bytesBe 32 0x904cca9d22777868c96aeeef7089503d568546aa175885ad2d11b6cb4bd1a420, by simp⟩

/-- The branch from their parent. -/
def innerProof : Proof where
  txIndex := 0
  hashes := [⟨bytesBe 32 0xf3289e0fdfb7df3e6b15847c45d52c685b10dc951ae5356895e5100ae123a28d,
    by simp⟩]
  treeDepth := 1
  hashes_length := by decide

theorem innerNode_checked :
    MerkleTree.root (merkleNode primitives) (txids primitives wideBlock) =
        some (merkleRootField wideHeader.bytes) ∧
      wideHeaderHash.bytes = (sha256d primitives wideHeader.bytes).reverse ∧
      CollisionFree primitives
        (hashedMessages primitives wideBlock innerNode.bytes innerProof) ∧
      nonWitness innerNode.bytes = .ok innerNode.bytes ∧
      verifyMined primitives wideMainnet .empty innerNode ⟨wideHeader, 800001⟩ innerProof =
        .ok true := by
  decide +kernel

/-- Two ids of the block are verified as a mined transaction, which they are not. -/
theorem inner_node_verified :
    wideMainnet.chainId = 1 ∧ wideHeader.bytes.length = 80 ∧
      MerkleTree.root (merkleNode primitives) (txids primitives wideBlock) =
        some (merkleRootField wideHeader.bytes) ∧
      wideMainnet.burnHeaderHash 800001 = some wideHeaderHash ∧
      wideHeaderHash.bytes = (sha256d primitives wideHeader.bytes).reverse ∧
      CollisionFree primitives
        (hashedMessages primitives wideBlock innerNode.bytes innerProof) ∧
      verifyMined primitives wideMainnet .empty innerNode ⟨wideHeader, 800001⟩ innerProof =
        .ok true ∧
      nonWitness innerNode.bytes = .ok innerNode.bytes ∧ innerNode.bytes ∉ wideBlock := by
  obtain ⟨hroot, hhash, hfree, hbody, hverified⟩ := innerNode_checked
  exact ⟨rfl, by decide, hroot, rfl, hhash, hfree, hverified, hbody, by decide⟩

/-- So they are forged, as only forgeries are verified without being in the block. -/
theorem forged_innerNode : Forged primitives wideBlock innerNode.bytes innerProof := by
  obtain ⟨hroot, hhash, hfree, hbody, hverified⟩ := innerNode_checked
  have honly : ∀ body, nonWitness innerNode.bytes = .ok body → body = innerNode.bytes :=
    fun body h => Result.ok.inj (h.symm.trans hbody)
  have hcollision : ∀ body, nonWitness innerNode.bytes = .ok body →
      CollisionFree primitives (hashedMessages primitives wideBlock body innerProof) := by
    intro body h
    rwa [honly body h]
  by_contra hgenuine
  have hsound : verifyMined primitives wideMainnet .empty innerNode ⟨wideHeader, 800001⟩
      innerProof = .ok true → ∃ body ∈ wideBlock, nonWitness innerNode.bytes = .ok body := by
    apply (verifyMined_sound_iff rfl (by decide) (by decide) hroot rfl hhash hcollision).mpr
    intro body h hforged
    rw [honly body h] at hforged
    exact absurd hforged hgenuine
  obtain ⟨body, hmem, h⟩ := hsound hverified
  rw [honly body h] at hmem
  exact absurd hmem (by decide)

end Sample

end Oracle
end BitcoinOracle
