import BitcoinOracle.MinedRecords

/-! # The keys of Bitcoin transactions

The registry knows a Bitcoin transaction by the buffer a relayer submits, while the
Merkle proof is checked against the id of its non-witness serialization.  A
transaction without marker and flag has one buffer only, but every choice of
witnesses makes another one of the same id: one transaction can be recorded, and one
event indexed, under several keys.

At most one of them is not in segwit form (`mined_keys`).
-/
namespace BitcoinOracle
open Clarity Oracle ClarityBitcoin

/-- A height is recorded under the key, or an event is indexed under it. -/
def Registries.HasKey (r : Registries) (key : Buff 8192) : Prop :=
  (∃ height, RegistryV102.getBitcoinTxMinedOrFail r key = .ok height) ∨
    ∃ output offset record,
      RegistryV102.getBitcoinTxIndexedOrFail r key output offset = .ok record

namespace World
variable (P : Primitives)

/-- Two buffers of one transaction id that denote something. -/
theorem nonWitness_eq_of_classicTxid_eq {tx tx' body body' : Bytes}
    (hbody : nonWitness tx = .ok body) (hbody' : nonWitness tx' = .ok body')
    (hfree : CollisionFree P [body, body']) (htxid : classicTxid P tx = classicTxid P tx') :
    body = body' := by
  rw [classicTxid_eq P hbody, classicTxid_eq P hbody', Result.ok.injEq,
    List.reverse_inj] at htxid
  exact hfree.sha256d_inj (by simp) (by simp) htxid

/-- A buffer not in segwit form denotes itself. -/
theorem eq_of_nonWitness_eq {tx tx' : Buff 8192} {body : Bytes}
    (hbody : nonWitness tx.bytes = .ok body) (hbody' : nonWitness tx'.bytes = .ok body) :
    tx = tx' ∨ isSegwitTx tx.bytes = .ok true ∨ isSegwitTx tx'.bytes = .ok true := by
  rcases nonWitness_eq_ok.mp hbody with ⟨hsegwit, -⟩ | ⟨-, hself⟩
  · exact Or.inr (Or.inl hsegwit)
  · rcases nonWitness_eq_ok.mp hbody' with ⟨hsegwit', -⟩ | ⟨-, hself'⟩
    · exact Or.inr (Or.inr hsegwit')
    · exact Or.inl (Buff.ext (hself.trans hself'.symm))

/-- A key verified on the main chain denotes something. -/
theorem VerifiedAt.exists_nonWitness {ts : List Transaction} {tx : Buff 8192} {height : Uint}
    (h : VerifiedAt P ts tx height) (hmainnet : ∀ t ∈ ts, t.env.chainId = 1) :
    ∃ body, nonWitness tx.bytes = .ok body := by
  obtain ⟨t, ht, mock, block, proof, -, hverified⟩ := h
  obtain ⟨body, hbody, -⟩ := (verifyMined_eq_true_iff P (hmainnet t ht)).mp hverified
  exact ⟨body, hbody⟩

theorem exists_nonWitness_run {w₀ : World} {ts : List Transaction}
    (hrecords : w₀.registries.NoRecords) (hdirect : ∀ t ∈ ts, ¬ t.call.IsDirectWrite)
    (hmainnet : ∀ t ∈ ts, t.env.chainId = 1) {key : Buff 8192}
    (hkey : ((deployment P).run w₀ ts).registries.HasKey key) :
    ∃ body, nonWitness key.bytes = .ok body := by
  have hrun := recordsVerified_run P hrecords hdirect
  have hmined : (((deployment P).run w₀ ts).registries.mined key).isSome = true := by
    rcases hkey with ⟨height, hheight⟩ | ⟨output, offset, record, hrecord⟩
    · rw [RegistryV102.getBitcoinTxMinedOrFail_eq, Result.unwrap_eq_ok] at hheight
      rw [hheight]
      rfl
    · rw [RegistryV102.getBitcoinTxIndexedOrFail_eq, Result.unwrap_eq_ok] at hrecord
      exact hrun.indexed ⟨key, output, offset⟩ (by rw [hrecord]; rfl)
  obtain ⟨height, hheight⟩ := Option.isSome_iff_exists.mp hmined
  exact (hrun.heights key height hheight).exists_nonWitness P hmainnet

/-- **One key per Bitcoin transaction, but for segwit forms.**  After a run on the main
chain from empty records, in which nobody writes to a registry past the oracle, every
key of a mined transaction denotes a non-witness serialization, and so does the
transaction of every indexed event.  Keys of one transaction id denote the same, and
at most one of them is not in segwit form. -/
theorem mined_keys {w₀ : World} {ts : List Transaction} (hrecords : w₀.registries.NoRecords)
    (hdirect : ∀ t ∈ ts, ¬ t.call.IsDirectWrite) (hmainnet : ∀ t ∈ ts, t.env.chainId = 1)
    {key key' : Buff 8192} (hkey : ((deployment P).run w₀ ts).registries.HasKey key)
    (hkey' : ((deployment P).run w₀ ts).registries.HasKey key') :
    ∃ body body', nonWitness key.bytes = .ok body ∧ nonWitness key'.bytes = .ok body' ∧
      (CollisionFree P [body, body'] → classicTxid P key.bytes = classicTxid P key'.bytes →
        body = body' ∧
          (key = key' ∨ isSegwitTx key.bytes = .ok true ∨ isSegwitTx key'.bytes = .ok true)) := by
  obtain ⟨body, hbody⟩ := exists_nonWitness_run P hrecords hdirect hmainnet hkey
  obtain ⟨body', hbody'⟩ := exists_nonWitness_run P hrecords hdirect hmainnet hkey'
  refine ⟨body, body', hbody, hbody', fun hfree htxid => ?_⟩
  obtain rfl := nonWitness_eq_of_classicTxid_eq P hbody hbody' hfree htxid
  exact ⟨rfl, eq_of_nonWitness_eq hbody hbody'⟩

section Sample
open Sample

/-- One event, with its Bitcoin transaction as it is and in two segwit forms. -/
def manyForms : List Transaction :=
  setup mainnet ++ [submit mainnet ⟨[minedAB, witnessedAB, malleatedAB], by decide⟩]

/-- What the three forms denote, and what is recorded for them. -/
theorem manyForms_recorded : CollisionFree primitives [bitcoinTxA.bytes, bitcoinTxA.bytes] ∧
    ∀ e ∈ [minedAB, witnessedAB, malleatedAB],
      nonWitness e.tx.bitcoinTx.bytes = .ok bitcoinTxA.bytes ∧
        RegistryV102.getBitcoinTxMinedOrFail
          ((deployment primitives).run (deployed deployer) manyForms).registries
          e.tx.bitcoinTx = .ok 800000 ∧
        RegistryV102.getBitcoinTxIndexedOrFail
          ((deployment primitives).run (deployed deployer) manyForms).registries
          e.tx.bitcoinTx 0 0 = .ok minedAB.tx.indexed := by
  decide +kernel

/-- All three are accepted: three keys of one transaction id, and three records of one
inscription event. -/
theorem many_keys_of_one_txid :
    [minedAB, witnessedAB, malleatedAB].Pairwise
        (fun e e' => e.tx.bitcoinTx ≠ e'.tx.bitcoinTx) ∧
      ∀ e ∈ [minedAB, witnessedAB, malleatedAB],
        RegistryV102.getBitcoinTxMinedOrFail
            ((deployment primitives).run (deployed deployer) manyForms).registries
            e.tx.bitcoinTx = .ok 800000 ∧
          RegistryV102.getBitcoinTxIndexedOrFail
            ((deployment primitives).run (deployed deployer) manyForms).registries
            e.tx.bitcoinTx 0 0 = .ok minedAB.tx.indexed ∧
          classicTxid primitives e.tx.bitcoinTx.bytes =
            classicTxid primitives minedAB.tx.bitcoinTx.bytes := by
  refine ⟨by decide, fun e he => ?_⟩
  obtain ⟨hbody, hmined, hindexed⟩ := manyForms_recorded.2 e he
  have hbodyA := (manyForms_recorded.2 minedAB List.mem_cons_self).1
  refine ⟨hmined, hindexed, ?_⟩
  rw [classicTxid_eq primitives hbody, classicTxid_eq primitives hbodyA]

/-- Two of the keys: one of them is in segwit form. -/
theorem mined_keys_manyForms :
    minedAB.tx.bitcoinTx = witnessedAB.tx.bitcoinTx ∨
      isSegwitTx minedAB.tx.bitcoinTx.bytes = .ok true ∨
      isSegwitTx witnessedAB.tx.bitcoinTx.bytes = .ok true := by
  obtain ⟨hfree, hforms⟩ := manyForms_recorded
  obtain ⟨hbody, hkey, -⟩ := hforms minedAB (by simp)
  obtain ⟨hbody', hkey', -⟩ := hforms witnessedAB (by simp)
  obtain ⟨b, b', hb, hb', hone⟩ := mined_keys primitives ⟨rfl, rfl, rfl, rfl⟩
    (by decide) (by decide) (Or.inl ⟨_, hkey⟩) (Or.inl ⟨_, hkey'⟩)
  obtain rfl : bitcoinTxA.bytes = b := Result.ok.inj (hbody.symm.trans hb)
  obtain rfl : bitcoinTxA.bytes = b' := Result.ok.inj (hbody'.symm.trans hb')
  have htxid : classicTxid primitives minedAB.tx.bitcoinTx.bytes =
      classicTxid primitives witnessedAB.tx.bitcoinTx.bytes := by
    rw [classicTxid_eq primitives hbody, classicTxid_eq primitives hbody']
  exact (hone hfree htxid).2

end Sample

end World
end BitcoinOracle
