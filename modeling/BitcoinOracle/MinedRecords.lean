import BitcoinOracle.World
import BitcoinOracle.MinedCheck

/-! # The recorded Bitcoin transactions

A height is recorded for a Bitcoin transaction only where `verify-mined` answered
`(ok true)` for it at that height, and an event is indexed only under a Bitcoin
transaction with a recorded height.  Both hold after every run that starts from
empty records and in which nobody writes to a registry past the oracle
(`recordsVerified_run`).
-/
namespace BitcoinOracle
open Clarity Oracle

/-- Registries without a recorded height and without an indexed event. -/
structure Registries.NoRecords (r : Registries) : Prop where
  minedV101 : r.v101.bitcoinTxMined = .empty
  indexedV101 : r.v101.bitcoinTxIndexed = .empty
  minedV102 : r.v102.bitcoinTxMined = .empty
  indexedV102 : r.v102.bitcoinTxIndexed = .empty

namespace Registries.NoRecords
variable {r : Registries}

theorem mined (h : r.NoRecords) (tx : Buff 8192) : r.mined tx = none := by
  unfold Registries.mined legacyMined
  rw [h.minedV101, h.minedV102]
  cases tx.asMaxLen 4096 with
  | none => rfl
  | some small => rfl

theorem indexed (h : r.NoRecords) (key : IndexedKey 8192) : r.indexed key = none := by
  unfold Registries.indexed legacyIndexed
  rw [h.indexedV101, h.indexedV102]
  cases key.txHash.asMaxLen 4096 with
  | none => rfl
  | some small => rfl

end Registries.NoRecords

namespace World
variable (P : Primitives)

/-- Some transaction of `ts` verified `tx` as mined at `height`. -/
def VerifiedAt (ts : List Transaction) (tx : Buff 8192) (height : Uint) : Prop :=
  ∃ t ∈ ts, ∃ mock block proof, block.height = height ∧
    verifyMined P t.env mock tx block proof = .ok true

variable {P} in
/-- On the main chain, nothing is verified at a height without a header. -/
theorem not_verifiedAt_of_no_header {ts : List Transaction} {tx : Buff 8192} {height : Uint}
    (hmainnet : ∀ t ∈ ts, t.env.chainId = 1 ∧ t.env.burnHeaderHash height = none) :
    ¬ VerifiedAt P ts tx height := by
  rintro ⟨t, ht, mock, block, proof, rfl, hverified⟩
  obtain ⟨hchain, hheader⟩ := hmainnet t ht
  obtain ⟨body, -, hmined⟩ := (verifyMined_eq_true_iff P hchain).mp hverified
  obtain ⟨hash, hhash, -⟩ := (ClarityBitcoin.verifyBlockHeader_eq_true_iff P t.env mock).mp
    ((ClarityBitcoin.wasMined_eq_true_iff P t.env mock).mp hmined).1
  unfold ClarityBitcoin.getBcHHash at hhash
  rw [if_pos hchain, hheader] at hhash
  cases hhash

/-- Recorded heights were verified, and indexed events have one. -/
structure RecordsVerified (ts : List Transaction) (r : Registries) : Prop where
  heights : ∀ tx height, r.mined tx = some height → VerifiedAt P ts tx height
  indexed : ∀ key, (r.indexed key).isSome = true → (r.mined key.txHash).isSome = true

variable {P}

theorem RecordsVerified.of_sameRecords {ts : List Transaction} {r r' : Registries}
    (h : RecordsVerified P ts r) (hsame : r.SameRecords r') : RecordsVerified P ts r' := by
  constructor
  · intro tx height hheight
    rw [hsame.mined] at hheight
    exact h.heights tx height hheight
  · intro key hkey
    rw [hsame.indexed] at hkey
    rw [hsame.mined]
    exact h.indexed key hkey

theorem RecordsVerified.index {ts : List Transaction} {w : World} {t : Transaction}
    {e : SignedTx} (h : RecordsVerified P ts w.registries) (ht : t ∈ ts)
    (haccepts : Accepts P t.env w e) : RecordsVerified P ts (w.registries.index e) := by
  constructor
  · intro tx height hheight
    rw [Registries.mined_index] at hheight
    by_cases htx : tx = e.tx.bitcoinTx
    · subst htx
      rw [if_pos rfl] at hheight
      cases hmined : w.registries.mined e.tx.bitcoinTx with
      | some old =>
          rw [hmined] at hheight
          cases hheight
          exact h.heights _ _ hmined
      | none =>
          -- the first element of the transaction: its height is verified
          rw [hmined] at hheight
          cases hheight
          rcases haccepts.mined with hsome | hverified
          · rw [hmined] at hsome
            cases hsome
          · exact ⟨t, ht, w.mockHeaders, e.block, e.proof, rfl, hverified⟩
    · rw [if_neg htx] at hheight
      exact h.heights tx height hheight
  · intro key hkey
    apply (Registries.isSome_mined_index w.registries e).mpr
    rcases (Registries.isSome_indexed_index w.registries e).mp hkey with rfl | hold
    · exact Or.inl rfl
    · exact Or.inr (h.indexed key hold)

variable (P)

/-- **After a run from empty records, recorded heights were verified by a call of the
run, and indexed events have one.** -/
theorem recordsVerified_run {w : World} {ts : List Transaction} (hempty : w.registries.NoRecords)
    (hdirect : ∀ t ∈ ts, ¬ t.call.IsDirectWrite) :
    RecordsVerified P ts ((deployment P).run w ts).registries := by
  have hstart : RecordsVerified P ts w.registries := by
    constructor
    · intro tx height hheight
      rw [hempty.mined] at hheight
      cases hheight
    · intro key hkey
      rw [hempty.indexed] at hkey
      cases hkey
  have hmember : (deployment P).Along (fun _ t => t ∈ ts) w ts :=
    Machine.along_of_forall fun t ht _ => ht
  exact records_run (fun _ r => RecordsVerified P ts r)
    (fun _ _ _ hsame h => h.of_sameRecords hsame)
    (fun _ _ _ _ _ _ ht _ haccepts h => h.index ht haccepts) hdirect hmember hstart

end World
end BitcoinOracle
