import BitcoinOracle.World

/-! # The signature threshold

`tx-validated-by` grows with every accepted element and is written by nothing else,
so after a run it contains every signer of every accepted element (`Counted`).  A
signature of an element is only valid when its signer is not in it for the hash of
the element.  So no signer counts twice for one hash: not within an element, not
within a batch, and not across calls.
-/
namespace BitcoinOracle
open Clarity Oracle

namespace World
variable (P : Primitives)

/-- Every signer of every element of `es` is in `tx-validated-by`. -/
def Counted (es : List SignedTx) (w : World) : Prop :=
  ∀ e ∈ es, ∀ signer ∈ e.signers,
    (w.oracle.txValidatedBy ⟨hashTx P e.tx, signer⟩).isSome = true

variable {P}

/-- An accepted element adds its signers, and removes none. -/
theorem Counted.index {es : List SignedTx} {w : World} (h : Counted P es w) (e : SignedTx) :
    Counted P (es ++ [e]) (index P w e) := by
  intro e' he' signer hsigner
  show (countSigners w.oracle.txValidatedBy (hashTx P e.tx) e.signaturePacks
    ⟨hashTx P e'.tx, signer⟩).isSome = true
  rw [countSigners_apply]
  split
  · rfl
  · next hnew =>
      rcases List.mem_append.mp he' with hold | hlast
      · exact h e' hold signer hsigner
      · rw [List.mem_singleton.mp hlast] at hsigner hnew
        exact absurd ⟨rfl, hsigner⟩ hnew

theorem Counted.indexAll {es es' : List SignedTx} {w : World} (h : Counted P es w) :
    Counted P (es ++ es') (indexAll P w es') := by
  induction es' generalizing es w with
  | nil =>
      rw [List.append_nil]
      exact h
  | cons e es' ih =>
      have hstep := ih (h.index e)
      rwa [List.append_assoc, List.singleton_append] at hstep

/-- The governance functions of the oracle do not touch `tx-validated-by`. -/
theorem governed_txValidatedBy {s s' : Oracle.State} {call : GovernanceCall}
    (h : Governed s call s') : s'.txValidatedBy = s.txValidatedBy := by
  cases h with
  | setPaused paused => rfl
  | addValidator hnew => rfl
  | removeValidator hold => rfl
  | approveRelayer relayer approved => rfl
  | setRequiredValidators hlt => rfl
  | setContractOwner owner => rfl

/-- **After a run, the signers of all elements accepted in it are counted.** -/
theorem counted_run (w : World) (ts : List Transaction) :
    Counted P ((deployment P).history w ts) ((deployment P).run w ts) := by
  have hstart : Counted P [] w := fun e he => nomatch he
  refine (deployment P).history_of_step (Counted P) ?_ hstart ts
  intro es w t hw
  have hstep := step_next P w t
  generalize (deployment P).next w t = w', (deployment P).log w t = new at hstep ⊢
  cases hstep with
  | indexed hcall hpaused hrelayer haccepts => exact hw.indexAll
  | governed hcall howner h =>
      rw [List.append_nil]
      intro e he signer hsigner
      rw [governed_txValidatedBy h]
      exact hw e he signer hsigner
  | refused =>
      rw [List.append_nil]
      exact hw
  | registry h =>
      rw [List.append_nil]
      exact hw
  | mock =>
      rw [List.append_nil]
      exact hw

variable (P)

/-- **Threshold soundness.**  Every element of every batch that `index-tx-many`
accepts, in whatever state a run has led to, carries at least as many signatures as
required; their signers are pairwise distinct registered validators, each signed
the hash of this very event under its registered key, and none of them was counted
for that hash before, neither by a call of the run nor by an earlier element of the
batch. -/
theorem threshold_sound {w₀ : World} {ts : List Transaction} {t : Transaction}
    {txMany : TxMany} (hcall : t.call = .indexTxMany txMany)
    (hok : answer P ((deployment P).run w₀ ts) t = .ok (.bool true))
    {before after : List SignedTx} {e : SignedTx}
    (helements : txMany.elements = before ++ e :: after) :
    ((deployment P).run w₀ ts).oracle.requiredValidators.val ≤ e.signaturePacks.length ∧
      e.signers.Nodup ∧
      ∀ pack ∈ e.signaturePacks,
        (∃ pubkey, ((deployment P).run w₀ ts).oracle.validators pack.signer = some pubkey ∧
          P.secp256k1Recover (P.sha256 (structuredDataPrefix ++
            (messageDomain t.env ++ (hashTx P e.tx).bytes))) pack.signature.bytes =
              .ok pubkey.bytes) ∧
        pack.txHash = hashTx P e.tx ∧
        ∀ e' ∈ (deployment P).history w₀ ts ++ before,
          hashTx P e'.tx = hashTx P e.tx → pack.signer ∉ e'.signers := by
  have he := accepts_of_answer P hcall hok helements
  have hcounted : Counted P _ (indexAll P _ before) := (counted_run w₀ ts).indexAll
  refine ⟨?_, he.distinct, fun pack hpack => ?_⟩
  · have hthreshold := he.threshold
    rwa [indexAll_requiredValidators] at hthreshold
  · obtain ⟨⟨pubkey, hkey, hrecover⟩, hfresh, hhash⟩ := he.valid pack hpack
    refine ⟨⟨pubkey, ?_, ?_⟩, hhash, ?_⟩
    · rwa [indexAll_validators] at hkey
    · exact toOption_eq_some.mp hrecover
    · -- counted for the hash, the signer would not be fresh
      intro e' he' hsame hsigner
      have hsome := hcounted e' he' pack.signer hsigner
      rw [hsame, hfresh] at hsome
      cases hsome

open Sample in
/-- The second of the sample transfers, in a batch with the first. -/
theorem threshold_sound_transfers :
    ((deployment primitives).run (deployed deployer)
        (setup testnet)).oracle.requiredValidators.val ≤ transferBA.signaturePacks.length ∧
      transferBA.signers.Nodup ∧
      ∀ pack ∈ transferBA.signaturePacks,
        pack.txHash = hashTx primitives transferBA.tx := by
  have helements : [transferAB, transferBA] = [transferAB] ++ transferBA :: [] := rfl
  obtain ⟨hthreshold, hdistinct, hpacks⟩ := threshold_sound primitives rfl answer_transfers helements
  exact ⟨hthreshold, hdistinct, fun pack hpack => (hpacks pack hpack).2.1⟩

end World
end BitcoinOracle
