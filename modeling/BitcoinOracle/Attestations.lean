import BitcoinOracle.RelayedBlocks

/-! # What a validated row is made of

A row of `proofs` is what one accepted post attests to, and a row of `validated_txs`
is put together from rows of `proofs`.  On the way nothing is invented: behind every
validated row are accepted posts, one for each of its signatures (`recorded_run`).
-/
namespace BitcoinOracle
open Clarity KeyedTable Relayer

namespace Indexer

/-- The transfer of a post, and who attests to it. -/
structure Attestation where
  tx : TxArgument
  orderHash : Bytes
  type : ValidatorName
  signature : Bytes
  signer : Text
  signerPubkey : Bytes
  deriving DecidableEq

def TxRequest.attestation (tx : TxRequest) : Attestation :=
  ⟨tx.txArgument, tx.orderHash, tx.type, tx.signature, tx.signer, tx.signerPubkey⟩

def ProofRow.attestation (p : ProofRow) : Attestation :=
  ⟨ProofRow.txArgument p, p.orderHash, p.type, p.signature, p.signer, p.signerPubkey⟩

/-- The transfer of a row, whatever `bitcoin_tx` is. -/
def ValidatedRow.transfer (v : ValidatedRow) : TxArgument where
  bitcoinTx := v.event.txHash
  output := v.event.output
  offset := v.event.satpoint
  tick := v.tick
  amt := v.amt
  fromUser := v.fromUser
  toUser := v.toUser
  fromBal := v.fromBal
  toBal := v.toBal
  decimals := v.decimals

/-- A row lists the attestations of some posts, and takes its transfer from one. -/
structure ValidatedRow.Backed (v : ValidatedRow) (posts : Set TxRequest) (minimalProofs : Nat)
    (requests : List TxRequest) : Prop where
  posted : ∀ tx ∈ requests, tx ∈ posts ∧ tx.orderHash = v.orderHash
  enough : minimalProofs ≤ (requests.map TxRequest.signer).eraseDups.length
  transfer : ∃ tx ∈ requests, v.transfer = tx.txArgument
  signers : v.signers = requests.map TxRequest.signer
  signerPubkeys : v.signerPubkeys = requests.map TxRequest.signerPubkey
  signerTypes : v.signerTypes = requests.map TxRequest.type
  signatures : v.signatures = requests.map TxRequest.signature

/-- Everything in the tables comes from the posts. -/
structure Recorded (posts : Set TxRequest) (minimalProofs : Nat) (db : Database) : Prop where
  posted : ∀ a ∈ db.proofs.map ProofRow.attestation, ∃ tx ∈ posts, TxRequest.attestation tx = a
  backed : ∀ v ∈ db.validatedTxs, ∃ requests, v.Backed posts minimalProofs requests

/-- The hash of every post is that of its transfer. -/
def Hashed (P : Primitives) (posts : Set TxRequest) : Prop :=
  ∀ tx ∈ posts, ∃ arg, tx.txArgument.encode = some arg ∧ (Oracle.hashTx P arg).bytes = tx.orderHash

/-- The worker is configured to ask for that many signers, at least. -/
def TableAction.AtLeast (minimalProofs : Nat) : TableAction → Prop
  | .processPendingProofs minimalProofs' _ _ => minimalProofs ≤ minimalProofs'
  | _ => True

section Rows
variable {P : Primitives} {lib : BitcoinLib} {db db' : Database} {rows : List ProofRow}
  {minimalProofs minimalProofs' size : Nat}

/-! ## Posts -/

theorem proofRow_attestation {tx : TxRequest} {proof : ProofRow}
    (h : proofRow lib tx = .ok proof) :
    proof.attestation = tx.attestation ∧ proof.validated = false := by
  obtain ⟨_, _, _, rfl⟩ := exists_proofRow h
  exact ⟨rfl, rfl⟩

/-- A post adds its attestation, or finds it there already. -/
theorem attestations_upsert {tx : TxRequest} (h : upsertTxWithProof P lib db tx = .ok db') :
    db'.proofs.map ProofRow.attestation = db.proofs.map ProofRow.attestation ∨
      db'.proofs.map ProofRow.attestation =
        db.proofs.map ProofRow.attestation ++ [tx.attestation] := by
  obtain ⟨proof, hproof, hdb⟩ := upsertTxWithProof_eq_ok.mp h
  have hproofs : db'.proofs = insertNew ProofRow.key db.proofs proof := by
    rcases hdb with ⟨-, rfl⟩ | ⟨-, _, -, rfl⟩
    · rfl
    · rfl
  rw [hproofs]
  by_cases hstored : Stored ProofRow.key db.proofs proof.key
  · rw [insertNew_of_stored hstored]
    exact Or.inl rfl
  · rw [insertNew_of_not_stored hstored, List.map_append, ← (proofRow_attestation hproof).1]
    exact Or.inr rfl

theorem validatedTxs_upsert {tx : TxRequest} (h : upsertTxWithProof P lib db tx = .ok db') :
    db'.validatedTxs = db.validatedTxs := by
  obtain ⟨_, -, ⟨-, rfl⟩ | ⟨-, _, -, rfl⟩⟩ := upsertTxWithProof_eq_ok.mp h
  · rfl
  · rfl

/-! ## Validated transactions -/

theorem mem_orderHashes {hash : Bytes} :
    hash ∈ orderHashes rows ↔ ∃ p ∈ rows, p.orderHash = hash := by
  rw [orderHashes, List.mem_eraseDups, List.mem_map]

theorem PendingProofs.mem_rows (h : PendingProofs db minimalProofs size rows) {p : ProofRow} :
    p ∈ rows ↔ p ∈ unvalidated db ∧ p.orderHash ∈ orderHashes rows := by
  rw [h.perm.mem_iff, List.mem_filter, decide_eq_true_iff]

theorem mem_unvalidated {p : ProofRow} :
    p ∈ unvalidated db ↔ p ∈ db.proofs ∧ p.validated = false := by
  rw [unvalidated, List.mem_filter, Bool.not_eq_true']

/-- A hash has all of its unvalidated proofs in its batch. -/
theorem PendingProofs.enough_signers (h : PendingProofs db minimalProofs size rows) {hash : Bytes}
    (hhash : hash ∈ orderHashes rows) :
    minimalProofs ≤
      ((rows.filter fun p => p.orderHash = hash).map ProofRow.signer).eraseDups.length := by
  refine (h.enough hash hhash).trans (length_eraseDups_mono (List.map_subset _ fun p hp => ?_))
  obtain ⟨hp, heq⟩ := List.mem_filter.mp hp
  refine List.mem_filter.mpr ⟨h.mem_rows.mpr ⟨hp, ?_⟩, heq⟩
  rwa [of_decide_eq_true heq]

theorem attestations_mark (signatures : List Bytes) (proofs : List ProofRow) :
    (mark signatures proofs).map ProofRow.attestation = proofs.map ProofRow.attestation := by
  rw [mark, List.map_map]
  refine List.map_congr_left fun p _ => ?_
  rw [Function.comp_apply]
  split
  · rfl
  · rfl

theorem attestations_process (h : processPendingProofs P db rows = some db') :
    db'.proofs.map ProofRow.attestation = db.proofs.map ProofRow.attestation := by
  obtain ⟨-, -, proofs, hproofs, rfl⟩ := insertAll_iff.mp h
  rw [(markAll_iff.mp hproofs).2]
  exact attestations_mark _ _

/-! ## Runs -/

variable {posts : Set TxRequest}

/-- Attestations of posts are those of a list of posts. -/
theorem exists_requests {attestations : List Attestation}
    (h : ∀ a ∈ attestations, ∃ tx ∈ posts, TxRequest.attestation tx = a) :
    ∃ requests : List TxRequest, (∀ tx ∈ requests, tx ∈ posts) ∧
      requests.map TxRequest.attestation = attestations := by
  induction attestations with
  | nil => exact ⟨[], fun _ htx => (nomatch htx), rfl⟩
  | cons a attestations ih =>
      obtain ⟨tx, htx, ha⟩ := h a List.mem_cons_self
      obtain ⟨requests, hrequests, hmap⟩ := ih fun b hb => h b (List.mem_cons_of_mem a hb)
      refine ⟨tx :: requests, fun tx' htx' => ?_, ?_⟩
      · rcases List.mem_cons.mp htx' with rfl | hlater
        · exact htx
        · exact hrequests tx' hlater
      · rw [List.map_cons, ha, hmap]

/-- The row of a batch is backed by the posts its proofs are from. -/
theorem Recorded.backed_batch (h : Recorded posts minimalProofs db)
    (hrows : PendingProofs db minimalProofs' size rows) (hle : minimalProofs ≤ minimalProofs')
    {batch : List ProofRow}
    (hbatch : batch ∈ batches rows) {v : ValidatedRow} (hv : validateBatch P db batch = some v) :
    ∃ requests, v.Backed posts minimalProofs requests := by
  obtain ⟨hash, hhash, rfl⟩ := List.mem_map.mp hbatch
  obtain ⟨proof, rest, tx, hproofs, -, rfl⟩ := validateBatch_eq_some.mp hv
  have hproof : proof ∈ rows.filter fun p => p.orderHash = hash := by
    rw [hproofs]
    exact List.mem_cons_self
  have hsame : ∀ p ∈ rows.filter fun p => p.orderHash = hash, p.orderHash = proof.orderHash :=
    fun p hp => (of_decide_eq_true (List.mem_filter.mp hp).2).trans
      (of_decide_eq_true (List.mem_filter.mp hproof).2).symm
  have henough := hle.trans (hrows.enough_signers hhash)
  have hposted : ∀ a ∈ (rows.filter fun p => p.orderHash = hash).map ProofRow.attestation,
      ∃ tx ∈ posts, TxRequest.attestation tx = a := by
    intro a ha
    obtain ⟨p, hp, rfl⟩ := List.mem_map.mp ha
    have hmem := (mem_unvalidated.mp (hrows.mem_rows.mp (List.mem_filter.mp hp).1).1).1
    exact h.posted _ (List.mem_map_of_mem hmem)
  generalize (rows.filter fun p => p.orderHash = hash) = batch at *
  obtain ⟨requests, hrequests, hmap⟩ := exists_requests hposted
  have hlist : ∀ {β : Type} (f : Attestation → β),
      requests.map (fun tx => f tx.attestation) = batch.map fun p => f p.attestation := by
    intro β f
    have hf := congrArg (List.map f) hmap
    rwa [List.map_map, List.map_map] at hf
  have hsigners := hlist Attestation.signer
  refine ⟨requests, fun tx' htx' => ⟨hrequests tx' htx', ?_⟩, ?_, ?_, hsigners.symm,
    (hlist Attestation.signerPubkey).symm, (hlist Attestation.type).symm,
    (hlist Attestation.signature).symm⟩
  · obtain ⟨p, hp, heq⟩ := List.mem_map.mp (hmap ▸ List.mem_map_of_mem htx')
    exact (congrArg Attestation.orderHash heq).symm.trans (hsame p hp)
  · exact hsigners ▸ henough
  · obtain ⟨tx', htx', heq⟩ := List.mem_map.mp (hmap ▸ List.mem_map_of_mem hproof)
    exact ⟨tx', htx', (congrArg Attestation.tx heq).symm⟩

/-- Tables with the same proofs and validated transactions are as good. -/
theorem Recorded.of_same (h : Recorded posts minimalProofs db)
    (hproofs : db'.proofs.map ProofRow.attestation = db.proofs.map ProofRow.attestation)
    (hvalidated : db'.validatedTxs = db.validatedTxs) : Recorded posts minimalProofs db' where
  posted := hproofs ▸ h.posted
  backed := hvalidated ▸ h.backed

/-- **Every action keeps it.** -/
theorem Recorded.next (h : Recorded posts minimalProofs db) {a : TableAction}
    (hposts : ∀ tx ∈ (tables P lib).log db a, tx ∈ posts) (ha : a.AtLeast minimalProofs) :
    Recorded posts minimalProofs ((tables P lib).next db a) := by
  show Recorded posts minimalProofs ((a.exec P lib db).getD db)
  cases hexec : a.exec P lib db with
  | none => exact h
  | some db' =>
      show Recorded posts minimalProofs db'
      replace hposts : ∀ tx ∈ a.posted, tx ∈ posts := by
        have hlog : (tables P lib).log db a = a.posted := if_pos (by rw [hexec]; rfl)
        rwa [hlog] at hposts
      cases a with
      | post tx =>
          have hpost := postTx_eq_ok (toOption_eq_some.mp hexec)
          refine ⟨fun a ha => ?_, (validatedTxs_upsert hpost) ▸ h.backed⟩
          rcases attestations_upsert hpost with heq | heq
          · exact h.posted a (heq ▸ ha)
          · rw [heq, List.mem_append, List.mem_singleton] at ha
            rcases ha with hold | hnew
            · exact h.posted a hold
            · exact ⟨tx, hposts tx (List.mem_singleton_self tx), hnew.symm⟩
      | processPendingProofs minimalProofs' size rows =>
          rw [TableAction.exec] at hexec
          split at hexec
          · next hrows =>
              refine ⟨(attestations_process hexec).symm ▸ h.posted, fun v hv => ?_⟩
              rw [(processPendingProofs_eq_some hexec).2, List.mem_append] at hv
              rcases hv with hold | hnew
              · exact h.backed v hold
              · obtain ⟨batch, hbatch, hv⟩ := List.mem_filterMap.mp hnew
                exact h.backed_batch hrows ha hbatch hv
          · cases hexec
      | setAlreadyIndexed account indexedTxs =>
          obtain rfl := Option.some.inj hexec
          exact h.of_same rfl rfl
      | setTxsWithError txErrors =>
          obtain rfl := Option.some.inj hexec
          exact h.of_same rfl rfl
      | upsertSubmittedTx params =>
          obtain ⟨rows, -, rfl⟩ := Option.map_eq_some_iff.mp hexec
          exact h.of_same rfl rfl
      | onRBFTx nonce newTxId submittedBy =>
          obtain rfl := Option.some.inj hexec
          exact h.of_same rfl rfl

theorem recorded_empty : Recorded posts minimalProofs .empty where
  posted _ ha := nomatch ha
  backed _ hv := nomatch hv

/-- The conditions of `Recorded.next`, along a run. -/
theorem along_recorded (P : Primitives) (lib : BitcoinLib) (start : Database)
    {actions : List TableAction} (hactions : ∀ a ∈ actions, a.AtLeast minimalProofs) :
    (tables P lib).Along (fun db a => (∀ tx ∈ (tables P lib).log db a,
      tx ∈ {tx | tx ∈ (tables P lib).history start actions}) ∧ a.AtLeast minimalProofs)
      start actions :=
  Machine.along_and.mpr ⟨Machine.along_log fun _ htx => htx,
    Machine.along_of_forall fun a ha _ => hactions a ha⟩

variable (P lib) in
/-- **Behind every validated row are accepted posts, in every state.** -/
theorem recorded_run {actions : List TableAction}
    (hactions : ∀ a ∈ actions, a.AtLeast minimalProofs) :
    Recorded {tx | tx ∈ (tables P lib).history .empty actions} minimalProofs
      ((tables P lib).run .empty actions) :=
  Machine.run_invariant (Recorded {tx | tx ∈ (tables P lib).history .empty actions} minimalProofs)
    (fun _ _ ha h => h.next ha.1 ha.2) (along_recorded P lib .empty hactions) recorded_empty

theorem hashed_of_exec {a : TableAction} (h : a.exec P lib db = some db') :
    Hashed P {tx | tx ∈ a.posted} := by
  intro tx htx
  cases a with
  | post tx' =>
      obtain rfl := List.mem_singleton.mp htx
      exact validateOrderHash_eq_ok.mp (postTx_ok_iff.mp (toOption_eq_some.mp h)).1
  | _ => exact nomatch htx

variable (P lib) in
/-- Accepted posts have the hash of their transfer. -/
theorem hashed_history (start : Database) (actions : List TableAction) :
    Hashed P {tx | tx ∈ (tables P lib).history start actions} := by
  induction actions generalizing start with
  | nil => exact fun _ htx => (nomatch htx)
  | cons a actions ih =>
      intro tx htx
      change tx ∈ (tables P lib).log start a ++ _ at htx
      rcases List.mem_append.mp htx with hfirst | hlater
      · change tx ∈ if (a.exec P lib start).isSome = true then a.posted else [] at hfirst
        split at hfirst
        · next hexec =>
            obtain ⟨db', hdb'⟩ := Option.isSome_iff_exists.mp hexec
            exact hashed_of_exec hdb' tx hfirst
        · exact nomatch hfirst
      · exact ih _ tx hlater

end Rows

end Indexer
end BitcoinOracle
