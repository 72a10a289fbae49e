import BitcoinOracle.Attestations

/-! # What the worker validates

`process` runs `processPendingProofs` until it returns 0.  A hash is selected by its
unvalidated proofs alone, while `validated_txs` has a unique `id2`: proofs that come
late, when their transaction is already there, are selected again, the insert violates
the constraint, and the exception ends the worker (`validated_once_iff`).
-/
namespace BitcoinOracle
open Clarity KeyedTable Relayer

namespace Indexer
variable (P : Primitives)

/-- The rows that `processPendingProofs` inserts. -/
def newlyValidated (db : Database) (rows : List ProofRow) : List ValidatedRow :=
  (batches rows).filterMap (validateBatch P db)

/-- What `processPendingProofs` returns. -/
def processed (db : Database) (rows : List ProofRow) : Nat := (newlyValidated P db rows).length

/-- How many signers have a proof of the hash for the transaction. -/
def signersOf (db : Database) (txHash orderHash : Bytes) : Nat :=
  countSigners (db.proofs.filter fun p => p.event.txHash = txHash) orderHash

/-- Every transfer with enough signers has one row. -/
def ExactlyOnce (minimalProofs : Nat) (db : Database) : Prop :=
  ∀ p ∈ db.proofs, minimalProofs ≤ signersOf db p.event.txHash p.orderHash →
    (db.validatedTxs.filter fun v =>
      v.event.txHash = p.event.txHash ∧ v.orderHash = p.orderHash).length = 1

/-- The groups that the query has to choose from. -/
def pendingHashes (minimalProofs : Nat) (db : Database) : List Bytes :=
  (orderHashes (unvalidated db)).filter fun hash =>
    minimalProofs ≤ countSigners (unvalidated db) hash

/-- The worker has one configuration. -/
def TableAction.Configured (minimalProofs : Nat) : TableAction → Prop
  | .processPendingProofs minimalProofs' _ _ => minimalProofs' = minimalProofs
  | _ => True

/-- A transaction of the worker does not throw. -/
def TableAction.Succeeds (db : Database) : TableAction → Prop
  | .processPendingProofs minimalProofs size rows =>
      PendingProofs db minimalProofs size rows →
        (Indexer.processPendingProofs P db rows).isSome = true
  | _ => True

/-- When it returns 0 and had room for all groups, there is nothing left to validate. -/
def TableAction.Finishes (db : Database) : TableAction → Prop
  | .processPendingProofs minimalProofs size rows =>
      PendingProofs db minimalProofs size rows → processed P db rows = 0 →
        (pendingHashes minimalProofs db).length ≤ size → ExactlyOnce minimalProofs db
  | _ => True

/-- No hash is selected that already has its row. -/
def TableAction.Fresh (db : Database) : TableAction → Prop
  | .processPendingProofs minimalProofs size rows =>
      PendingProofs db minimalProofs size rows →
        ∀ v ∈ db.validatedTxs, v.orderHash ∉ orderHashes rows
  | _ => True

/-- Posts differ in their signatures, and no two of them collide. -/
structure Distinct (posts : Set TxRequest) : Prop where
  signatures : ∀ tx ∈ posts, ∀ tx' ∈ posts, tx.signature = tx'.signature →
    tx.proofKey = tx'.proofKey
  hashes : Set.InjOn (Oracle.hashTx P) {arg | ∃ tx ∈ posts, tx.txArgument.encode = some arg}
  ids : Set.InjOn (fun x : Bytes × Bytes => computeValidatedTxsId P x.1 x.2)
    {x | ∃ tx ∈ posts, x = (tx.txHash, tx.orderHash)}

/-- Every proof has a row in `txs`, and a validated one a row in `validated_txs`. -/
structure Covered (db : Database) : Prop where
  txs : Unique (TxRow.id P) db.txs
  proofs : Unique ProofRow.key db.proofs
  row : ∀ p ∈ db.proofs, Stored (TxRow.id P) db.txs (p.id P)
  validatedTxs : Unique (ValidatedRow.id2 P) db.validatedTxs
  validated : ∀ p ∈ db.proofs, p.validated = true → ∃ v ∈ db.validatedTxs, v.orderHash = p.orderHash

variable {P} {lib : BitcoinLib} {db db' : Database} {rows : List ProofRow}
  {minimalProofs size : Nat} {posts : Set TxRequest}

/-! ## Transfers and their hashes -/

/-- Posts with one hash are of one transaction. -/
theorem Distinct.txHash_eq (h : Distinct P posts) (hhashed : Hashed P posts)
    {tx tx' : TxRequest} (htx : tx ∈ posts) (htx' : tx' ∈ posts)
    (heq : tx.orderHash = tx'.orderHash) : tx.txHash = tx'.txHash := by
  obtain ⟨arg, harg, hhash⟩ := hhashed tx htx
  obtain ⟨arg', harg', hhash'⟩ := hhashed tx' htx'
  have hsame : arg = arg' :=
    h.hashes ⟨tx, htx, harg⟩ ⟨tx', htx', harg'⟩ (Buff.ext (hhash.trans (heq.trans hhash'.symm)))
  have hargument : tx.txArgument = tx'.txArgument := by
    rw [← TxArgument.encode_eq_some.mp harg, ← TxArgument.encode_eq_some.mp harg', hsame]
  exact congrArg TxArgument.bitcoinTx hargument

/-- A row has the hashes of a post. -/
theorem ValidatedRow.Backed.exists_post {v : ValidatedRow} {requests : List TxRequest}
    (h : v.Backed posts minimalProofs requests) :
    ∃ tx ∈ posts, tx.txHash = v.event.txHash ∧ tx.orderHash = v.orderHash := by
  obtain ⟨tx, htx, htransfer⟩ := h.transfer
  exact ⟨tx, (h.posted tx htx).1, (congrArg TxArgument.bitcoinTx htransfer).symm,
    (h.posted tx htx).2⟩

theorem Recorded.exists_post (h : Recorded posts minimalProofs db) {p : ProofRow}
    (hp : p ∈ db.proofs) : ∃ tx ∈ posts, tx.attestation = p.attestation :=
  h.posted _ (List.mem_map_of_mem hp)

/-- Rows of posts have one `id2` exactly if they have one hash. -/
theorem Distinct.id2_iff (h : Distinct P posts) (hhashed : Hashed P posts) {v v' : ValidatedRow}
    (hv : ∃ tx ∈ posts, tx.txHash = v.event.txHash ∧ tx.orderHash = v.orderHash)
    (hv' : ∃ tx ∈ posts, tx.txHash = v'.event.txHash ∧ tx.orderHash = v'.orderHash) :
    v.id2 P = v'.id2 P ↔ v.orderHash = v'.orderHash := by
  obtain ⟨tx, htx, htxHash, hhash⟩ := hv
  obtain ⟨tx', htx', htxHash', hhash'⟩ := hv'
  constructor
  · intro hid
    have hpair := @h.ids (v.event.txHash, v.orderHash) ⟨tx, htx, by rw [htxHash, hhash]⟩
      (v'.event.txHash, v'.orderHash) ⟨tx', htx', by rw [htxHash', hhash']⟩ hid
    exact congrArg Prod.snd hpair
  · intro heq
    have htxHashes := h.txHash_eq hhashed htx htx' (hhash.trans (heq.trans hhash'.symm))
    rw [ValidatedRow.id2, ValidatedRow.id2, ← htxHash, ← htxHash', htxHashes, heq]

theorem Recorded.unique_signature (h : Recorded posts minimalProofs db) (hdb : Covered P db)
    (hposts : Distinct P posts) : Unique ProofRow.signature db.proofs := by
  refine List.Nodup.map_on (fun p hp q hq heq => ?_) (List.Nodup.of_map _ hdb.proofs)
  obtain ⟨tx, htx, hattested⟩ := h.exists_post hp
  obtain ⟨tx', htx', hattested'⟩ := h.exists_post hq
  have hkey : tx.proofKey = tx'.proofKey :=
    hposts.signatures tx htx tx' htx' ((congrArg Attestation.signature hattested).trans
      (heq.trans (congrArg Attestation.signature hattested').symm))
  have hproofKey : ∀ {p : ProofRow} {tx : TxRequest}, tx.attestation = p.attestation →
      tx.proofKey = p.key := fun {p tx} heq =>
    congrArg (fun a : Attestation => (⟨a.type, a.orderHash, a.signature, a.signer⟩ : ProofKey)) heq
  exact hdb.proofs.eq_of_mem hp hq ((hproofKey hattested).symm.trans
    (hkey.trans (hproofKey hattested')))

/-! ## A transaction of the worker -/

/-- An unvalidated proof with the signature. -/
def Pending (proofs : List ProofRow) (signature : Bytes) : Prop :=
  ∃ p ∈ proofs, p.signature = signature ∧ p.validated = false

theorem Pending.once {proofs : List ProofRow} (h : Unique ProofRow.signature proofs)
    {signature : Bytes} (hpending : Pending proofs signature) : PendingOnce proofs signature := by
  obtain ⟨p, hp, hsignature, hvalidated⟩ := hpending
  obtain ⟨_, -, -, hsingle⟩ := h.filter_eq_singleton (stored_iff.mpr ⟨p, hp, hsignature⟩)
  have hfilter : (proofs.filter fun q => q.signature = signature ∧ q.validated = false) =
      proofs.filter fun q => q.signature = signature := by
    refine List.filter_congr fun q hq => decide_eq_decide.mpr (and_iff_left_of_imp fun hsame => ?_)
    rw [h.eq_of_mem hq hp (hsame.trans hsignature.symm)]
    exact hvalidated
  rw [PendingOnce, hfilter, hsingle]
  rfl

/-- Every selected hash has a row to insert. -/
theorem Covered.exists_validateBatch (hdb : Covered P db)
    (hrows : PendingProofs db minimalProofs size rows) {hash : Bytes}
    (hhash : hash ∈ orderHashes rows) :
    ∃ v, validateBatch P db (rows.filter fun p => p.orderHash = hash) = some v ∧ v.Listed ∧
      v.orderHash = hash ∧
      v.signatures = (rows.filter fun p => p.orderHash = hash).map ProofRow.signature := by
  obtain ⟨q, hq, hqhash⟩ := mem_orderHashes.mp hhash
  have hmem : q ∈ rows.filter fun p => p.orderHash = hash :=
    List.mem_filter.mpr ⟨hq, decide_eq_true hqhash⟩
  have hall : ∀ p ∈ rows.filter fun p => p.orderHash = hash,
      p ∈ db.proofs ∧ p.orderHash = hash := by
    intro p hp
    obtain ⟨hrow, heq⟩ := List.mem_filter.mp hp
    exact ⟨(mem_unvalidated.mp (hrows.mem_rows.mp hrow).1).1, of_decide_eq_true heq⟩
  generalize (rows.filter fun p => p.orderHash = hash) = batch at *
  cases batch with
  | nil => exact nomatch hmem
  | cons proof rest =>
      obtain ⟨hproof, heq⟩ := hall proof List.mem_cons_self
      obtain ⟨tx, -, -, htx⟩ := hdb.txs.filter_eq_singleton (hdb.row proof hproof)
      refine ⟨validatedTx proof (proof :: rest) tx,
        validateBatch_eq_some.mpr ⟨proof, rest, tx, rfl, htx, rfl⟩, ⟨?_, ?_, ?_⟩, heq, rfl⟩
      · exact List.cons_ne_nil _ _
      · simp [validatedTx]
      · simp [validatedTx]

theorem Covered.map_newlyValidated (hdb : Covered P db)
    (hrows : PendingProofs db minimalProofs size rows) {β : Type} {f : ValidatedRow → β}
    {k : Bytes → β} (hf : ∀ hash v, v.orderHash = hash →
      v.signatures = (rows.filter fun p => p.orderHash = hash).map ProofRow.signature →
        f v = k hash) : (newlyValidated P db rows).map f = (orderHashes rows).map k := by
  rw [newlyValidated, batches, List.filterMap_map]
  refine map_filterMap_eq fun hash hhash => ?_
  obtain ⟨v, hv, -, horder, hsignatures⟩ := hdb.exists_validateBatch hrows hhash
  exact ⟨v, hv, hf hash v horder hsignatures⟩

theorem Covered.orderHashes_newlyValidated (hdb : Covered P db)
    (hrows : PendingProofs db minimalProofs size rows) :
    (newlyValidated P db rows).map ValidatedRow.orderHash = orderHashes rows :=
  (hdb.map_newlyValidated (k := id) hrows fun _ _ horder _ => horder).trans (List.map_id _)

theorem Covered.listed_newlyValidated (hdb : Covered P db)
    (hrows : PendingProofs db minimalProofs size rows) {v : ValidatedRow}
    (hv : v ∈ newlyValidated P db rows) : v.Listed := by
  obtain ⟨batch, hbatch, hv⟩ := List.mem_filterMap.mp hv
  obtain ⟨hash, hhash, rfl⟩ := List.mem_map.mp hbatch
  obtain ⟨w, hw, hlisted, -⟩ := hdb.exists_validateBatch hrows hhash
  obtain rfl := Option.some.inj (hv.symm.trans hw)
  exact hlisted

theorem PendingProofs.unique_signature (h : PendingProofs db minimalProofs size rows)
    (hsignature : Unique ProofRow.signature db.proofs) : Unique ProofRow.signature rows :=
  (h.perm.map ProofRow.signature).nodup_iff.mpr ((hsignature.filter _).filter _)

/-- The signatures of all batches are different and pending. -/
theorem Covered.signatures_newlyValidated (hdb : Covered P db)
    (hrows : PendingProofs db minimalProofs size rows)
    (hsignature : Unique ProofRow.signature db.proofs) :
    ((newlyValidated P db rows).map ValidatedRow.signatures).flatten.Nodup ∧
      ∀ signature, signature ∈ ((newlyValidated P db rows).map ValidatedRow.signatures).flatten ↔
        ∃ p ∈ rows, p.signature = signature := by
  have hunique := hrows.unique_signature hsignature
  rw [hdb.map_newlyValidated (k := fun hash =>
    (rows.filter fun p => p.orderHash = hash).map ProofRow.signature) hrows fun _ _ _ h => h]
  constructor
  · refine List.nodup_flatten.mpr ⟨fun signatures hmem => ?_, ?_⟩
    · obtain ⟨hash, -, rfl⟩ := List.mem_map.mp hmem
      exact hunique.filter _
    · refine List.pairwise_map.mpr ((nodup_eraseDups _).imp fun {hash hash'} hne => ?_)
      intro signature hmem hmem'
      obtain ⟨p, hp, hsame⟩ := List.mem_map.mp hmem
      obtain ⟨q, hq, hsame'⟩ := List.mem_map.mp hmem'
      obtain ⟨hp, hphash⟩ := List.mem_filter.mp hp
      obtain ⟨hq, hqhash⟩ := List.mem_filter.mp hq
      obtain rfl := hunique.eq_of_mem hp hq (hsame.trans hsame'.symm)
      exact hne ((of_decide_eq_true hphash).symm.trans (of_decide_eq_true hqhash))
  · intro signature
    constructor
    · intro hmem
      obtain ⟨signatures, hlist, hsignature⟩ := List.mem_flatten.mp hmem
      obtain ⟨hash, -, rfl⟩ := List.mem_map.mp hlist
      obtain ⟨p, hp, hsame⟩ := List.mem_map.mp hsignature
      exact ⟨p, (List.mem_filter.mp hp).1, hsame⟩
    · rintro ⟨p, hp, rfl⟩
      refine List.mem_flatten.mpr ⟨_, List.mem_map_of_mem (mem_orderHashes.mpr ⟨p, hp, rfl⟩), ?_⟩
      exact List.mem_map_of_mem (List.mem_filter.mpr ⟨hp, decide_eq_true rfl⟩)

/-- All rows are of posts, those that are inserted too. -/
theorem Recorded.exists_post_of_stored (h : Recorded posts minimalProofs db) {v : ValidatedRow}
    (hv : v ∈ db.validatedTxs) :
    ∃ tx ∈ posts, tx.txHash = v.event.txHash ∧ tx.orderHash = v.orderHash := by
  obtain ⟨requests, hbacked⟩ := h.backed v hv
  exact hbacked.exists_post

theorem Recorded.exists_post_of_row (h : Recorded posts minimalProofs db)
    (hrows : PendingProofs db minimalProofs size rows) {v : ValidatedRow}
    (hv : v ∈ db.validatedTxs ++ newlyValidated P db rows) :
    ∃ tx ∈ posts, tx.txHash = v.event.txHash ∧ tx.orderHash = v.orderHash := by
  rcases List.mem_append.mp hv with hold | hnew
  · exact h.exists_post_of_stored hold
  · obtain ⟨batch, hbatch, hv⟩ := List.mem_filterMap.mp hnew
    obtain ⟨requests, hbacked⟩ := h.backed_batch hrows le_rfl hbatch hv
    exact hbacked.exists_post

section Transactions
variable (hposts : Distinct P posts) (hhashed : Hashed P posts)
  (hrecorded : Recorded posts minimalProofs db) (hdb : Covered P db)
  (hrows : PendingProofs db minimalProofs size rows)
include hposts hhashed hrecorded hdb hrows

/-- The constraint allows the rows exactly if their hashes are new. -/
theorem unique_newlyValidated_iff :
    Unique (ValidatedRow.id2 P) (db.validatedTxs ++ newlyValidated P db rows) ↔
      ∀ v ∈ db.validatedTxs, v.orderHash ∉ orderHashes rows := by
  have hids : ∀ v ∈ db.validatedTxs ++ newlyValidated P db rows,
      ∀ v' ∈ db.validatedTxs ++ newlyValidated P db rows,
      v.id2 P = v'.id2 P ↔ v.orderHash = v'.orderHash := fun v hv v' hv' =>
    hposts.id2_iff hhashed (hrecorded.exists_post_of_row hrows hv)
      (hrecorded.exists_post_of_row hrows hv')
  have hold : Unique ValidatedRow.orderHash db.validatedTxs :=
    (unique_congr fun v hv v' hv' =>
      hids v (List.mem_append_left _ hv) v' (List.mem_append_left _ hv')).mp hdb.validatedTxs
  have hhashes := hdb.orderHashes_newlyValidated hrows
  have hnew : Unique ValidatedRow.orderHash (newlyValidated P db rows) := by
    unfold KeyedTable.Unique
    rw [hhashes]
    exact nodup_eraseDups _
  rw [unique_congr hids, unique_append_iff, and_iff_right hold, and_iff_right hnew, ← hhashes]
  constructor
  · intro hdisjoint v hv hmem
    obtain ⟨w, hw, heq⟩ := List.mem_map.mp hmem
    exact hdisjoint v hv w hw heq.symm
  · intro hfresh v hv w hw heq
    exact hfresh v hv (heq ▸ List.mem_map_of_mem hw)

/-- **A transaction whose hashes are new validates them.** -/
theorem process_of_fresh (hfresh : ∀ v ∈ db.validatedTxs, v.orderHash ∉ orderHashes rows) :
    processPendingProofs P db rows = some { db with
      proofs := mark ((newlyValidated P db rows).map ValidatedRow.signatures).flatten db.proofs
      validatedTxs := db.validatedTxs ++ newlyValidated P db rows } := by
  have hsignature := hrecorded.unique_signature hdb hposts
  obtain ⟨hnodup, hmem⟩ := hdb.signatures_newlyValidated hrows hsignature
  obtain ⟨-, hunique, hnew⟩ := unique_append_iff.mp
    ((unique_newlyValidated_iff hposts hhashed hrecorded hdb hrows).mpr hfresh)
  refine insertAll_iff.mpr ⟨fun v hv => hdb.listed_newlyValidated hrows hv, ⟨hunique, ?_⟩, _,
    markAll_iff.mpr ⟨⟨hnodup, fun signature hin => Pending.once hsignature ?_⟩, rfl⟩, rfl⟩
  · intro v hv hstored
    obtain ⟨w, hw, hid⟩ := stored_iff.mp hstored
    exact hnew w hw v hv hid
  · obtain ⟨p, hp, hsame⟩ := (hmem signature).mp hin
    obtain ⟨hstored, hunvalidated⟩ := mem_unvalidated.mp (hrows.mem_rows.mp hp).1
    exact ⟨p, hstored, hsame, hunvalidated⟩

/-- **A transaction throws exactly if one of its hashes already has a row.** -/
theorem process_isSome_iff :
    (processPendingProofs P db rows).isSome = true ↔
      ∀ v ∈ db.validatedTxs, v.orderHash ∉ orderHashes rows := by
  constructor
  · intro h
    obtain ⟨db', hdb'⟩ := Option.isSome_iff_exists.mp h
    obtain ⟨-, ⟨hunique, hnew⟩, -⟩ := insertAll_iff.mp hdb'
    refine (unique_newlyValidated_iff hposts hhashed hrecorded hdb hrows).mp
      (unique_append_iff.mpr ⟨hdb.validatedTxs, hunique, fun w hw v hv hid => ?_⟩)
    exact hnew v hv (stored_iff.mpr ⟨w, hw, hid⟩)
  · intro hfresh
    rw [process_of_fresh hposts hhashed hrecorded hdb hrows hfresh]
    rfl

theorem Covered.process (h : processPendingProofs P db rows = some db') : Covered P db' := by
  have hfresh := (process_isSome_iff hposts hhashed hrecorded hdb hrows).mp (by rw [h]; rfl)
  have hsignature := hrecorded.unique_signature hdb hposts
  obtain ⟨-, hmem⟩ := hdb.signatures_newlyValidated hrows hsignature
  have hunique := (unique_newlyValidated_iff hposts hhashed hrecorded hdb hrows).mpr hfresh
  have hhashes := hdb.orderHashes_newlyValidated hrows
  obtain rfl := Option.some.inj
    (h.symm.trans (process_of_fresh hposts hhashed hrecorded hdb hrows hfresh))
  generalize ((newlyValidated P db rows).map ValidatedRow.signatures).flatten = signatures at hmem ⊢
  have hfields : ∀ p : ProofRow,
      (if p.signature ∈ signatures then { p with validated := true } else p).key = p.key ∧
        (if p.signature ∈ signatures then { p with validated := true } else p).id P = p.id P ∧
        (if p.signature ∈ signatures then { p with validated := true } else p).orderHash =
          p.orderHash := by
    intro p
    split
    · exact ⟨rfl, rfl, rfl⟩
    · exact ⟨rfl, rfl, rfl⟩
  refine ⟨hdb.txs, hdb.proofs.map fun p => (hfields p).1, fun p' hp' => ?_, hunique,
    fun p' hp' hvalidated => ?_⟩
  · obtain ⟨p, hp, rfl⟩ := List.mem_map.mp hp'
    rw [(hfields p).2.1]
    exact hdb.row p hp
  · obtain ⟨p, hp, rfl⟩ := List.mem_map.mp hp'
    rw [(hfields p).2.2]
    by_cases hin : p.signature ∈ signatures
    · -- newly validated, so it is one of the selected rows
      obtain ⟨q, hq, hsame⟩ := (hmem p.signature).mp hin
      have hq' := (mem_unvalidated.mp (hrows.mem_rows.mp hq).1).1
      obtain rfl := hsignature.eq_of_mem hq' hp hsame
      have hhash : q.orderHash ∈ (newlyValidated P db rows).map ValidatedRow.orderHash := by
        rw [hhashes]
        exact mem_orderHashes.mpr ⟨q, hq, rfl⟩
      obtain ⟨v, hv, heq⟩ := List.mem_map.mp hhash
      exact ⟨v, List.mem_append_right _ hv, heq⟩
    · rw [if_neg hin] at hvalidated
      obtain ⟨v, hv, heq⟩ := hdb.validated p hp hvalidated
      exact ⟨v, List.mem_append_left _ hv, heq⟩

/-- **When nothing is left to do, every transfer with enough signers has its row.** -/
theorem exactlyOnce_of_processed (hnone : processed P db rows = 0)
    (hfits : (pendingHashes minimalProofs db).length ≤ size) :
    ExactlyOnce minimalProofs db := by
  have hids : ∀ v ∈ db.validatedTxs, ∀ v' ∈ db.validatedTxs,
      v.id2 P = v'.id2 P ↔ v.orderHash = v'.orderHash := fun v hv v' hv' =>
    hposts.id2_iff hhashed (hrecorded.exists_post_of_stored hv)
      (hrecorded.exists_post_of_stored hv')
  have hunique := (unique_congr hids).mp hdb.validatedTxs
  have hempty : pendingHashes minimalProofs db = [] := by
    have hlength := congrArg List.length (hdb.orderHashes_newlyValidated hrows)
    have hlimit : (orderHashes rows).length = min size (pendingHashes minimalProofs db).length :=
      hrows.limit
    rw [List.length_map] at hlength
    unfold processed at hnone
    exact List.length_eq_zero_iff.mp (by omega)
  intro p hp hsigners
  have hvalidated : ∃ v ∈ db.validatedTxs, v.orderHash = p.orderHash := by
    by_contra hnot
    have hmember : p.orderHash ∈ pendingHashes minimalProofs db := by
      have hopen : ∀ q ∈ db.proofs, q.orderHash = p.orderHash → q ∈ unvalidated db := by
        intro q hq hsame
        refine mem_unvalidated.mpr ⟨hq, ?_⟩
        cases hv : q.validated with
        | false => rfl
        | true =>
            obtain ⟨v, hv, heq⟩ := hdb.validated q hq hv
            exact absurd ⟨v, hv, heq.trans hsame⟩ hnot
      refine List.mem_filter.mpr ⟨mem_orderHashes.mpr ⟨p, hopen p hp rfl, rfl⟩,
        decide_eq_true (hsigners.trans (length_eraseDups_mono (List.map_subset _ ?_)))⟩
      intro q hq
      obtain ⟨hq, hsame⟩ := List.mem_filter.mp hq
      exact List.mem_filter.mpr
        ⟨hopen q (List.mem_filter.mp hq).1 (of_decide_eq_true hsame), hsame⟩
    rw [hempty] at hmember
    exact nomatch hmember
  obtain ⟨v, hv, heq, hsingle⟩ := hunique.filter_eq_singleton (stored_iff.mpr hvalidated)
  have hfilter : (db.validatedTxs.filter fun v =>
      v.event.txHash = p.event.txHash ∧ v.orderHash = p.orderHash) =
        db.validatedTxs.filter fun v => v.orderHash = p.orderHash := by
    refine List.filter_congr fun w hw => decide_eq_decide.mpr (and_iff_right_of_imp fun hsame => ?_)
    obtain ⟨tx, htx, htxHash, hhash⟩ := hrecorded.exists_post_of_stored hw
    obtain ⟨tx', htx', hattested⟩ := hrecorded.exists_post hp
    have hhash' := congrArg Attestation.orderHash hattested
    have htxHash' := congrArg (fun a : Attestation => a.tx.bitcoinTx) hattested
    exact htxHash.symm.trans ((hposts.txHash_eq hhashed htx htx'
      (hhash.trans (hsame.trans hhash'.symm))).trans htxHash')
  rw [hfilter, hsingle]
  rfl

end Transactions

/-! ## Runs -/

theorem TableAction.Configured.atLeast {a : TableAction} (h : a.Configured minimalProofs) :
    a.AtLeast minimalProofs := by
  cases a with
  | processPendingProofs minimalProofs' size rows => exact le_of_eq h.symm
  | _ => trivial

theorem Covered.post {tx : TxRequest} (hdb : Covered P db)
    (h : upsertTxWithProof P lib db tx = .ok db') : Covered P db' := by
  obtain ⟨proof, hproof, hcases⟩ := upsertTxWithProof_eq_ok.mp h
  have hproofs : db'.proofs = insertNew ProofRow.key db.proofs proof := by
    rcases hcases with ⟨-, rfl⟩ | ⟨-, _, -, rfl⟩
    · rfl
    · rfl
  have hrow : Stored (TxRow.id P) db'.txs (tx.id P) ∧
      ∀ id, Stored (TxRow.id P) db.txs id → Stored (TxRow.id P) db'.txs id := by
    rcases hcases with ⟨hstored, rfl⟩ | ⟨-, row, hrow, rfl⟩
    · exact ⟨hstored, fun _ h => h⟩
    · refine ⟨stored_append_iff.mpr (Or.inr ?_), fun _ h => h.append _⟩
      exact stored_singleton_iff.mpr (txRow_id hrow)
  have hid : proof.id P = tx.id P := congrArg (computeTxsId P) (proofRow_eq_ok hproof).1
  refine ⟨unique_txs_upsert hdb.txs h, hproofs ▸ hdb.proofs.insertNew proof, fun p hp => ?_,
    validatedTxs_upsert h ▸ hdb.validatedTxs, fun p hp hvalidated => ?_⟩
  · rcases mem_of_mem_insertNew (hproofs ▸ hp) with hold | rfl
    · exact hrow.2 _ (hdb.row p hold)
    · exact hid ▸ hrow.1
  · rw [validatedTxs_upsert h]
    rcases mem_of_mem_insertNew (hproofs ▸ hp) with hold | rfl
    · exact hdb.validated p hold hvalidated
    · rw [(proofRow_attestation hproof).2] at hvalidated
      cases hvalidated

/-- Tables with the same events in `txs` are covered alike. -/
theorem Covered.of_same (hdb : Covered P db) (hunique : Unique (TxRow.id P) db'.txs)
    (hstored : ∀ id, Stored (TxRow.id P) db.txs id → Stored (TxRow.id P) db'.txs id)
    (hproofs : db'.proofs = db.proofs) (hvalidated : db'.validatedTxs = db.validatedTxs) :
    Covered P db' where
  txs := hunique
  proofs := hproofs ▸ hdb.proofs
  row p hp := hstored _ (hdb.row p (hproofs ▸ hp))
  validatedTxs := hvalidated ▸ hdb.validatedTxs
  validated p hp := hvalidated ▸ hdb.validated p (hproofs ▸ hp)

theorem stored_setTxsWithError (txErrors : List (Event × Text)) (id : Bytes)
    (h : Stored (TxRow.id P) db.txs id) :
    Stored (TxRow.id P) (setTxsWithError txErrors db).txs id := by
  have hmined := congrArg Option.isSome (mined_setTxsWithError P db txErrors id)
  rw [Option.isSome_map, Option.isSome_map] at hmined
  exact hmined.trans h

/-- **Every action keeps the tables covered**, one that throws too. -/
theorem Covered.next (hposts : Distinct P posts) (hhashed : Hashed P posts)
    (hrecorded : Recorded posts minimalProofs db) (hdb : Covered P db) {a : TableAction}
    (ha : a.Configured minimalProofs) : Covered P ((tables P lib).next db a) := by
  show Covered P ((a.exec P lib db).getD db)
  cases hexec : a.exec P lib db with
  | none => exact hdb
  | some db' =>
      show Covered P db'
      cases a with
      | post tx => exact hdb.post (postTx_eq_ok (toOption_eq_some.mp hexec))
      | processPendingProofs minimalProofs' size rows =>
          obtain rfl : minimalProofs' = minimalProofs := ha
          rw [TableAction.exec] at hexec
          split at hexec
          · next hrows => exact Covered.process hposts hhashed hrecorded hdb hrows hexec
          · cases hexec
      | setAlreadyIndexed account indexedTxs =>
          obtain rfl := Option.some.inj hexec
          exact hdb.of_same hdb.txs (fun _ h => h) rfl rfl
      | setTxsWithError txErrors =>
          obtain rfl := Option.some.inj hexec
          exact hdb.of_same (unique_setTxsWithError hdb.txs txErrors)
            (stored_setTxsWithError txErrors) rfl rfl
      | upsertSubmittedTx params =>
          obtain ⟨rows, -, rfl⟩ := Option.map_eq_some_iff.mp hexec
          exact hdb.of_same hdb.txs (fun _ h => h) rfl rfl
      | onRBFTx nonce newTxId submittedBy =>
          obtain rfl := Option.some.inj hexec
          exact hdb.of_same hdb.txs (fun _ h => h) rfl rfl

theorem covered_empty : Covered P .empty where
  txs := List.nodup_nil
  proofs := List.nodup_nil
  row _ hp := nomatch hp
  validatedTxs := List.nodup_nil
  validated _ hp := nomatch hp

variable (P lib) in
/-- **The worker never throws exactly if no hash is selected twice.**  Posts and
transactions come in any order, with any number of signers; what the worker leaves when
it has nothing more to do is complete in any case. -/
theorem validated_once_iff {actions : List TableAction}
    (hactions : ∀ a ∈ actions, a.Configured minimalProofs)
    (hposts : Distinct P {tx | tx ∈ (tables P lib).history .empty actions}) :
    (tables P lib).Along (fun db a => a.Succeeds P db ∧ a.Finishes P db) .empty actions ↔
      (tables P lib).Along (fun db a => a.Fresh db) .empty actions := by
  have hhashed := hashed_history P lib .empty actions
  have hrun := along_recorded P lib .empty fun a ha => (hactions a ha).atLeast
  have hstart := Machine.along_and.mpr ⟨hrun, Machine.along_of_forall fun a ha _ => hactions a ha⟩
  generalize {tx | tx ∈ (tables P lib).history .empty actions} = posts at *
  refine Machine.Along.congr (Machine.along_invariant
    (fun db => Recorded posts minimalProofs db ∧ Covered P db)
    (fun db a ha h => ⟨h.1.next ha.1.1 ha.1.2, h.2.next hposts hhashed h.1 ha.2⟩)
    hstart ⟨recorded_empty, covered_empty⟩) ?_
  rintro db a ⟨⟨-, ha⟩, hrecorded, hdb⟩
  cases a with
  | processPendingProofs minimalProofs' size rows =>
      obtain rfl : minimalProofs' = minimalProofs := ha
      constructor
      · intro h hrows
        exact (process_isSome_iff hposts hhashed hrecorded hdb hrows).mp (h.1 hrows)
      · intro h
        exact ⟨fun hrows => (process_isSome_iff hposts hhashed hrecorded hdb hrows).mpr (h hrows),
          fun hrows => exactlyOnce_of_processed hposts hhashed hrecorded hdb hrows⟩
  | post tx => exact iff_of_true ⟨trivial, trivial⟩ trivial
  | setAlreadyIndexed account indexedTxs => exact iff_of_true ⟨trivial, trivial⟩ trivial
  | setTxsWithError txErrors => exact iff_of_true ⟨trivial, trivial⟩ trivial
  | upsertSubmittedTx params => exact iff_of_true ⟨trivial, trivial⟩ trivial
  | onRBFTx nonce newTxId submittedBy => exact iff_of_true ⟨trivial, trivial⟩ trivial

/-- A transaction of the worker is no post. -/
theorem log_process (db : Database) (minimalProofs size : Nat) (rows : List ProofRow) :
    (tables P lib).log db (.processPendingProofs minimalProofs size rows) = [] :=
  ite_self _

/-- Posts of one transfer are distinct by their signatures. -/
theorem distinct_of_same {requests : List TxRequest} {arg : TxArgument} {hash : Bytes}
    (hsame : ∀ tx ∈ requests, tx.txArgument = arg ∧ tx.orderHash = hash)
    (hsignature : Unique TxRequest.signature requests) :
    Distinct P {tx | tx ∈ requests} := by
  refine ⟨fun tx htx tx' htx' heq => ?_, ?_, ?_⟩
  · rw [hsignature.eq_of_mem htx htx' heq]
  · rintro arg₁ ⟨tx₁, htx₁, harg₁⟩ arg₂ ⟨tx₂, htx₂, harg₂⟩ -
    rw [(hsame tx₁ htx₁).1] at harg₁
    rw [(hsame tx₂ htx₂).1] at harg₂
    exact Option.some.inj (harg₁.symm.trans harg₂)
  · rintro x ⟨tx₁, htx₁, rfl⟩ y ⟨tx₂, htx₂, rfl⟩ -
    obtain ⟨harg₁, hhash₁⟩ := hsame tx₁ htx₁
    obtain ⟨harg₂, hhash₂⟩ := hsame tx₂ htx₂
    exact Prod.ext (congrArg TxArgument.bitcoinTx (harg₁.trans harg₂.symm))
      (hhash₁.trans hhash₂.symm)

end Indexer

/-! ## Two validators are late -/

namespace Sample
open Indexer Relayer

theorem distinct_transfer {requests : List TxRequest}
    (hsame : ∀ tx ∈ requests, tx.txArgument = transfer.argument ∧ tx.orderHash = orderHash)
    (hsignature : Unique TxRequest.signature requests) :
    Distinct relayPrimitives {tx | tx ∈ requests} :=
  distinct_of_same hsame hsignature

/-- Posts validate nothing. -/
theorem validatedTxs_posts (posts : List TxRequest) : ((tables relayPrimitives bitcoinLib).run
    .empty (posts.map .post)).validatedTxs = [] := by
  have hposts : (tables relayPrimitives bitcoinLib).Along (fun _ a => ∃ tx, a = .post tx) .empty
      (posts.map .post) := by
    refine Machine.along_of_forall fun a ha db => ?_
    obtain ⟨tx, -, rfl⟩ := List.mem_map.mp ha
    exact ⟨tx, rfl⟩
  refine Machine.run_invariant (fun db => db.validatedTxs = []) ?_ hposts rfl
  rintro db a ⟨tx, rfl⟩ hdb
  cases hexec : TableAction.exec relayPrimitives bitcoinLib db (.post tx) with
  | none => simpa [tables, hexec] using hdb
  | some db' =>
      have hpost := validatedTxs_upsert (postTx_eq_ok (toOption_eq_some.mp hexec))
      simpa [tables, hexec] using hpost.trans hdb

theorem configured_processAfter (posts : List TxRequest) :
    ∀ a ∈ processAfter posts, a.Configured 2 := by
  intro a ha
  rcases List.mem_append.mp ha with hpost | hprocess
  · obtain ⟨tx, -, rfl⟩ := List.mem_map.mp hpost
    trivial
  · rw [List.mem_singleton.mp hprocess]
    rfl

/-- Two validators post, and the worker validates their transfer. -/
theorem validated_agreed : (tables relayPrimitives bitcoinLib).Along
    (fun db a => a.Succeeds relayPrimitives db ∧ a.Finishes relayPrimitives db) .empty
    (processAfter [bisPost, unisatPost]) := by
  have hdistinct : Distinct relayPrimitives {tx | tx ∈ (tables relayPrimitives bitcoinLib).history
      .empty (processAfter [bisPost, unisatPost])} := by
    rw [processAfter_agreed.1]
    exact distinct_transfer (by decide) (by decide)
  refine (validated_once_iff relayPrimitives bitcoinLib (configured_processAfter _) hdistinct).mpr
    (Machine.along_append.mpr ⟨⟨trivial, trivial, trivial⟩, fun _ v hv => ?_, trivial⟩)
  rw [validatedTxs_posts] at hv
  exact nomatch hv

def thirdPost : TxRequest :=
  post .okx thirdSignature.bytes thirdKey.bytes "ST2CY5V39NHDPWSXMW9QDT3HC3GD6Q6XX4CFRK9AG".toList

def fourthSignature : Buff 65 :=
  signature 0xd1cd7063dacf89c5f625dbc1bdc29a2a4fe7d7212e6a4cb7046c939540763b7d
    0x4b0ac839da2e0dd5a8ea27573f8db35e9344e51d9d91833d670a08034bb230a0 0

def fourthKey : Buff 33 :=
  ⟨bytesBe 33 0x03b3e0a76b292b2c83fc0ac14ae6160d0438ebe94e14bbb5b7755153628886e08e, by decide⟩

def fourthPost : TxRequest :=
  post .hiro fourthSignature.bytes fourthKey.bytes
    "ST2NEB84ASENDXKYGJPQW86YXQCEFEX2ZQPG87ND".toList

/-- Two more validators post the transfer once it has been validated. -/
def lateActions : List TableAction :=
  processAfter [bisPost, unisatPost] ++ [.post thirdPost, .post fourthPost]

def lateTables : Database := (tables relayPrimitives bitcoinLib).run .empty lateActions

theorem lateTables_process :
    (tables relayPrimitives bitcoinLib).history .empty lateActions =
        [bisPost, unisatPost, thirdPost, fourthPost] ∧
      PendingProofs lateTables 2 1000 (unvalidated lateTables) ∧
      processPendingProofs relayPrimitives lateTables (unvalidated lateTables) = none := by
  decide +kernel

/-- **Enough late proofs throw the worker out of its loop.** -/
theorem late_proofs_throw :
    Distinct relayPrimitives {tx | tx ∈ (tables relayPrimitives bitcoinLib).history .empty
        (lateActions ++ [.processPendingProofs 2 1000 (unvalidated lateTables)])} ∧
      ¬ (tables relayPrimitives bitcoinLib).Along (fun db a =>
          a.Succeeds relayPrimitives db ∧ a.Finishes relayPrimitives db) .empty
        (lateActions ++ [.processPendingProofs 2 1000 (unvalidated lateTables)]) := by
  obtain ⟨hhistory, hrows, hnone⟩ := lateTables_process
  constructor
  · rw [Machine.history_append, hhistory, Machine.history_cons, log_process, Machine.history_nil,
      List.append_nil]
    exact distinct_transfer (by decide) (by decide)
  · intro h
    obtain ⟨-, ⟨hsucceeds, -⟩, -⟩ := Machine.along_append.mp h
    have hsome : (processPendingProofs relayPrimitives lateTables
        (unvalidated lateTables)).isSome = true := hsucceeds hrows
    rw [hnone] at hsome
    cases hsome

end Sample
end BitcoinOracle
