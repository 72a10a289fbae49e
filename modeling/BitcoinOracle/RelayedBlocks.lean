import BitcoinOracle.LoggedRun
import BitcoinOracle.RelayedBatches
import BitcoinOracle.RelayerTables

/-! # Which block an event is relayed with

The block of an event, its branch and its index are no part of the hash the
validators sign.  They are stored once, with the first post of the event, and both
`syncOnce` and `processPendingProofs` take them from there, whatever the later posts
say (`relayed_mined_first`).  That the block has the transaction is checked by the
contract.
-/
namespace BitcoinOracle
open Clarity KeyedTable Relayer

namespace Indexer
variable (P : Primitives)

/-! ## Validated transactions -/

/-- `computeValidatedTxsId`, which the unique `id2` is generated by. -/
def computeValidatedTxsId (txHash orderHash : Bytes) : Bytes :=
  P.sha256 (ascii (hex txHash ++ ':' :: hex orderHash))

def ValidatedRow.id (row : ValidatedRow) : Bytes := computeTxsId P row.event

def ValidatedRow.id2 (row : ValidatedRow) : Bytes :=
  computeValidatedTxsId P row.event.txHash row.orderHash

def unvalidated (db : Database) : List ProofRow := db.proofs.filter fun p => !p.validated

/-- `count(distinct signer)` of the proofs of a hash. -/
def countSigners (proofs : List ProofRow) (orderHash : Bytes) : Nat :=
  ((proofs.filter fun p => p.orderHash = orderHash).map ProofRow.signer).eraseDups.length

/-- The hashes of some rows, as `batch` gets to know them. -/
def orderHashes (rows : List ProofRow) : List Bytes := (rows.map ProofRow.orderHash).eraseDups

/-- The order of `bytea`. -/
def bytesLe : Bytes → Bytes → Bool
  | [], _ => true
  | _ :: _, [] => false
  | a :: as, b :: bs => a.toNat < b.toNat || (a.toNat = b.toNat && bytesLe as bs)

/-- What the query of `processPendingProofs` can answer.  Which hashes `limit` takes,
and how the rows of a hash are ordered, is up to the database. -/
structure PendingProofs (db : Database) (minimalProofs size : Nat) (rows : List ProofRow) :
    Prop where
  sorted : rows.Pairwise fun p q => bytesLe p.orderHash q.orderHash = true
  perm : rows.Perm ((unvalidated db).filter fun p => p.orderHash ∈ orderHashes rows)
  enough : ∀ hash ∈ orderHashes rows, minimalProofs ≤ countSigners (unvalidated db) hash
  limit : (orderHashes rows).length = min size
    ((orderHashes (unvalidated db)).filter fun hash =>
      minimalProofs ≤ countSigners (unvalidated db) hash).length

instance (db : Database) (minimalProofs size : Nat) (rows : List ProofRow) :
    Decidable (PendingProofs db minimalProofs size rows) :=
  decidable_of_iff (_ ∧ _ ∧ _ ∧ _)
    ⟨fun ⟨h1, h2, h3, h4⟩ => ⟨h1, h2, h3, h4⟩, fun h => ⟨h.1, h.2, h.3, h.4⟩⟩

/-- The entries of `batch`. -/
def batches (rows : List ProofRow) : List (List ProofRow) :=
  (orderHashes rows).map fun hash => rows.filter fun p => p.orderHash = hash

/-- The event is that of the first proof, the block that of the row of `txs`. -/
def validatedTx (proof : ProofRow) (proofs : List ProofRow) (tx : TxRow) : ValidatedRow where
  event := proof.event
  orderHash := proof.orderHash
  amt := proof.amt
  bitcoinTx := tx.header
  decimals := proof.decimals
  fromUser := proof.fromUser
  fromBal := proof.fromBal
  tick := proof.tick
  toUser := proof.toUser
  toBal := proof.toBal
  proofHashes := tx.proofHashes
  txIndex := tx.txIndex
  treeDepth := tx.treeDepth
  txId := tx.txId
  height := tx.height
  signers := proofs.map ProofRow.signer
  signerPubkeys := proofs.map ProofRow.signerPubkey
  signerTypes := proofs.map ProofRow.type
  signatures := proofs.map ProofRow.signature

/-- What one entry of `batch` is validated to; nothing, if the event has no row. -/
def validateBatch (db : Database) (proofs : List ProofRow) : Option ValidatedRow :=
  match proofs with
  | [] => none
  | proof :: _ =>
      match db.txs.filter fun tx => tx.id P = proof.id P with
      | [tx] => some (validatedTx proof proofs tx)
      | _ => none

/-- The update of the one proof with the signature, or `none` for an exception. -/
def markValidated (proofs : List ProofRow) (signature : Bytes) : Option (List ProofRow) :=
  match proofs.filter fun p => p.signature = signature ∧ p.validated = false with
  | [_] => some (proofs.map fun p =>
      if p.signature = signature ∧ p.validated = false then { p with validated := true } else p)
  | _ => none

/-- `none` for an exception, which takes the whole transaction back. -/
def insertValidatedTx (db : Database) (tx : ValidatedRow) : Option Database :=
  if tx.signatures.length = 0 ∨ tx.signatures.length ≠ tx.signers.length ∨
      tx.signerTypes.length ≠ tx.signers.length then none
  else if Stored (ValidatedRow.id2 P) db.validatedTxs (tx.id2 P) then none
  else (tx.signatures.foldlM markValidated db.proofs).map fun proofs =>
    { db with proofs := proofs, validatedTxs := db.validatedTxs ++ [tx] }

def processPendingProofs (db : Database) (rows : List ProofRow) : Option Database :=
  ((batches rows).filterMap (validateBatch P db)).foldlM (insertValidatedTx P) db

/-! ## The tables over time -/

/-- Everything that writes to the tables. -/
inductive TableAction where
  | post (tx : TxRequest)
  | processPendingProofs (minimalProofs size : Nat) (rows : List ProofRow)
  | setAlreadyIndexed (account : Text) (indexedTxs : List Event)
  | setTxsWithError (txErrors : List (Event × Text))
  | upsertSubmittedTx (params : List SubmittedParams)
  | onRBFTx (nonce : Int) (newTxId : Bytes) (submittedBy : Text)

/-- The tables after one action that succeeds. -/
def TableAction.exec (lib : BitcoinLib) (db : Database) : TableAction → Option Database
  | .post tx => (postTx P lib db tx).toOption
  | .processPendingProofs minimalProofs size rows =>
      if PendingProofs db minimalProofs size rows then Indexer.processPendingProofs P db rows
      else none
  | .setAlreadyIndexed account indexedTxs => some (Relayer.setAlreadyIndexed account indexedTxs db)
  | .setTxsWithError txErrors => some (Relayer.setTxsWithError txErrors db)
  | .upsertSubmittedTx params => Relayer.upsertSubmittedTx params db
  | .onRBFTx nonce newTxId submittedBy => some (Relayer.onRBFTx nonce newTxId submittedBy db)

/-- The post of an action. -/
def TableAction.posted : TableAction → List TxRequest
  | .post tx => [tx]
  | _ => []

/-- The tables, as posts arrive and both services work on them.  An action that fails
changes nothing; the log are the posts that have been stored, in order. -/
def tables (lib : BitcoinLib) : Machine Database TableAction TxRequest where
  next db a := (a.exec P lib db).getD db
  log db a := if (a.exec P lib db).isSome = true then a.posted else []

variable {P} {lib : BitcoinLib} {db db' : Database}

def ValidatedRow.mined (row : ValidatedRow) : Mined :=
  ⟨row.bitcoinTx, row.height, row.proofHashes, row.txIndex, row.treeDepth⟩

theorem validateBatch_eq_some {proofs : List ProofRow} {v : ValidatedRow} :
    validateBatch P db proofs = some v ↔ ∃ proof rest tx, proofs = proof :: rest ∧
      (db.txs.filter fun tx => tx.id P = proof.id P) = [tx] ∧ v = validatedTx proof proofs tx := by
  cases proofs with
  | nil => exact iff_of_false nofun fun ⟨_, _, _, hnil, _⟩ => nomatch hnil
  | cons proof rest =>
      rw [validateBatch]
      constructor
      · intro h
        split at h
        · next tx htx => exact ⟨proof, rest, tx, rfl, htx, (Option.some.inj h).symm⟩
        · cases h
      · rintro ⟨_, _, tx, hproofs, htx, rfl⟩
        cases hproofs
        rw [htx]

/-- The block of a validated transaction is that of its event's row of `txs`. -/
theorem validateBatch_mined {proofs : List ProofRow} {v : ValidatedRow}
    (h : validateBatch P db proofs = some v) :
    ∃ tx ∈ db.txs, tx.id P = v.id P ∧ v.mined = tx.mined := by
  obtain ⟨proof, rest, tx, -, htx, rfl⟩ := validateBatch_eq_some.mp h
  have hmem : tx ∈ db.txs.filter fun tx => tx.id P = proof.id P := by
    rw [htx]
    exact List.mem_singleton_self tx
  obtain ⟨hrow, hid⟩ := List.mem_filter.mp hmem
  exact ⟨tx, hrow, of_decide_eq_true hid, rfl⟩

/-! ## Marking proofs, and inserting -/

/-- The proofs, once some have been validated. -/
def mark (signatures : List Bytes) (proofs : List ProofRow) : List ProofRow :=
  proofs.map fun p => if p.signature ∈ signatures then { p with validated := true } else p

theorem mark_signature (signatures : List Bytes) (p : ProofRow) :
    (if p.signature ∈ signatures then { p with validated := true } else p).signature =
      p.signature := by
  split
  · rfl
  · rfl

theorem mark_nil (proofs : List ProofRow) : mark [] proofs = proofs := by
  rw [mark, List.map_congr_left (fun p _ => if_neg List.not_mem_nil)]
  exact List.map_id proofs

theorem mark_append (signatures signatures' : List Bytes) (proofs : List ProofRow) :
    mark (signatures ++ signatures') proofs = mark signatures' (mark signatures proofs) := by
  rw [mark, mark, mark, List.map_map]
  refine List.map_congr_left fun p _ => ?_
  rw [Function.comp_apply, mark_signature]
  by_cases hfirst : p.signature ∈ signatures
  · rw [if_pos (List.mem_append_left _ hfirst), if_pos hfirst]
    split
    · rfl
    · rfl
  · rw [if_neg hfirst]
    by_cases hlater : p.signature ∈ signatures'
    · rw [if_pos hlater, if_pos (List.mem_append_right _ hlater)]
    · rw [if_neg hlater, if_neg (fun h => (List.mem_append.mp h).elim hfirst hlater)]

/-- One unvalidated proof has the signature. -/
def PendingOnce (proofs : List ProofRow) (signature : Bytes) : Prop :=
  (proofs.filter fun p => p.signature = signature ∧ p.validated = false).length = 1

instance (proofs : List ProofRow) (signature : Bytes) : Decidable (PendingOnce proofs signature) :=
  inferInstanceAs (Decidable (_ = _))

/-- An update does what `mark` does, if it finds its one proof. -/
theorem markValidated_iff {proofs proofs' : List ProofRow} {signature : Bytes} :
    markValidated proofs signature = some proofs' ↔
      PendingOnce proofs signature ∧ proofs' = mark [signature] proofs := by
  have hmark : (proofs.map fun p => if p.signature = signature ∧ p.validated = false then
      { p with validated := true } else p) = mark [signature] proofs := by
    refine List.map_congr_left fun p _ => ?_
    by_cases hsame : p.signature = signature
    · rw [if_pos (List.mem_singleton.mpr hsame)]
      split
      · rfl
      · next hnot =>
          have hvalidated : p.validated = true := by simpa [hsame] using hnot
          rw [← hvalidated]
    · rw [if_neg fun h => hsame h.1, if_neg fun h => hsame (List.mem_singleton.mp h)]
  rw [markValidated, PendingOnce, hmark]
  generalize (proofs.filter fun p => p.signature = signature ∧ p.validated = false) = found
  match found with
  | [] => simp
  | [_] => simp [eq_comm]
  | _ :: _ :: _ => simp

/-- Marking a signature leaves the others pending as they are. -/
theorem pendingOnce_mark_iff {proofs : List ProofRow} {signatures : List Bytes}
    {signature : Bytes} : PendingOnce (mark signatures proofs) signature ↔
      signature ∉ signatures ∧ PendingOnce proofs signature := by
  rw [PendingOnce, PendingOnce, mark, List.filter_map, List.length_map]
  by_cases hmem : signature ∈ signatures
  · rw [List.filter_eq_nil_iff.mpr fun p _ => ?_]
    · simp [hmem]
    · by_cases hin : p.signature ∈ signatures
      · simp [hin]
      · have hne : p.signature ≠ signature := fun heq => hin (heq ▸ hmem)
        simp [hin, hne]
  · rw [and_iff_right hmem]
    refine iff_of_eq (congrArg (fun l : List ProofRow => l.length = 1) ?_)
    refine List.filter_congr fun p _ => ?_
    by_cases hin : p.signature ∈ signatures
    · have hne : p.signature ≠ signature := fun heq => hmem (heq ▸ hin)
      simp [hin, hne]
    · simp [hin]

/-- **Marking some signatures succeeds exactly if they are different and each has its one
proof.** -/
theorem markAll_iff {signatures : List Bytes} {proofs proofs' : List ProofRow} :
    signatures.foldlM markValidated proofs = some proofs' ↔
      (signatures.Nodup ∧ ∀ signature ∈ signatures, PendingOnce proofs signature) ∧
        proofs' = mark signatures proofs := by
  induction signatures generalizing proofs with
  | nil => simp [mark_nil, eq_comm]
  | cons signature signatures ih =>
      have happend := mark_append [signature] signatures proofs
      rw [List.foldlM_cons, Option.bind_eq_bind, Option.bind_eq_some_iff, List.nodup_cons]
      constructor
      · rintro ⟨proofs₁, hfirst, hrest⟩
        obtain ⟨honce, rfl⟩ := markValidated_iff.mp hfirst
        obtain ⟨⟨hnodup, hlater⟩, rfl⟩ := ih.mp hrest
        refine ⟨⟨⟨fun hmem => ?_, hnodup⟩, fun signature' hmem => ?_⟩, happend.symm⟩
        · exact (pendingOnce_mark_iff.mp (hlater signature hmem)).1 (List.mem_singleton_self _)
        · rcases List.mem_cons.mp hmem with rfl | hmem
          · exact honce
          · exact (pendingOnce_mark_iff.mp (hlater signature' hmem)).2
      · rintro ⟨⟨⟨hnew, hnodup⟩, honce⟩, rfl⟩
        refine ⟨_, markValidated_iff.mpr ⟨honce signature List.mem_cons_self, rfl⟩,
          ih.mpr ⟨⟨hnodup, fun signature' hmem => ?_⟩, happend⟩⟩
        refine pendingOnce_mark_iff.mpr ⟨fun heq => ?_, honce _ (List.mem_cons_of_mem _ hmem)⟩
        exact hnew (List.mem_singleton.mp heq ▸ hmem)

/-- What a row lists about its signers is complete. -/
def ValidatedRow.Listed (v : ValidatedRow) : Prop :=
  v.signatures ≠ [] ∧ v.signatures.length = v.signers.length ∧
    v.signerTypes.length = v.signers.length

/-- **When an insert succeeds, and what it does.** -/
theorem insertValidatedTx_iff {v : ValidatedRow} : insertValidatedTx P db v = some db' ↔
    v.Listed ∧ ¬ Stored (ValidatedRow.id2 P) db.validatedTxs (v.id2 P) ∧
      ∃ proofs, v.signatures.foldlM markValidated db.proofs = some proofs ∧
        db' = { db with proofs := proofs, validatedTxs := db.validatedTxs ++ [v] } := by
  have hlisted : (v.signatures.length = 0 ∨ v.signatures.length ≠ v.signers.length ∨
      v.signerTypes.length ≠ v.signers.length) ↔ ¬ v.Listed := by
    rw [ValidatedRow.Listed, List.length_eq_zero_iff]
    tauto
  by_cases hl : v.Listed
  · rw [insertValidatedTx, if_neg fun h => hlisted.mp h hl]
    by_cases hstored : Stored (ValidatedRow.id2 P) db.validatedTxs (v.id2 P)
    · simp [hstored]
    · simp [hl, hstored, eq_comm]
  · rw [insertValidatedTx, if_pos (hlisted.mpr hl)]
    simp [hl]

/-- **The inserts of a transaction**: their ids are new, and all of their proofs can be
marked one after the other. -/
theorem insertAll_iff {txs : List ValidatedRow} :
    txs.foldlM (insertValidatedTx P) db = some db' ↔
      (∀ v ∈ txs, v.Listed) ∧
      (Unique (ValidatedRow.id2 P) txs ∧
        ∀ v ∈ txs, ¬ Stored (ValidatedRow.id2 P) db.validatedTxs (v.id2 P)) ∧
      ∃ proofs, (txs.map ValidatedRow.signatures).flatten.foldlM markValidated db.proofs =
          some proofs ∧
        db' = { db with proofs := proofs, validatedTxs := db.validatedTxs ++ txs } := by
  induction txs generalizing db with
  | nil =>
      have hnone : Unique (ValidatedRow.id2 P) ([] : List ValidatedRow) := List.nodup_nil
      simp [hnone, eq_comm]
  | cons v txs ih =>
      rw [List.foldlM_cons, Option.bind_eq_bind, Option.bind_eq_some_iff, List.map_cons,
        List.flatten_cons, List.foldlM_append]
      constructor
      · rintro ⟨db₁, hfirst, hrest⟩
        obtain ⟨hlisted, hnew, proofs, hproofs, rfl⟩ := insertValidatedTx_iff.mp hfirst
        obtain ⟨hlisteds, ⟨hunique, hnews⟩, proofs', hproofs', rfl⟩ := ih.mp hrest
        refine ⟨List.forall_mem_cons.mpr ⟨hlisted, hlisteds⟩, ⟨?_, ?_⟩, proofs', ?_, ?_⟩
        · refine List.nodup_cons.mpr ⟨fun hmem => ?_, hunique⟩
          obtain ⟨w, hw, hid⟩ := List.mem_map.mp hmem
          exact hnews w hw (stored_append_iff.mpr (Or.inr (stored_singleton_iff.mpr hid.symm)))
        · exact List.forall_mem_cons.mpr ⟨hnew, fun w hw hstored => hnews w hw (hstored.append _)⟩
        · rw [hproofs]
          exact hproofs'
        · simp
      · rintro ⟨hlisted, ⟨hunique, hnews⟩, proofs', hproofs', rfl⟩
        obtain ⟨proofs, hproofs, hrest⟩ := Option.bind_eq_some_iff.mp hproofs'
        obtain ⟨hother, hunique⟩ := List.nodup_cons.mp hunique
        refine ⟨_, insertValidatedTx_iff.mpr ⟨hlisted v List.mem_cons_self,
          hnews v List.mem_cons_self, proofs, hproofs, rfl⟩,
          ih.mpr ⟨fun w hw => hlisted w (List.mem_cons_of_mem v hw), ⟨hunique, ?_⟩, proofs',
            hrest, ?_⟩⟩
        · intro w hw hstored
          rcases stored_append_iff.mp hstored with hold | hsame
          · exact hnews w (List.mem_cons_of_mem v hw) hold
          · exact hother (stored_singleton_iff.mp hsame ▸ List.mem_map_of_mem hw)
        · simp

/-! ## Whose block it is -/

theorem processPendingProofs_eq_some {rows : List ProofRow}
    (h : processPendingProofs P db rows = some db') : db'.txs = db.txs ∧
      db'.validatedTxs = db.validatedTxs ++ (batches rows).filterMap (validateBatch P db) := by
  obtain ⟨-, -, proofs, -, rfl⟩ := insertAll_iff.mp h
  exact ⟨rfl, rfl⟩

variable (P) in
/-- Blocks are those of the first posts: in `txs`, and from there in `validated_txs`. -/
structure FirstPosted (start : Database) (log : List TxRequest) (db : Database) : Prop where
  unique : Unique (TxRow.id P) db.txs
  mined : ∀ id, (lookup (TxRow.id P) db.txs id).map TxRow.mined =
    ((lookup (TxRow.id P) start.txs id).map TxRow.mined).or
      ((lookup (TxRequest.id P) log id).map TxRequest.mined)
  validated : ∀ v ∈ db.validatedTxs, v ∈ start.validatedTxs ∨
    (lookup (TxRow.id P) db.txs (v.id P)).map TxRow.mined = some v.mined

theorem firstPosted_start {start : Database} (h : Unique (TxRow.id P) start.txs) :
    FirstPosted P start [] start where
  unique := h
  mined _ := (Option.or_none ..).symm
  validated _ hv := Or.inl hv

/-- Tables with the same blocks and no other validated transactions are as good. -/
theorem FirstPosted.of_same {start : Database} {log : List TxRequest}
    (h : FirstPosted P start log db) (hunique : Unique (TxRow.id P) db'.txs)
    (hmined : ∀ id, (lookup (TxRow.id P) db'.txs id).map TxRow.mined =
      (lookup (TxRow.id P) db.txs id).map TxRow.mined)
    (hvalidated : ∀ v ∈ db'.validatedTxs, v ∈ db.validatedTxs ∨
      (lookup (TxRow.id P) db.txs (v.id P)).map TxRow.mined = some v.mined) :
    FirstPosted P start log db' where
  unique := hunique
  mined id := (hmined id).trans (h.mined id)
  validated v hv := by
    rw [hmined]
    rcases hvalidated v hv with hold | hnew
    · exact h.validated v hold
    · exact Or.inr hnew

theorem FirstPosted.post {start : Database} {log : List TxRequest} {tx : TxRequest}
    (h : FirstPosted P start log db) (hpost : upsertTxWithProof P lib db tx = .ok db') :
    FirstPosted P start (log ++ [tx]) db' where
  unique := unique_txs_upsert h.unique hpost
  mined id := by
    rw [mined_upsert hpost, h.mined, lookup_append, Option.map_or, lookup_cons, Option.or_assoc]
    by_cases hid : tx.id P = id
    · rw [if_pos hid, if_pos hid]
      rfl
    · rw [if_neg hid, if_neg hid]
      rfl
  validated v hv := by
    obtain ⟨_, -, ⟨-, rfl⟩ | ⟨-, _, -, rfl⟩⟩ := upsertTxWithProof_eq_ok.mp hpost
    all_goals
      rcases h.validated v hv with hold | hnew
      · exact Or.inl hold
      · refine Or.inr ?_
        rw [mined_upsert hpost, hnew]
        rfl

theorem FirstPosted.process {start : Database} {log : List TxRequest} {rows : List ProofRow}
    (h : FirstPosted P start log db) (hrows : Indexer.processPendingProofs P db rows = some db') :
    FirstPosted P start log db' := by
  obtain ⟨htxs, hvalidated⟩ := processPendingProofs_eq_some hrows
  apply h.of_same
  · rw [htxs]
    exact h.unique
  · intro id
    rw [htxs]
  · intro v hv
    rw [hvalidated, List.mem_append] at hv
    rcases hv with hold | hnew
    · exact Or.inl hold
    · obtain ⟨proofs, -, hbatch⟩ := List.mem_filterMap.mp hnew
      obtain ⟨tx, htx, hid, hmined⟩ := validateBatch_mined hbatch
      refine Or.inr ?_
      rw [← hid, h.unique.lookup_of_mem htx, Option.map_some, hmined]

/-- **Every action keeps the blocks of the first posts.** -/
theorem FirstPosted.next {start : Database} {log : List TxRequest} (h : FirstPosted P start log db)
    (a : TableAction) :
    FirstPosted P start (log ++ (tables P lib).log db a) ((tables P lib).next db a) := by
  show FirstPosted P start (log ++ if (a.exec P lib db).isSome = true then a.posted else [])
    ((a.exec P lib db).getD db)
  cases hexec : a.exec P lib db with
  | none =>
      rw [if_neg (by nofun), List.append_nil]
      exact h
  | some db' =>
      rw [if_pos (by rfl)]
      show FirstPosted P start (log ++ a.posted) db'
      have hquiet : FirstPosted P start log db' → FirstPosted P start (log ++ []) db' := by
        rw [List.append_nil]
        exact id
      cases a with
      | post tx => exact h.post (postTx_eq_ok (toOption_eq_some.mp hexec))
      | processPendingProofs minimalProofs size rows =>
          apply hquiet
          rw [TableAction.exec] at hexec
          split at hexec
          · exact h.process hexec
          · cases hexec
      | setAlreadyIndexed account indexedTxs =>
          obtain rfl := Option.some.inj hexec
          apply hquiet
          exact h.of_same h.unique (fun _ => rfl) fun v hv => Or.inl hv
      | setTxsWithError txErrors =>
          obtain rfl := Option.some.inj hexec
          apply hquiet
          exact h.of_same (unique_setTxsWithError h.unique txErrors)
            (mined_setTxsWithError P db txErrors) fun v hv => Or.inl hv
      | upsertSubmittedTx params =>
          apply hquiet
          obtain ⟨rows, -, rfl⟩ := Option.map_eq_some_iff.mp hexec
          exact h.of_same h.unique (fun _ => rfl) fun v hv => Or.inl hv
      | onRBFTx nonce newTxId submittedBy =>
          obtain rfl := Option.some.inj hexec
          apply hquiet
          exact h.of_same h.unique (fun _ => rfl) fun v hv => Or.inl hv

variable (P lib) in
theorem firstPosted_run {start : Database} (h : Unique (TxRow.id P) start.txs)
    (actions : List TableAction) :
    FirstPosted P start ((tables P lib).history start actions)
      ((tables P lib).run start actions) := by
  refine (tables P lib).history_of_step (FirstPosted P start) ?_ (firstPosted_start h) actions
  exact fun log db a hdb => hdb.next a

end Indexer

/-! ## What is relayed -/

namespace Relayer
open Indexer
variable {P : Primitives} {lib : BitcoinLib}

/-- The block and the proof of an input. -/
def TxManyInput.mined (i : TxManyInput) : Mined :=
  ⟨i.block.header, i.block.height, i.proof.hashes, i.proof.txIndex, i.proof.treeDepth⟩

theorem assess_mined {c : Config} {w : World} {tx : PendingTx} {i : TxManyInput}
    (h : assess P c w tx = .input i) : TxManyInput.mined i = tx.row.mined := by
  obtain ⟨_, _, rfl, -⟩ := assess_eq_input h
  rfl

variable (P lib) in
/-- **An event is relayed with the block of its first post.**  In whatever order posts
arrive and the services work, the block and the proof that a round submits with the
event, and those `processPendingProofs` writes, are those of the first of its posts
that has been stored; how many others agree on another block plays no part. -/
theorem relayed_mined_first {start : Database} (hstart : Unique (TxRow.id P) start.txs)
    {e : Event} (hnew : ¬ Stored (TxRow.id P) start.txs (computeTxsId P e))
    (hunvalidated : ∀ v ∈ start.validatedTxs, v.id P ≠ computeTxsId P e)
    (actions : List TableAction) :
    (∀ c w tx i, tx ∈ getPendingSubmitTx P c ((tables P lib).run start actions) →
      tx.row.event = e → assess P c w tx = .input i →
        ∃ first, lookup (TxRequest.id P) ((tables P lib).history start actions)
            (computeTxsId P e) = some first ∧ TxManyInput.mined i = first.mined) ∧
      ∀ v ∈ ((tables P lib).run start actions).validatedTxs, v.event = e →
        ∃ first, lookup (TxRequest.id P) ((tables P lib).history start actions)
            (computeTxsId P e) = some first ∧ v.mined = first.mined := by
  have hfirst := firstPosted_run P lib hstart actions
  have hrows := hfirst.mined (computeTxsId P e)
  rw [not_stored_iff.mp hnew, Option.map_none, Option.none_or] at hrows
  constructor
  · intro c w tx i htx hevent hi
    have hrow := (mem_getPendingSubmitTx.mp htx).1
    have hlookup := hfirst.unique.lookup_of_mem hrow
    rw [TxRow.id, hevent] at hlookup
    rw [hlookup, Option.map_some, eq_comm, Option.map_eq_some_iff] at hrows
    obtain ⟨first, hposted, hmined⟩ := hrows
    exact ⟨first, hposted, (assess_mined hi).trans hmined.symm⟩
  · intro v hv hevent
    have hid : v.id P = computeTxsId P e := congrArg (computeTxsId P) hevent
    rcases hfirst.validated v hv with hold | hvalid
    · exact absurd hid (hunvalidated v hold)
    · rw [hid] at hvalid
      rw [hvalid, eq_comm, Option.map_eq_some_iff] at hrows
      obtain ⟨first, hposted, hmined⟩ := hrows
      exact ⟨first, hposted, hmined.symm⟩

/-- What validators can agree on: what the hash is of, and where it was mined. -/
structure Combination where
  orderHash : Bytes
  mined : Mined
  deriving DecidableEq

def TxRequest.combination (tx : TxRequest) : Combination := ⟨tx.orderHash, tx.mined⟩

/-- `n` of the posts carry the combination, and no other is carried by so many. -/
def Majority (n : Nat) (posts : List TxRequest) (c : Combination) : Prop :=
  n ≤ posts.countP (fun tx => TxRequest.combination tx = c) ∧
    ∀ tx ∈ posts, TxRequest.combination tx ≠ c →
      posts.countP (fun tx' => TxRequest.combination tx' = TxRequest.combination tx) < n

instance (n : Nat) (posts : List TxRequest) (c : Combination) : Decidable (Majority n posts c) :=
  inferInstanceAs (Decidable (_ ∧ _))

end Relayer

namespace Sample
open Indexer Relayer

/-- Posts for the transfer, and the proofs processed after them. -/
def processAfter (posts : List TxRequest) : List TableAction :=
  posts.map .post ++ [.processPendingProofs 2 1000 (posted posts).proofs]

def tablesAfter (posts : List TxRequest) : Database :=
  (tables relayPrimitives bitcoinLib).run .empty (processAfter posts)

theorem processAfter_agreed :
    (tables relayPrimitives bitcoinLib).history .empty (processAfter [bisPost, unisatPost]) =
        [bisPost, unisatPost] ∧
      (∀ row ∈ (tablesAfter [bisPost, unisatPost]).txs, row.event = bisPost.event) ∧
      (∀ v ∈ (tablesAfter [bisPost, unisatPost]).validatedTxs, v.event = bisPost.event) ∧
      (tablesAfter [bisPost, unisatPost]).validatedTxs ≠ [] := by
  decide +kernel

/-- Two validators agree, and their block is relayed and validated. -/
theorem relayed_mined_agreed :
    (∀ i ∈ roundInputs (tablesAfter [bisPost, unisatPost]), TxManyInput.mined i = bisPost.mined) ∧
      ∀ v ∈ (tablesAfter [bisPost, unisatPost]).validatedTxs, v.mined = bisPost.mined := by
  obtain ⟨hhistory, hrows, hvalid, -⟩ := processAfter_agreed
  have hempty : Unique (TxRow.id relayPrimitives) Database.empty.txs := List.nodup_nil
  obtain ⟨hrelayed, hvalidated⟩ := relayed_mined_first relayPrimitives bitcoinLib hempty
    (e := bisPost.event) (not_stored_iff.mpr rfl) (fun _ hv => nomatch hv)
    (processAfter [bisPost, unisatPost])
  rw [hhistory, lookup_cons, if_pos (by rfl)] at hrelayed hvalidated
  constructor
  · intro i hi
    obtain ⟨tx, htx, houtcome⟩ := List.mem_filterMap.mp hi
    obtain ⟨first, hfirst, hmined⟩ := hrelayed relayerConfig relayWorld tx i htx
      (hrows _ (mem_getPendingSubmitTx.mp htx).1) (Outcome.eq_input houtcome)
    rw [hmined, ← Option.some.inj hfirst]
  · intro v hv
    obtain ⟨first, hfirst, hmined⟩ := hvalidated v hv (hvalid v hv)
    rw [hmined, ← Option.some.inj hfirst]

def thirdSignature : Buff 65 :=
  signature 0x980818065de5b3bd4c18cc1676a96339b3044f6459519e69f1af33edba022b4b
    0x5dc87c63fbafa5d0f8910daeec6f44b2c8ed7d2fa6222f81654773832885a7f8 0

def thirdKey : Buff 33 :=
  ⟨bytesBe 33 0x021843d01fa0bb9a3495fd2caf92505a81055dbe1fd545880fd40c3a1c7fd9c40a, by decide⟩

/-- A third validator posts the transfer in a block that is no longer part of the chain. -/
def stalePost : TxRequest :=
  { post .okx thirdSignature.bytes thirdKey.bytes
      "ST2CY5V39NHDPWSXMW9QDT3HC3GD6Q6XX4CFRK9AG".toList with
    header := bytesBe 80 0x20000000
    height := 799999 }

/-- **The block of one validator is relayed and validated, against two that agree.** -/
theorem majority_outvoted :
    Majority 2 [stalePost, bisPost, unisatPost] (TxRequest.combination bisPost) ∧
      (tables relayPrimitives bitcoinLib).history .empty
        (processAfter [stalePost, bisPost, unisatPost]) = [stalePost, bisPost, unisatPost] ∧
      (roundInputs (tablesAfter [stalePost, bisPost, unisatPost])).map TxManyInput.mined =
        [stalePost.mined] ∧
      (tablesAfter [stalePost, bisPost, unisatPost]).validatedTxs.map ValidatedRow.mined =
        [stalePost.mined] ∧
      stalePost.mined ≠ bisPost.mined := by
  decide +kernel

end Sample
end BitcoinOracle
