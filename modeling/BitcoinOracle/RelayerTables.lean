import BitcoinOracle.RelayerRound

/-! # What the relayer writes

A round marks the events it found indexed and those it can never relay, and every
broadcast leaves its result for each event of its batch.  None of this touches what a
row of `txs` says about its event and its block, and no row of `submitted_tx` is
ever deleted.
-/
namespace BitcoinOracle
open Clarity KeyedTable Indexer

namespace Relayer

/-- What is to be stored of a broadcast. -/
structure SubmittedParams where
  event : Event
  stacksTxId : Option Bytes
  broadcastResultType : BroadcastResultType
  error : Option Text
  submittedBy : Option Text
  submitterNonce : Option Int

/-- `setAlreadyIndexed`, by the relayer of the account. -/
def setAlreadyIndexed (account : Text) (indexedTxs : List Event) (db : Database) : Database :=
  { db with submittedTx := db.submittedTx ++ indexedTxs.map fun e =>
      { event := e
        stacksTxId := none
        broadcastResultType := .settled
        error := none
        submittedBy := some account
        submitterNonce := -1 } }

def setError (e : Event) (text : Text) (row : TxRow) : TxRow :=
  if row.event = e then { row with error := some text } else row

def setTxsWithError (txErrors : List (Event × Text)) (db : Database) : Database :=
  { db with txs := txErrors.foldl (fun rows x => rows.map (setError x.1 x.2)) db.txs }

/-- The condition under which a stored row is updated.  Buffers are compared as
objects, so two ids are never the same. -/
def Differs (existing : SubmittedRow) (tx : SubmittedParams) : Prop :=
  existing.broadcastResultType ≠ tx.broadcastResultType ∨
    (existing.stacksTxId.isSome = true ∨ tx.stacksTxId.isSome = true) ∨ existing.error ≠ tx.error

instance (existing : SubmittedRow) (tx : SubmittedParams) : Decidable (Differs existing tx) :=
  inferInstanceAs (Decidable (_ ∨ _))

def updateSubmitted (tx : SubmittedParams) (row : SubmittedRow) : SubmittedRow :=
  if row.event = tx.event then
    { row with
      stacksTxId := tx.stacksTxId
      submitterNonce := tx.submitterNonce.getD row.submitterNonce
      broadcastResultType := tx.broadcastResultType
      error := tx.error }
  else row

/-- One row of `upsertSubmittedTx`, or `none` for an exception: there are two rows
already, or there is none and the new one has no submitter. -/
def upsertSubmittedRow (rows : List SubmittedRow) (tx : SubmittedParams) :
    Option (List SubmittedRow) :=
  match rows.filter fun row => row.event = tx.event with
  | [] => tx.submittedBy.map fun submittedBy => rows ++ [{
      event := tx.event
      stacksTxId := tx.stacksTxId
      broadcastResultType := tx.broadcastResultType
      error := tx.error
      submittedBy := some submittedBy
      submitterNonce := tx.submitterNonce.getD 0 }]
  | [existing] => some (if Differs existing tx then rows.map (updateSubmitted tx) else rows)
  | _ => none

def upsertSubmittedTx (params : List SubmittedParams) (db : Database) : Option Database :=
  (params.foldlM upsertSubmittedRow db.submittedTx).map fun rows => { db with submittedTx := rows }

/-- `onRBFTx`: the id of the transaction that took the place of another. -/
def onRBFTx (nonce : Int) (newTxId : Bytes) (submittedBy : Text) (db : Database) : Database :=
  { db with submittedTx := db.submittedTx.map fun row =>
      if row.submittedBy = some submittedBy ∧ row.broadcastResultType = .ok ∧
          row.submitterNonce = nonce then
        { row with stacksTxId := some newTxId }
      else row }

/-! ## What the writes leave -/

section Writes
variable {P : Primitives} {db db' : Database}

theorem setError_event (e : Event) (text : Text) (row : TxRow) :
    (setError e text row).event = row.event := by
  unfold setError
  split
  · rfl
  · rfl

theorem setError_mined (e : Event) (text : Text) (row : TxRow) :
    (setError e text row).mined = row.mined := by
  unfold setError
  split
  · rfl
  · rfl

/-- Marking the errors is one update of the rows, which keeps their events and blocks. -/
theorem exists_setTxsWithError (txErrors : List (Event × Text)) (rows : List TxRow) :
    ∃ f : TxRow → TxRow, (∀ row, (f row).event = row.event ∧ (f row).mined = row.mined) ∧
      txErrors.foldl (fun rows x => rows.map (setError x.1 x.2)) rows = rows.map f := by
  induction txErrors generalizing rows with
  | nil => exact ⟨id, fun _ => ⟨rfl, rfl⟩, (List.map_id rows).symm⟩
  | cons x txErrors ih =>
      obtain ⟨f, hf, hrows⟩ := ih (rows.map (setError x.1 x.2))
      refine ⟨fun row => f (setError x.1 x.2 row), fun row => ⟨?_, ?_⟩, ?_⟩
      · rw [(hf _).1, setError_event]
      · rw [(hf _).2, setError_mined]
      · rw [List.foldl_cons, hrows, List.map_map]
        rfl

variable (P db) in
theorem mined_setTxsWithError (txErrors : List (Event × Text)) (id : Bytes) :
    (lookup (TxRow.id P) (setTxsWithError txErrors db).txs id).map TxRow.mined =
      (lookup (TxRow.id P) db.txs id).map TxRow.mined := by
  obtain ⟨f, hf, hrows⟩ := exists_setTxsWithError txErrors db.txs
  have hid : ∀ row, TxRow.id P (f row) = TxRow.id P row := fun row =>
    congrArg (computeTxsId P) (hf row).1
  rw [setTxsWithError, hrows, lookup_map hid, Option.map_map]
  congr 1
  funext row
  exact (hf row).2

theorem unique_setTxsWithError (h : Unique (TxRow.id P) db.txs)
    (txErrors : List (Event × Text)) : Unique (TxRow.id P) (setTxsWithError txErrors db).txs := by
  obtain ⟨f, hf, hrows⟩ := exists_setTxsWithError txErrors db.txs
  rw [setTxsWithError, hrows]
  exact h.map fun row => congrArg (computeTxsId P) (hf row).1

theorem events_setTxsWithError (txErrors : List (Event × Text)) :
    (setTxsWithError txErrors db).txs.map TxRow.event = db.txs.map TxRow.event := by
  obtain ⟨f, hf, hrows⟩ := exists_setTxsWithError txErrors db.txs
  rw [setTxsWithError, hrows, List.map_map]
  exact List.map_congr_left fun row _ => (hf row).1

theorem updateSubmitted_event (tx : SubmittedParams) (row : SubmittedRow) :
    (updateSubmitted tx row).event = row.event := by
  unfold updateSubmitted
  split
  · rfl
  · rfl

theorem upsertSubmittedRow_events {rows rows' : List SubmittedRow} {tx : SubmittedParams}
    (h : upsertSubmittedRow rows tx = some rows') {e : Event}
    (he : e ∈ rows'.map SubmittedRow.event) : e ∈ rows.map SubmittedRow.event ∨ e = tx.event := by
  unfold upsertSubmittedRow at h
  split at h
  · obtain ⟨submittedBy, -, hrows⟩ := Option.map_eq_some_iff.mp h
    rw [← hrows, List.map_append, List.mem_append] at he
    exact he.imp_right List.mem_singleton.mp
  · obtain rfl := Option.some.inj h
    left
    split at he
    · rw [List.map_map] at he
      have hevents : SubmittedRow.event ∘ updateSubmitted tx = SubmittedRow.event :=
        funext (updateSubmitted_event tx)
      rwa [hevents] at he
    · exact he
  · cases h

/-- The events of `submitted_tx` are those from before and those of the batch. -/
theorem upsertSubmittedTx_events {params : List SubmittedParams}
    (h : upsertSubmittedTx params db = some db') {e : Event}
    (he : e ∈ db'.submittedTx.map SubmittedRow.event) :
    e ∈ db.submittedTx.map SubmittedRow.event ∨ e ∈ params.map SubmittedParams.event := by
  obtain ⟨rows, hrows, rfl⟩ := Option.map_eq_some_iff.mp h
  refine foldlM_invariant (fun rows => ∀ e ∈ rows.map SubmittedRow.event,
    e ∈ db.submittedTx.map SubmittedRow.event ∨ e ∈ params.map SubmittedParams.event)
    (fun tx htx old new hnew hold e he => ?_) hrows (fun e he => Or.inl he) e he
  rcases upsertSubmittedRow_events hnew he with hbefore | rfl
  · exact hold e hbefore
  · exact Or.inr (List.mem_map_of_mem htx)

theorem upsertSubmittedTx_txs {params : List SubmittedParams}
    (h : upsertSubmittedTx params db = some db') : db'.txs = db.txs := by
  obtain ⟨rows, -, rfl⟩ := Option.map_eq_some_iff.mp h
  rfl

theorem setAlreadyIndexed_events (account : Text) (indexedTxs : List Event) :
    (setAlreadyIndexed account indexedTxs db).submittedTx.map SubmittedRow.event =
      db.submittedTx.map SubmittedRow.event ++ indexedTxs := by
  rw [setAlreadyIndexed, List.map_append, List.map_map]
  congr 1
  exact List.map_id indexedTxs

theorem onRBFTx_events (nonce : Int) (newTxId : Bytes) (submittedBy : Text) :
    (onRBFTx nonce newTxId submittedBy db).submittedTx.map SubmittedRow.event =
      db.submittedTx.map SubmittedRow.event := by
  rw [onRBFTx, List.map_map]
  refine List.map_congr_left fun row _ => ?_
  rw [Function.comp_apply]
  split
  · rfl
  · rfl

end Writes

end Relayer
end BitcoinOracle
