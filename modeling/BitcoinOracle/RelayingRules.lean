import BitcoinOracle.Fleet

/-! # What a step of the relayers does, part by part

The rounds and the mempool only ever hold what a round has selected, assessed and cut
into batches, so a property of batches follows from what selecting, assessing and
cutting do (`Relaying.keeps_next`).  Rows of `txs` and `proofs` come from posts, and keep
what they say (`Relaying.tables_next`).  The chain executes transactions, and
`Relaying.executed` says which.
-/
namespace BitcoinOracle
open Clarity KeyedTable Indexer

namespace Relayer

/-! ## Batches -/

section Batches
variable (P : Primitives) (Pending : Config → List PendingTx → Found → Prop)
  (Marked : Found → Prop) (Batch : List TxManyInput → Prop)

/-- A property of batches, and what it takes of the rounds they are cut in. -/
structure BatchRule : Prop where
  assess : ∀ {c : Config} {todo : List PendingTx} {found found' : Found} {n : Nat}
    {tx : PendingTx} (w : World), Pending c todo found → todo[n]? = some tx →
      found.add tx.row.event (assess P c w tx) = some found' →
        Pending c (todo.eraseIdx n) found'
  mark : ∀ {c : Config} {found : Found}, Pending c [] found → Marked found
  cut : ∀ {found : Found}, Marked found → ∀ batch ∈ chunk found.txManyInputs kChunkSize, Batch batch

/-- The property, of what a round holds. -/
def Round.Keeps : Round → Prop
  | .idle => True
  | .assessing c todo found => Pending c todo found
  | .marking found => Marked found
  | .processing session => ∀ batch ∈ session.operations, Batch batch

/-- The property, of all rounds and of the mempool. -/
structure Relaying.Keeps {ι : Type} (s : Relaying ι) : Prop where
  round : ∀ i, (s.round i).Keeps Pending Marked Batch
  mempool : ∀ b ∈ s.mempool, Batch b.batch

end Batches

namespace Relaying
variable {ι : Type} {P : Primitives} {Pending : Config → List PendingTx → Found → Prop}
  {Marked : Found → Prop} {Batch : List TxManyInput → Prop} {s s' : Relaying ι} {i : ι}

theorem keeps_start (w : World) (accountNonce : ι → Nat) :
    (start w accountNonce).Keeps Pending Marked Batch :=
  ⟨fun _ => trivial, fun _ hb => nomatch hb⟩

/-- Rounds and mempool are all the property is about. -/
theorem Keeps.congr (h : s.Keeps Pending Marked Batch) (hround : s'.round = s.round)
    (hmempool : ∀ b ∈ s'.mempool, b ∈ s.mempool) : s'.Keeps Pending Marked Batch := by
  refine ⟨?_, fun b hb => h.mempool b (hmempool b hb)⟩
  rw [hround]
  exact h.round

theorem Keeps.setDatabase (h : s.Keeps Pending Marked Batch) (db : Database) :
    Keeps Pending Marked Batch { s with db := db } :=
  h.congr rfl fun _ hb => hb

theorem keeps_catches {account : Account} {session : Session} {batch : List TxManyInput}
    {rest : List (List TxManyInput)} (message : Text)
    (h : ∀ b ∈ batch :: rest, Batch b) :
    (session.catches account batch rest message).Keeps Pending Marked Batch := by
  have hrest : ∀ b ∈ rest, Batch b := fun b hb => h b (List.mem_cons_of_mem batch hb)
  unfold Session.catches
  split
  · exact hrest
  · split
    · cases account.conflictingNonceStrategy with
      | increase => exact h
      | replace =>
          dsimp only
          split
          · exact h
          · trivial
    · split
      · exact h
      · exact hrest

variable [DecidableEq ι] {account : ι → Account}

theorem Keeps.setRound (h : s.Keeps Pending Marked Batch) {r : Round}
    (hr : r.Keeps Pending Marked Batch) : (s.setRound i r).Keeps Pending Marked Batch := by
  refine ⟨fun j => ?_, h.mempool⟩
  show (Function.update s.round i r j).Keeps Pending Marked Batch
  by_cases hj : j = i
  · subst hj
    rw [Function.update_self]
    exact hr
  · rw [Function.update_of_ne hj]
    exact h.round j

theorem Keeps.accept (h : s.Keeps Pending Marked Batch) (nonce : Nat) {batch : List TxManyInput}
    (hbatch : Batch batch) : (s.accept i nonce batch).Keeps Pending Marked Batch := by
  refine ⟨h.round, fun b hb => ?_⟩
  rcases List.mem_append.mp hb with hold | hnew
  · exact h.mempool b (List.mem_of_mem_filter hold)
  · rw [List.mem_singleton.mp hnew]
    exact hbatch

theorem Keeps.record (h : s.Keeps Pending Marked Batch) {session : Session}
    {batch : List TxManyInput} {rest : List (List TxManyInput)} (txid : Option Bytes)
    (error : Option Text) {recorded : Round} (hrest : ∀ b ∈ rest, Batch b)
    (hrecorded : recorded.Keeps Pending Marked Batch) :
    (s.record account i session batch rest txid error recorded).Keeps Pending Marked Batch := by
  unfold Relaying.record
  split
  · exact (h.setDatabase _).setRound hrecorded
  · exact h.setRound hrest

theorem Keeps.broadcast (h : s.Keeps Pending Marked Batch) {session : Session}
    {batch : List TxManyInput} {rest : List (List TxManyInput)}
    (hbatches : ∀ b ∈ batch :: rest, Batch b) (reply : Reply) :
    (s.broadcast account i session batch rest reply).Keeps Pending Marked Batch := by
  obtain ⟨hbatch, hrest⟩ := List.forall_mem_cons.mp hbatches
  unfold Relaying.broadcast
  cases reply with
  | accepted txid =>
      dsimp only
      split
      · exact (h.accept session.nonce hbatch).record _ _ hrest hrest
      · exact h
  | rejected error reason txid =>
      have hrejected : Keeps Pending Marked Batch
          { s with rejected := s.rejected ++ batch.map TxManyInput.event } :=
        h.congr rfl fun _ hb => hb
      exact hrejected.record _ _ hrest (keeps_catches reason hbatches)
  | exception reached message =>
      cases reached with
      | true =>
          dsimp only
          split
          · exact (h.accept session.nonce hbatch).setRound (keeps_catches message hbatches)
          · exact h
      | false => exact h.setRound (keeps_catches message hbatches)

/-- **A property of batches is kept by every step**, if it holds of what rounds start
with. -/
theorem keeps_next (rule : BatchRule P Pending Marked Batch) {lib : BitcoinLib}
    {principal : Text → Option Principal} {a : Action ι}
    (hstart : ∀ i c, a = .startRound i c → Pending c (getPendingSubmitTx P c s.db) .empty)
    (h : s.Keeps Pending Marked Batch) :
    (s.next P lib principal account a).Keeps Pending Marked Batch := by
  cases a with
  | startRound i c =>
      dsimp only [Relaying.next]
      split
      · exact h.setRound (hstart i c rfl)
      · exact h
  | assess i n =>
      dsimp only [Relaying.next]
      split
      · next c todo found hround =>
          have hpending := h.round i
          rw [hround] at hpending
          split
          · next tx htx =>
              refine h.setRound ?_
              cases hadd : found.add tx.row.event (Relayer.assess P c s.world tx) with
              | none => trivial
              | some found' => exact rule.assess s.world hpending htx hadd
          · exact h
      · exact h
  | setAlreadyIndexed i =>
      dsimp only [Relaying.next]
      split
      · next c found hround =>
          have hpending := h.round i
          rw [hround] at hpending
          have hmarked : (Round.marking found).Keeps Pending Marked Batch := rule.mark hpending
          exact (h.setDatabase _).setRound hmarked
      · exact h
  | flush i startingNonce lastExecutedNonce =>
      dsimp only [Relaying.next]
      split
      · next found hround =>
          have hmarked := h.round i
          rw [hround] at hmarked
          refine (h.setDatabase _).setRound ?_
          split
          · trivial
          · exact rule.cut hmarked
      · exact h
  | broadcast i reply =>
      dsimp only [Relaying.next]
      split
      · next session hround =>
          have hbatches := h.round i
          rw [hround] at hbatches
          split
          · next batch rest hoperations =>
              split
              · exact h
              · exact h.broadcast (fun b hb => hbatches b (hoperations ▸ hb)) reply
          · exact h
      · exact h
  | readNonce i answer =>
      dsimp only [Relaying.next]
      split
      · next session hround =>
          have hbatches := h.round i
          rw [hround] at hbatches
          exact h.setRound hbatches
      · exact h
  | finish i =>
      dsimp only [Relaying.next]
      split
      · split
        · have hidle : Round.idle.Keeps Pending Marked Batch := trivial
          exact (h.setDatabase _).setRound hidle
        · exact h
      · exact h
  | abandon i => exact h.setRound trivial
  | confirm i env =>
      dsimp only [Relaying.next]
      split
      · next b hb =>
          obtain ⟨-, hround, hmempool⟩ := confirm_frame (s := s) P principal account i env b
          refine h.congr hround fun b' hb' => ?_
          rw [hmempool] at hb'
          exact List.mem_of_mem_filter hb'
      · exact h
  | drop i nonce => exact h.congr rfl fun _ hb => List.mem_of_mem_filter hb
  | transact t => exact h.congr rfl fun _ hb => hb
  | post _ | replaceByFee _ _ _ =>
      dsimp only [Relaying.next]
      split
      · exact h.congr rfl fun _ hb => hb
      · exact h

/-! ## Tables -/

theorem upsertSubmittedTx_proofs {params : List SubmittedParams} {db db' : Database}
    (h : upsertSubmittedTx params db = some db') : db'.proofs = db.proofs := by
  obtain ⟨rows, -, rfl⟩ := Option.map_eq_some_iff.mp h
  rfl

/-- A turn of the loop writes to `submitted_tx` only. -/
theorem record_tables {session : Session} {batch : List TxManyInput}
    {rest : List (List TxManyInput)} {txid : Option Bytes} {error : Option Text}
    {recorded : Round} :
    (s.record account i session batch rest txid error recorded).db.txs = s.db.txs ∧
      (s.record account i session batch rest txid error recorded).db.proofs = s.db.proofs := by
  refine ⟨record_txs, ?_⟩
  unfold Relaying.record
  split
  · next db hstored => exact upsertSubmittedTx_proofs hstored
  · rfl

theorem broadcast_tables {session : Session} {batch : List TxManyInput}
    {rest : List (List TxManyInput)} {reply : Reply} :
    (s.broadcast account i session batch rest reply).db.txs = s.db.txs ∧
      (s.broadcast account i session batch rest reply).db.proofs = s.db.proofs := by
  unfold Relaying.broadcast
  cases reply with
  | accepted txid =>
      dsimp only
      split
      · exact record_tables
      · exact ⟨rfl, rfl⟩
  | rejected error reason txid => exact record_tables
  | exception reached message =>
      cases reached with
      | true =>
          dsimp only
          split
          · exact ⟨rfl, rfl⟩
          · exact ⟨rfl, rfl⟩
      | false => exact ⟨rfl, rfl⟩

/-- What the tables were before a step. -/
inductive TablesStep (P : Primitives) (lib : BitcoinLib) (db : Database) :
    Action ι → Database → Prop
  | posted {tx : TxRequest} {db' : Database} (h : postTx P lib db tx = .ok db') :
      TablesStep P lib db (.post tx) db'
  | marked {a : Action ι} {db' : Database} (hproofs : db'.proofs = db.proofs)
      (f : TxRow → TxRow) (hrows : ∀ row, (f row).event = row.event ∧ (f row).mined = row.mined)
      (htxs : db'.txs = db.txs.map f) : TablesStep P lib db a db'

/-- **What a step does to `txs` and `proofs`.**  A post is stored, or the rows keep their
events and blocks, and the proofs stay. -/
theorem tables_next {lib : BitcoinLib} {principal : Text → Option Principal} (a : Action ι) :
    TablesStep P lib s.db a (s.next P lib principal account a).db := by
  have hsame : ∀ {a : Action ι} {db' : Database}, db'.txs = s.db.txs ∧ db'.proofs = s.db.proofs →
      TablesStep P lib s.db a db' := fun h =>
    .marked h.2 id (fun _ => ⟨rfl, rfl⟩) (h.1.trans (List.map_id _).symm)
  cases a with
  | post tx =>
      dsimp only [Relaying.next]
      split
      · next db hpost => exact .posted hpost
      · exact hsame ⟨rfl, rfl⟩
  | flush i startingNonce lastExecutedNonce =>
      dsimp only [Relaying.next]
      split
      · next found _ =>
          obtain ⟨f, hf, hrows⟩ := exists_setTxsWithError found.txErrors s.db.txs
          exact .marked rfl f hf hrows
      · exact hsame ⟨rfl, rfl⟩
  | broadcast i reply =>
      dsimp only [Relaying.next]
      split
      · split
        · split
          · exact hsame ⟨rfl, rfl⟩
          · exact hsame broadcast_tables
        · exact hsame ⟨rfl, rfl⟩
      · exact hsame ⟨rfl, rfl⟩
  | finish i =>
      dsimp only [Relaying.next]
      split
      · split
        · next hdone =>
            rw [hdone.1]
            exact hsame ⟨rfl, rfl⟩
        · exact hsame ⟨rfl, rfl⟩
      · exact hsame ⟨rfl, rfl⟩
  | confirm i env =>
      dsimp only [Relaying.next]
      split
      · next b _ =>
          rw [(confirm_frame (s := s) P principal account i env b).1]
          exact hsame ⟨rfl, rfl⟩
      · exact hsame ⟨rfl, rfl⟩
  | assess i n =>
      dsimp only [Relaying.next]
      split
      · split
        · exact hsame ⟨rfl, rfl⟩
        · exact hsame ⟨rfl, rfl⟩
      · exact hsame ⟨rfl, rfl⟩
  | transact _ | abandon _ | drop _ _ => exact hsame ⟨rfl, rfl⟩
  | startRound _ _ | setAlreadyIndexed _ | readNonce _ _ | replaceByFee _ _ _ =>
      dsimp only [Relaying.next]
      split
      · exact hsame ⟨rfl, rfl⟩
      · exact hsame ⟨rfl, rfl⟩

/-! ## The chain -/

/-- The transaction that a step executes. -/
def executed (principal : Text → Option Principal) (account : ι → Account) (s : Relaying ι) :
    Action ι → Option Transaction
  | .transact t => some t
  | .confirm i env =>
      (lookup Broadcast.key s.mempool (i, s.accountNonce i)).bind fun b =>
        (encodeTxMany principal b.batch).map fun txMany =>
          ⟨env, (account i).principal, .indexTxMany txMany⟩
  | _ => none

/-- The chain after a step. -/
theorem world_executed {lib : BitcoinLib} {principal : Text → Option Principal} (a : Action ι) :
    (s.next P lib principal account a).world =
      ((s.executed principal account a).elim s.world ((World.deployment P).next s.world)) := by
  cases a with
  | transact t => rfl
  | confirm i env =>
      dsimp only [Relaying.next, executed]
      cases lookup Broadcast.key s.mempool (i, s.accountNonce i) with
      | none => rfl
      | some b =>
          dsimp only [Option.bind_some, Relaying.confirm]
          cases encodeTxMany principal b.batch with
          | none => rfl
          | some txMany =>
              dsimp only
              split
              · rfl
              · rfl
  | broadcast i reply =>
      dsimp only [Relaying.next]
      split
      · split
        · split
          · rfl
          · exact broadcast_world
        · rfl
      · rfl
  | assess _ _ | finish _ =>
      dsimp only [Relaying.next]
      split
      · split
        · rfl
        · rfl
      · rfl
  | abandon _ | drop _ _ => rfl
  | post _ | startRound _ _ | setAlreadyIndexed _ | flush _ _ _ | readNonce _ _
  | replaceByFee _ _ _ =>
      dsimp only [Relaying.next]
      split
      · rfl
      · rfl

/-- The relayers, with the elements the contract accepts as the log. -/
def chain (P : Primitives) (lib : BitcoinLib) (principal : Text → Option Principal)
    (account : ι → Account) : Machine (Relaying ι) (Action ι) SignedTx where
  next := next P lib principal account
  log s a := (s.executed principal account a).elim [] ((World.deployment P).log s.world)

/-- Actions that execute nothing. -/
theorem world_run_of_none {lib : BitcoinLib} {principal : Text → Option Principal}
    {actions : List (Action ι)}
    (h : ∀ a ∈ actions, ∀ s : Relaying ι, s.executed principal account a = none)
    (s : Relaying ι) : ((machine P lib principal account).run s actions).world = s.world ∧
      (chain P lib principal account).history s actions = [] := by
  induction actions generalizing s with
  | nil => exact ⟨rfl, rfl⟩
  | cons a actions ih =>
      obtain ⟨ha, hactions⟩ := List.forall_mem_cons.mp h
      obtain ⟨hworld, hhistory⟩ := ih hactions (s.next P lib principal account a)
      constructor
      · rw [Machine.run_cons]
        refine hworld.trans ?_
        rw [world_executed, ha s]
        rfl
      · rw [Machine.history_cons]
        refine List.append_eq_nil_iff.mpr ⟨?_, hhistory⟩
        show (s.executed principal account a).elim [] _ = []
        rw [ha s]
        rfl

end Relaying

end Relayer
end BitcoinOracle
