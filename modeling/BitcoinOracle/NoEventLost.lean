import BitcoinOracle.IndexedRecords
import BitcoinOracle.RelayedBatches
import BitcoinOracle.RelayerMachine

/-! # No event is lost

A row of `submitted_tx` takes its event out of the pending ones for good, so the
question is which events get one.  Each is accounted for (`Accounted`): it is indexed,
or the node has it, or its broadcast was rejected, or the node threw it out, or the
contract refused its batch.  Every other event that qualifies is still returned
(`pending_of_not_accounted`), whatever the nonce loop does with an operation.
-/
namespace BitcoinOracle
open Clarity KeyedTable Indexer

namespace Relayer

/-! ## Events on chain -/

/-- The chain has a record of the event. -/
def IsIndexed (w : World) (e : Event) : Prop := isIndexedTx w e = some true

instance (w : World) (e : Event) : Decidable (IsIndexed w e) := inferInstanceAs (Decidable (_ = _))

theorem isIndexed_iff {w : World} {e : Event} :
    IsIndexed w e ↔ ∃ key, encodeKey e.txHash e.output e.satpoint = some key ∧
      (w.registries.indexed key).isSome = true := by
  unfold IsIndexed isIndexedTx
  cases hkey : encodeKey e.txHash e.output e.satpoint with
  | none => exact iff_of_false nofun fun ⟨_, h, _⟩ => nomatch h
  | some key =>
      simp only [Option.bind_eq_bind, Option.bind_some, RegistryV102.getBitcoinTxIndexedOrFail_eq,
        Option.some.injEq, exists_eq_left']
      cases hrecord : w.registries.indexed key with
      | none => simp [Result.unwrap, Result.response]
      | some record => simp [Result.unwrap, Result.response]

theorem IsIndexed.next {P : Primitives} {w : World} {e : Event} (h : IsIndexed w e)
    (t : Transaction) : IsIndexed ((World.deployment P).next w t) e := by
  obtain ⟨key, hkey, hrecord⟩ := isIndexed_iff.mp h
  exact isIndexed_iff.mpr ⟨key, hkey, World.isSome_indexed_next P hrecord⟩

/-- Every event of a batch the contract takes is indexed. -/
theorem isIndexed_of_answer {P : Primitives} {principal : Text → Option Principal} {w : World}
    {batch : List TxManyInput} {txMany : TxMany} (henc : encodeTxMany principal batch = some txMany)
    {env : Env} {sender : Principal} {a : Answer}
    (hok : World.answer P w ⟨env, sender, .indexTxMany txMany⟩ = .ok a) {i : TxManyInput}
    (hi : i ∈ batch) : IsIndexed
      ((World.deployment P).next w ⟨env, sender, .indexTxMany txMany⟩) (TxManyInput.event i) := by
  obtain ⟨b, hmany, -⟩ := World.answering_eq_ok.mp (World.exec_eq P hok)
  obtain ⟨-, -, -, -, hnext⟩ := (Oracle.indexTxMany_eq_ok P env).mp hmany
  obtain ⟨e, he, hencode⟩ := exists_of_forall₂ (encodeTxMany_eq_some.mp henc).flip hi
  have hkey := TxArgument.encodeKey_of_encode (TxManyInput.encode_eq_some.mp hencode).1
  refine isIndexed_iff.mpr ⟨e.tx.key, hkey, ?_⟩
  rw [hnext]
  exact (World.isSome_indexed_indexAll P).mpr (Or.inl ⟨e, he, rfl⟩)

/-! ## Events of a round -/

section Assess
variable {P : Primitives} {c : Config} {w : World} {tx : PendingTx}

theorem isIndexed_of_assess (h : assess P c w tx = .alreadyIndexed) : IsIndexed w tx.row.event := by
  unfold assess at h
  split at h
  · cases h
  · split at h
    · cases h
    · next hindexed => exact hindexed
    · split at h
      · split at h
        · cases h
        · split at h
          · cases h
          · cases h
      · cases h
      · next firstProof rest _ =>
          unfold checkServerOrderHash at h
          split at h
          · cases h
          · dsimp only at h
            split at h
            · cases h
            · cases h

theorem event_of_assess {i : TxManyInput} (h : assess P c w tx = .input i) :
    TxManyInput.event i = tx.row.event := by
  obtain ⟨_, _, rfl, -⟩ := assess_eq_input h
  rfl

end Assess

/-! ## What every run keeps -/

namespace Relaying
variable {ι : Type}

/-- There is a row of `txs` for the event. -/
def Known (s : Relaying ι) (e : Event) : Prop := e ∈ s.db.txs.map TxRow.event

/-- Where an event can be that is pending no more. -/
def Accounted (s : Relaying ι) (e : Event) : Prop :=
  IsIndexed s.world e ∨ (∃ b ∈ s.mempool, e ∈ b.events) ∨
    e ∈ s.rejected ∨ e ∈ s.failed ∨ e ∈ s.dropped

structure FoundSound (s : Relaying ι) (found : Found) : Prop where
  indexedTxs : ∀ e ∈ found.indexedTxs, s.Known e ∧ IsIndexed s.world e
  txManyInputs : ∀ i ∈ found.txManyInputs, s.Known (TxManyInput.event i)

/-- A round is about events there are rows for, and what it found indexed is. -/
def RoundSound (s : Relaying ι) : Round → Prop
  | .idle => True
  | .assessing _ todo found => (∀ tx ∈ todo, s.Known tx.row.event) ∧ s.FoundSound found
  | .marking found => s.FoundSound found
  | .processing session =>
      ∀ batch ∈ session.operations, ∀ i ∈ batch, s.Known (TxManyInput.event i)

/-- **Every event with a row of `submitted_tx` is accounted for.** -/
structure Sound (P : Primitives) (s : Relaying ι) : Prop where
  unique : Unique (TxRow.id P) s.db.txs
  mempool : Unique Broadcast.key s.mempool
  submitted : ∀ e ∈ s.db.submittedTx.map SubmittedRow.event, s.Known e ∧ s.Accounted e
  round : ∀ i, s.RoundSound (s.round i)

/-- What is known, indexed or accounted for stays so. -/
structure Grows (s s' : Relaying ι) : Prop where
  known : ∀ e, s.Known e → s'.Known e
  indexed : ∀ e, IsIndexed s.world e → IsIndexed s'.world e
  accounted : ∀ e, s.Accounted e → s'.Accounted e

variable {P : Primitives} {s s' : Relaying ι} {i : ι}

theorem sound_start (w : World) (accountNonce : ι → Nat) :
    Sound P (start w accountNonce) where
  unique := List.nodup_nil
  mempool := List.nodup_nil
  submitted _ he := nomatch he
  round _ := trivial

/-- A change of the tables that keeps the events of `txs`. -/
theorem Grows.of_db {db : Database} (h : ∀ e ∈ s.db.txs.map TxRow.event, e ∈ db.txs.map TxRow.event) :
    Grows s { s with db := db } where
  known := h
  indexed _ he := he
  accounted _ he := he

theorem FoundSound.mono {found : Found} (h : s.FoundSound found) (hgrows : Grows s s') :
    s'.FoundSound found where
  indexedTxs e he := (h.indexedTxs e he).imp (hgrows.known e) (hgrows.indexed e)
  txManyInputs i hi := hgrows.known _ (h.txManyInputs i hi)

theorem RoundSound.mono {r : Round} (h : s.RoundSound r) (hgrows : Grows s s') :
    s'.RoundSound r := by
  cases r with
  | idle => trivial
  | assessing c todo found =>
      exact ⟨fun tx htx => hgrows.known _ (h.1 tx htx), h.2.mono hgrows⟩
  | marking found => exact FoundSound.mono h hgrows
  | processing session => exact fun batch hbatch i hi => hgrows.known _ (h batch hbatch i hi)

/-- A step is sound if the new rows of `submitted_tx` and the new rounds are. -/
theorem Sound.of_grows (h : Sound P s) (hgrows : Grows s s') (hunique : Unique (TxRow.id P) s'.db.txs)
    (hmempool : Unique Broadcast.key s'.mempool)
    (hsubmitted : ∀ e ∈ s'.db.submittedTx.map SubmittedRow.event,
      e ∈ s.db.submittedTx.map SubmittedRow.event ∨ s'.Known e ∧ s'.Accounted e)
    (hround : s'.round = s.round) : Sound P s' where
  unique := hunique
  mempool := hmempool
  submitted e he := by
    rcases hsubmitted e he with hold | hnew
    · exact (h.submitted e hold).imp (hgrows.known e) (hgrows.accounted e)
    · exact hnew
  round i := by
    rw [hround]
    exact (h.round i).mono hgrows

/-! ### Writes, and what the loop keeps -/

theorem FoundSound.add {found found' : Found} (h : s.FoundSound found) {c : Config}
    {tx : PendingTx} (htx : s.Known tx.row.event)
    (hadd : found.add tx.row.event (Relayer.assess P c s.world tx) = some found') :
    s.FoundSound found' := by
  cases houtcome : Relayer.assess P c s.world tx with
  | alreadyIndexed =>
      rw [houtcome] at hadd
      cases hadd
      refine ⟨fun e he => ?_, h.txManyInputs⟩
      rcases List.mem_append.mp he with hold | hnew
      · exact h.indexedTxs e hold
      · rw [List.mem_singleton.mp hnew]
        exact ⟨htx, isIndexed_of_assess houtcome⟩
  | waits =>
      rw [houtcome] at hadd
      cases hadd
      exact h
  | error text =>
      rw [houtcome] at hadd
      cases hadd
      exact ⟨h.indexedTxs, h.txManyInputs⟩
  | input i' =>
      rw [houtcome] at hadd
      cases hadd
      refine ⟨h.indexedTxs, fun i hi => ?_⟩
      rcases List.mem_append.mp hi with hold | hnew
      · exact h.txManyInputs i hold
      · rw [List.mem_singleton.mp hnew, event_of_assess houtcome]
        exact htx
  | throws =>
      rw [houtcome] at hadd
      cases hadd

theorem Sound.setAlreadyIndexed (h : Sound P s) (address : Text) {indexedTxs : List Event}
    (hindexed : ∀ e ∈ indexedTxs, s.Known e ∧ IsIndexed s.world e) :
    Sound P { s with db := Relayer.setAlreadyIndexed address indexedTxs s.db } := by
  refine h.of_grows (.of_db fun _ he => he) h.unique h.mempool (fun e he => ?_) rfl
  rw [setAlreadyIndexed_events, List.mem_append] at he
  exact he.imp_right fun hnew => (hindexed e hnew).imp_right Or.inl

theorem grows_setTxsWithError (s : Relaying ι) (txErrors : List (Event × Text)) :
    Grows s { s with db := setTxsWithError txErrors s.db } := by
  apply Grows.of_db
  intro e he
  rwa [events_setTxsWithError]

theorem Sound.setTxsWithError (h : Sound P s) (txErrors : List (Event × Text)) :
    Sound P { s with db := Relayer.setTxsWithError txErrors s.db } :=
  h.of_grows (grows_setTxsWithError s txErrors) (unique_setTxsWithError h.unique txErrors)
    h.mempool (fun _ he => Or.inl he) rfl

theorem Sound.post (h : Sound P s) {lib : BitcoinLib} {tx : TxRequest} {db : Database}
    (hpost : upsertTxWithProof P lib s.db tx = .ok db) : Sound P { s with db := db } := by
  have hunique := unique_txs_upsert h.unique hpost
  obtain ⟨_, -, ⟨-, rfl⟩ | ⟨-, row, -, rfl⟩⟩ := upsertTxWithProof_eq_ok.mp hpost
  · exact h.of_grows (.of_db fun _ he => he) hunique h.mempool (fun _ he => Or.inl he) rfl
  · apply h.of_grows (.of_db ?_) hunique h.mempool (fun _ he => Or.inl he) rfl
    intro e he
    rw [List.map_append]
    exact List.mem_append_left _ he

theorem Sound.transact (h : Sound P s) (t : Transaction) :
    Sound P { s with world := (World.deployment P).next s.world t } := by
  have hindexed : ∀ e, IsIndexed s.world e → IsIndexed ((World.deployment P).next s.world t) e :=
    fun _ he => he.next t
  refine h.of_grows ⟨fun _ he => he, hindexed, fun e he => ?_⟩ h.unique h.mempool
    (fun _ he => Or.inl he) rfl
  exact he.imp_left (hindexed e)

/-- Whatever the loop makes of an exception, it keeps to its batches. -/
theorem roundSound_catches {account : Account} {session : Session} {batch : List TxManyInput}
    {rest : List (List TxManyInput)} (message : Text)
    (h : s.RoundSound (.processing { session with operations := batch :: rest })) :
    s.RoundSound (session.catches account batch rest message) := by
  have hrest : ∀ batch' ∈ rest, ∀ i ∈ batch', s.Known (TxManyInput.event i) :=
    fun batch' hbatch' => h batch' (List.mem_cons_of_mem batch hbatch')
  unfold Session.catches
  split
  · exact hrest
  · split
    · cases account.conflictingNonceStrategy with
      | increase => exact h
      | replace =>
          dsimp only
          split
          · exact h
          · trivial
    · split
      · exact h
      · exact hrest

variable [DecidableEq ι]

theorem grows_setRound (s : Relaying ι) (i : ι) (r : Round) : Grows s (s.setRound i r) where
  known _ he := he
  indexed _ he := he
  accounted _ he := he

theorem Sound.setRound (h : Sound P s) {r : Round} (hr : s.RoundSound r) :
    Sound P (s.setRound i r) where
  unique := h.unique
  mempool := h.mempool
  submitted := h.submitted
  round j := by
    show (s.setRound i r).RoundSound (Function.update s.round i r j)
    by_cases hj : j = i
    · subst hj
      rw [Function.update_self]
      exact hr.mono (grows_setRound s j r)
    · rw [Function.update_of_ne hj]
      exact (h.round j).mono (grows_setRound s i r)

/-! ### The node and the chain -/

/-- An event of a broadcast stays accounted for when the node throws broadcasts out. -/
theorem grows_drop (s : Relaying ι) (i : ι) (nonce : Nat) : Grows s (s.drop i nonce) where
  known _ he := he
  indexed _ he := he
  accounted e he := by
    rcases he with hindexed | ⟨b, hb, hevent⟩ | hrejected | hfailed | hdropped
    · exact Or.inl hindexed
    · by_cases hkey : b.key = (i, nonce)
      · refine Or.inr (Or.inr (Or.inr (Or.inr (List.mem_append_right _ ?_))))
        exact List.mem_flatMap.mpr ⟨b, List.mem_filter.mpr ⟨hb, decide_eq_true hkey⟩, hevent⟩
      · exact Or.inr (Or.inl ⟨b, List.mem_filter.mpr ⟨hb, decide_eq_true hkey⟩, hevent⟩)
    · exact Or.inr (Or.inr (Or.inl hrejected))
    · exact Or.inr (Or.inr (Or.inr (Or.inl hfailed)))
    · exact Or.inr (Or.inr (Or.inr (Or.inr (List.mem_append_left _ hdropped))))

theorem grows_accept (s : Relaying ι) (i : ι) (nonce : Nat) (batch : List TxManyInput) :
    Grows s (s.accept i nonce batch) where
  known _ he := he
  indexed _ he := he
  accounted e he := by
    rcases (grows_drop s i nonce).accounted e he with hindexed | ⟨b, hb, hevent⟩ | hrest
    · exact Or.inl hindexed
    · exact Or.inr (Or.inl ⟨b, List.mem_append_left _ hb, hevent⟩)
    · exact Or.inr (Or.inr hrest)

theorem Sound.drop (h : Sound P s) (i : ι) (nonce : Nat) : Sound P (s.drop i nonce) :=
  h.of_grows (grows_drop s i nonce) h.unique (h.mempool.filter _) (fun _ he => Or.inl he) rfl

theorem Sound.accept (h : Sound P s) (i : ι) (nonce : Nat) (batch : List TxManyInput) :
    Sound P (s.accept i nonce batch) := by
  refine h.of_grows (grows_accept s i nonce batch) h.unique ?_ (fun _ he => Or.inl he) rfl
  apply Unique.append_singleton (h.mempool.filter _)
  intro hstored
  obtain ⟨b, hb, hkey⟩ := stored_iff.mp hstored
  exact of_decide_eq_true (List.mem_filter.mp hb).2 hkey

theorem accounted_of_accept {e : Event} {nonce : Nat} {batch : List TxManyInput}
    (he : e ∈ batch.map TxManyInput.event) : (s.accept i nonce batch).Accounted e :=
  Or.inr (Or.inl ⟨⟨i, nonce, batch⟩, List.mem_append_right _ (List.mem_singleton_self _), he⟩)

variable {account : ι → Account}

/-- What the contract refuses is accounted for, and what it takes is indexed. -/
theorem Sound.confirm {principal : Text → Option Principal} (h : Sound P s) {env : Env}
    {b : Broadcast ι} (hb : b ∈ s.mempool) :
    Sound P (s.confirm P principal account i env b) := by
  -- the broadcasts left, and where the events of this one go
  have hkept : ∀ b' ∈ s.mempool, ∀ e ∈ b'.events, e ∈ b.events ∨
      b' ∈ s.mempool.filter fun b' => b'.key ≠ b.key := by
    intro b' hb' e he
    by_cases hkey : b'.key = b.key
    · rw [h.mempool.eq_of_mem hb' hb hkey] at he
      exact Or.inl he
    · exact Or.inr (List.mem_filter.mpr ⟨hb', decide_eq_true hkey⟩)
  have hsound : ∀ s' : Relaying ι, s'.db = s.db → s'.round = s.round →
      s'.mempool = s.mempool.filter (fun b' => b'.key ≠ b.key) →
      (∀ e, IsIndexed s.world e → IsIndexed s'.world e) →
      s'.rejected = s.rejected → (∀ e ∈ s.failed, e ∈ s'.failed) → s'.dropped = s.dropped →
      (∀ e ∈ b.events, IsIndexed s'.world e ∨ e ∈ s'.failed) → Sound P s' := by
    intro s' hdb hround hmempool hindexed hrejected hfailed hdropped hevents
    have hgrows : Grows s s' := by
      refine ⟨fun e he => ?_, hindexed, fun e he => ?_⟩
      · unfold Known at he ⊢
        rwa [hdb]
      · unfold Accounted at he ⊢
        rw [hmempool, hrejected, hdropped]
        rcases he with hin | ⟨b', hb', hevent⟩ | hr | hf | hd
        · exact Or.inl (hindexed e hin)
        · rcases hkept b' hb' e hevent with hown | hother
          · rcases hevents e hown with hin | hf
            · exact Or.inl hin
            · exact Or.inr (Or.inr (Or.inr (Or.inl hf)))
          · exact Or.inr (Or.inl ⟨b', hother, hevent⟩)
        · exact Or.inr (Or.inr (Or.inl hr))
        · exact Or.inr (Or.inr (Or.inr (Or.inl (hfailed e hf))))
        · exact Or.inr (Or.inr (Or.inr (Or.inr hd)))
    apply h.of_grows hgrows
    · rw [hdb]
      exact h.unique
    · rw [hmempool]
      exact h.mempool.filter _
    · intro e he
      rw [hdb] at he
      exact Or.inl he
    · exact hround
  unfold Relaying.confirm
  dsimp only
  cases henc : encodeTxMany principal b.batch with
  | none =>
      exact hsound _ rfl rfl rfl (fun _ he => he) rfl (fun _ he => List.mem_append_left _ he) rfl
        fun e he => Or.inr (List.mem_append_right _ he)
  | some txMany =>
      dsimp only
      split
      · next hok =>
          refine hsound _ rfl rfl rfl (fun _ he => he.next _) rfl (fun _ he => he) rfl ?_
          intro e he
          obtain ⟨i', hi', rfl⟩ := List.mem_map.mp he
          exact Or.inl (isIndexed_of_answer henc hok hi')
      · exact hsound _ rfl rfl rfl (fun _ he => he.next _) rfl
          (fun _ he => List.mem_append_left _ he) rfl
          fun e he => Or.inr (List.mem_append_right _ he)

/-! ### The loop -/

/-- The result of a broadcast is stored for events that are accounted for. -/
theorem Sound.record (h : Sound P s) {session : Session} {batch : List TxManyInput}
    {rest : List (List TxManyInput)} (txid : Option Bytes) (error : Option Text) {recorded : Round}
    (hbatch : ∀ i ∈ batch, s.Known (TxManyInput.event i) ∧ s.Accounted (TxManyInput.event i))
    (hrest : s.RoundSound (.processing { session with operations := rest }))
    (hrecorded : s.RoundSound recorded) :
    Sound P (s.record account i session batch rest txid error recorded) := by
  unfold Relaying.record
  cases hdb : upsertSubmittedTx (submittedParams (account i) session.nonce txid error batch) s.db with
  | none => exact h.setRound hrest
  | some db =>
      have htxs := upsertSubmittedTx_txs hdb
      have hgrows : Grows s { s with db := db } := by
        apply Grows.of_db
        intro e he
        rwa [htxs]
      have hstored : Sound P { s with db := db } := by
        apply h.of_grows hgrows
        · show Unique (TxRow.id P) db.txs
          rw [htxs]
          exact h.unique
        · exact h.mempool
        · intro e he
          rcases upsertSubmittedTx_events hdb he with hold | hnew
          · exact Or.inl hold
          · right
            rw [submittedParams, List.map_map] at hnew
            obtain ⟨i', hi', rfl⟩ := List.mem_map.mp hnew
            exact (hbatch i' hi').imp (hgrows.known _) (hgrows.accounted _)
        · rfl
      exact hstored.setRound (hrecorded.mono hgrows)

/-- **A turn of the loop stores nothing but events that are accounted for.** -/
theorem Sound.broadcast (h : Sound P s) {session : Session} {batch : List TxManyInput}
    {rest : List (List TxManyInput)}
    (hround : s.RoundSound (.processing { session with operations := batch :: rest }))
    (reply : Reply) : Sound P (s.broadcast account i session batch rest reply) := by
  have hbatch : ∀ i ∈ batch, s.Known (TxManyInput.event i) := hround batch List.mem_cons_self
  have hrest : s.RoundSound (.processing { session with operations := rest }) :=
    fun batch' hbatch' => hround batch' (List.mem_cons_of_mem batch hbatch')
  unfold Relaying.broadcast
  cases reply with
  | accepted txid =>
      dsimp only
      split
      · have hgrows := grows_accept s i session.nonce batch
        apply (h.accept i session.nonce batch).record
        · intro i' hi'
          exact ⟨hbatch i' hi', accounted_of_accept (List.mem_map_of_mem hi')⟩
        · exact hrest.mono hgrows
        · exact RoundSound.mono (r := .processing _) hrest hgrows
      · exact h
  | rejected error reason txid =>
      have hgrows : Grows s { s with rejected := s.rejected ++ batch.map TxManyInput.event } := by
        refine ⟨fun _ he => he, fun _ he => he, fun e he => ?_⟩
        rcases he with hindexed | hmempool | hrejected | hrest
        · exact Or.inl hindexed
        · exact Or.inr (Or.inl hmempool)
        · exact Or.inr (Or.inr (Or.inl (List.mem_append_left _ hrejected)))
        · exact Or.inr (Or.inr (Or.inr hrest))
      have hrejected : Sound P { s with rejected := s.rejected ++ batch.map TxManyInput.event } :=
        h.of_grows hgrows h.unique h.mempool (fun _ he => Or.inl he) rfl
      apply hrejected.record
      · intro i' hi'
        refine ⟨hbatch i' hi', Or.inr (Or.inr (Or.inl ?_))⟩
        exact List.mem_append_right _ (List.mem_map_of_mem hi')
      · exact hrest.mono hgrows
      · exact (roundSound_catches reason hround).mono hgrows
  | exception reached message =>
      cases reached with
      | true =>
          dsimp only
          split
          · apply (h.accept i session.nonce batch).setRound
            exact (roundSound_catches message hround).mono (grows_accept s i session.nonce batch)
          · exact h
      | false => exact h.setRound (roundSound_catches message hround)

/-! ### Every action -/

/-- **Every action keeps the events accounted for.** -/
theorem Sound.next {lib : BitcoinLib} {principal : Text → Option Principal} (h : Sound P s)
    (a : Action ι) : Sound P (s.next P lib principal account a) := by
  cases a with
  | post tx =>
      dsimp only [Relaying.next]
      split
      · next db hpost => exact h.post (postTx_eq_ok hpost)
      · exact h
  | transact t => exact h.transact t
  | startRound i c =>
      dsimp only [Relaying.next]
      split
      · apply h.setRound
        refine ⟨fun tx htx => ?_, ⟨fun _ he => (nomatch he), fun _ hi => (nomatch hi)⟩⟩
        exact List.mem_map_of_mem (mem_getPendingSubmitTx.mp htx).1
      · exact h
  | assess i n =>
      have hround := h.round i
      dsimp only [Relaying.next]
      split
      · next c todo found heq =>
          rw [heq] at hround
          split
          · next tx htx =>
              have hmem := List.mem_of_getElem? htx
              apply h.setRound
              cases hadd : found.add tx.row.event (Relayer.assess P c s.world tx) with
              | none => trivial
              | some found' =>
                  refine ⟨fun tx' htx' => hround.1 tx' (List.mem_of_mem_eraseIdx htx'), ?_⟩
                  exact hround.2.add (hround.1 tx hmem) hadd
          · exact h
      · exact h
  | setAlreadyIndexed i =>
      have hround := h.round i
      dsimp only [Relaying.next]
      split
      · next found heq =>
          rw [heq] at hround
          apply (h.setAlreadyIndexed (account i).address hround.2.indexedTxs).setRound
          exact hround.2.mono (.of_db fun _ he => he)
      · exact h
  | flush i startingNonce lastExecutedNonce =>
      have hround := h.round i
      dsimp only [Relaying.next]
      split
      · next found heq =>
          rw [heq] at hround
          apply (h.setTxsWithError found.txErrors).setRound
          split
          · trivial
          · have hfound := FoundSound.mono hround (grows_setTxsWithError s found.txErrors)
            exact fun batch hbatch i' hi' =>
              hfound.txManyInputs i' (mem_of_mem_chunk (by decide) hbatch hi')
      · exact h
  | broadcast i reply =>
      have hround := h.round i
      dsimp only [Relaying.next]
      split
      · next session heq =>
          rw [heq] at hround
          split
          · next batch rest hoperations =>
              split
              · exact h
              · apply h.broadcast
                rw [← hoperations]
                exact hround
          · exact h
      · exact h
  | readNonce i answer =>
      have hround := h.round i
      dsimp only [Relaying.next]
      split
      · next session heq =>
          rw [heq] at hround
          exact h.setRound (r := .processing _) hround
      · exact h
  | replaceByFee i nonce newTxId =>
      dsimp only [Relaying.next]
      split
      · refine h.of_grows (.of_db fun _ he => he) h.unique h.mempool (fun e he => ?_) rfl
        rw [onRBFTx_events] at he
        exact Or.inl he
      · exact h
  | finish i =>
      dsimp only [Relaying.next]
      split
      · next session heq =>
          split
          · next hdone =>
              -- no operation is left, so nothing is stored
              rw [hdone.1]
              exact h.setRound (r := .idle) trivial
          · exact h
      · exact h
  | abandon i => exact h.setRound (r := .idle) trivial
  | confirm i env =>
      dsimp only [Relaying.next]
      split
      · next b hb => exact h.confirm (lookup_eq_some hb).1
      · exact h
  | drop i nonce => exact h.drop i nonce

theorem sound_run {lib : BitcoinLib} {principal : Text → Option Principal} (w : World)
    (accountNonce : ι → Nat) (actions : List (Action ι)) :
    Sound P ((machine P lib principal account).run (start w accountNonce) actions) := by
  exact (machine P lib principal account).run_of_step (Sound P) (fun s a hs => hs.next a)
    (sound_start w accountNonce) actions

end Relaying

/-! ## The pending events -/

variable {ι : Type} [DecidableEq ι]

/-- **No other event is lost.**  Whatever the relayers, the validators, the node and the
chain do, in any order: a row of `txs` that no relayer has marked, that has enough
proofs and passes the filters of a relayer, is returned to it, unless the event is
indexed, the node has it, its broadcast was rejected, the contract refused its
batch, or the node threw it out. -/
theorem pending_of_not_accounted (P : Primitives) (lib : BitcoinLib)
    (principal : Text → Option Principal) (account : ι → Account) (w : World)
    (accountNonce : ι → Nat) (actions : List (Action ι)) :
    let s := (Relaying.machine P lib principal account).run (Relaying.start w accountNonce) actions
    ∀ c, ∀ row ∈ s.db.txs, c.Admits row → Qualified P c s.db row →
      shouldHandleForKey P c (hex row.txId) = true → ¬ IsIndexed s.world row.event →
      (∀ b ∈ s.mempool, row.event ∉ b.events) → row.event ∉ s.rejected → row.event ∉ s.failed →
      row.event ∉ s.dropped → ∃ tx ∈ getPendingSubmitTx P c s.db, tx.row = row := by
  intro s c row hrow hadmits hqualified hshard hindexed hmempool hrejected hfailed hdropped
  have hsound : Relaying.Sound P s := Relaying.sound_run w accountNonce actions
  have hnew : ¬ IsSubmitted P s.db row := by
    intro ⟨submitted, hsubmitted, hid⟩
    obtain ⟨hknown, haccounted⟩ := hsound.submitted _ (List.mem_map_of_mem hsubmitted)
    obtain ⟨row', hrow', hevent⟩ := List.mem_map.mp hknown
    -- rows with one id are one row, so it is the event of this one that was submitted
    have hsame : row' = row := by
      apply hsound.unique.eq_of_mem hrow' hrow
      rw [← hid]
      exact congrArg (computeTxsId P) hevent
    rw [← hevent, hsame] at haccounted
    rcases haccounted with hin | ⟨b, hb, he⟩ | hr | hf | hd
    · exact hindexed hin
    · exact hmempool b hb he
    · exact hrejected hr
    · exact hfailed hf
    · exact hdropped hd
  exact ⟨⟨row, s.db.proofs.filter fun proof => proof.id P = row.id P⟩, mem_getPendingSubmitTx.mpr
    ⟨hrow, hnew, hadmits, hqualified, hshard, rfl⟩, rfl⟩

end Relayer
/-! ## One relayer -/

namespace Sample
open Indexer Relayer

def relayerAccount : Account where
  principal := relayer
  address := "ST2CXS9EFB3XDNQRM8JWZEWRK5HWS7G16HN1YCKKR".toList
  maxTxPerBlock := 25
  conflictingNonceStrategy := .increase
  rbfMode := .off

/-- What the relayer does after some posts, up to the loop. -/
def upToLoop (posts : List TxRequest) : List (Action Unit) :=
  posts.map .post ++ (.startRound () relayerConfig ::
    posts.map (fun _ => .assess () 0) ++ [.setAlreadyIndexed (), .flush () 0 0])

/-- The state some actions lead to, from empty tables. -/
def relayed (actions : List (Action Unit)) : Relaying Unit :=
  (Relaying.machine relayPrimitives bitcoinLib principal fun _ => relayerAccount).run
    (Relaying.start relayWorld fun _ => 0) actions

/-- The node cannot be reached, and the operation is given up. -/
def givenUp : List (Action Unit) := upToLoop [bisPost, unisatPost] ++
  [.broadcast () (.exception false "fetch failed".toList), .finish ()]

theorem qualifies_givenUp : ∃ row ∈ (relayed givenUp).db.txs, row.event = bisPost.event ∧
    relayerConfig.Admits row ∧ Qualified relayPrimitives relayerConfig (relayed givenUp).db row ∧
    shouldHandleForKey relayPrimitives relayerConfig (hex row.txId) = true ∧
    ¬ IsIndexed (relayed givenUp).world row.event ∧
    (∀ b ∈ (relayed givenUp).mempool, row.event ∉ b.events) ∧
    row.event ∉ (relayed givenUp).rejected ∧ row.event ∉ (relayed givenUp).failed ∧
    row.event ∉ (relayed givenUp).dropped := by
  decide +kernel

/-- An event whose operation is given up is pending again. -/
theorem pending_givenUp : ∃ tx ∈ getPendingSubmitTx relayPrimitives relayerConfig
    (relayed givenUp).db, tx.row.event = bisPost.event := by
  obtain ⟨row, hrow, hevent, hadmits, hqualified, hshard, hindexed, hmempool, hrejected, hfailed,
    hdropped⟩ := qualifies_givenUp
  have hpending := pending_of_not_accounted relayPrimitives bitcoinLib principal
    (fun _ => relayerAccount) relayWorld (fun _ => 0) givenUp relayerConfig row
  generalize hrun : (Relaying.machine relayPrimitives bitcoinLib principal
    fun _ => relayerAccount).run (Relaying.start relayWorld fun _ => 0) givenUp = s at hpending
  have hs : relayed givenUp = s := hrun
  rw [hs] at hrow hqualified hindexed hmempool hrejected hfailed hdropped ⊢
  obtain ⟨tx, htx, htxRow⟩ := hpending hrow hadmits hqualified hshard hindexed hmempool hrejected
    hfailed hdropped
  exact ⟨tx, htx, by rw [htxRow, hevent]⟩

/-- The event is pending no more, though nothing is wrong with it and it is neither
indexed nor with the node. -/
def Lost (s : Relaying Unit) (e : Event) : Prop :=
  ∃ row ∈ s.db.txs, row.event = e ∧ relayerConfig.Admits row ∧
    Qualified relayPrimitives relayerConfig s.db row ∧
    shouldHandleForKey relayPrimitives relayerConfig (hex row.txId) = true ∧
    ¬ IsIndexed s.world e ∧ (∀ b ∈ s.mempool, e ∉ b.events) ∧
    ∀ tx ∈ getPendingSubmitTx relayPrimitives relayerConfig s.db, tx.row ≠ row

instance (s : Relaying Unit) (e : Event) : Decidable (Lost s e) :=
  inferInstanceAs (Decidable (∃ row ∈ _, _))

/-- A second event of the transaction, with signatures that are none of it. -/
def unsigned (tx : TxRequest) : TxRequest :=
  { tx with
    satpoint := 1
    orderHash := bytesBe 32 0x0a0d6d967aeb7d1a29972b0837311e05ee728702bfb2cb4220d9a85da2de5c1d }

/-- **Good events are lost**: with a broadcast that the node rejects, and in a batch
with an element the contract refuses. -/
theorem event_lost :
    Lost (relayed (upToLoop [bisPost, unisatPost] ++ [
      .broadcast () (.rejected "transaction rejected".toList "NotEnoughFunds".toList none)]))
      bisPost.event ∧
    Lost (relayed (upToLoop [bisPost, unisatPost, unsigned bisPost, unsigned unisatPost] ++ [
      .broadcast () (.accepted []), .confirm () mainnet])) bisPost.event := by
  constructor
  · decide +kernel
  · decide +kernel

end Sample
end BitcoinOracle
