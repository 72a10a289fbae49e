import BitcoinOracle.GroupedRows
import BitcoinOracle.Maintenance

/-! # A fleet of relayers

Relayers that share their tables divide the events among themselves by the Bitcoin
transaction: the first ten bytes of a digest of its id, modulo the number of relayers,
say whose it is.  So what the relayers of a fleet select is a partition of what one
relayer would select alone, and no two of them ever hold the same event, be it in a
round, in the mempool or in a row of `submitted_tx`.
-/
namespace BitcoinOracle
open Clarity KeyedTable Indexer

namespace Relayer

/-! ## The shards -/

/-- `shardIndex`, for a number of relayers. -/
def shardOf (P : Primitives) (total : Nat) (key : Text) : Nat :=
  ((P.sha256 (ascii key)).take 10).foldl (fun n b => 256 * n + b.toNat) 0 % total

theorem shouldHandleForKey_iff {P : Primitives} {c : Config} {key : Text} :
    shouldHandleForKey P c key = true ↔ shardOf P c.shardTotalRelayers key = c.shardRelayerIndex :=
  decide_eq_true_iff

namespace Config

/-- Another relayer of the same fleet. -/
def withIndex (c : Config) (i : Fin c.shardTotalRelayers) : Config :=
  { c with shardRelayerIndex := i, shardRelayerIndex_lt := i.isLt }

/-- The relayer without a fleet. -/
def alone (c : Config) : Config :=
  { c with
    shardRelayerIndex := 0
    shardTotalRelayers := 1
    shardRelayerIndex_lt := Nat.zero_lt_one }

end Config

/-- **The relayers of a fleet divide the pending events.**  For any tables, what they
select one after the other is what a single relayer selects, each event once. -/
theorem getPendingSubmitTx_shards (P : Primitives) (c : Config) (db : Database) :
    ((List.finRange c.shardTotalRelayers).flatMap fun i =>
      getPendingSubmitTx P (c.withIndex i) db).Perm (getPendingSubmitTx P c.alone db) := by
  have hpositive : 0 < c.shardTotalRelayers :=
    Nat.lt_of_le_of_lt (Nat.zero_le _) c.shardRelayerIndex_lt
  let shard (tx : PendingTx) : Fin c.shardTotalRelayers :=
    ⟨shardOf P c.shardTotalRelayers (hex tx.row.txId), Nat.mod_lt _ hpositive⟩
  -- a shard is what the relayer alone selects, but for the rows of the others
  have hshard : ∀ i, getPendingSubmitTx P (c.withIndex i) db =
      (getPendingSubmitTx P c.alone db).filter fun tx => shard tx = i := by
    intro i
    have halone : ∀ key, shouldHandleForKey P c.alone key = true := fun key =>
      shouldHandleForKey_iff.mpr (Nat.mod_one _)
    have hall : ∀ rows : List TxRow,
        (rows.filter fun row => shouldHandleForKey P c.alone (hex row.txId)) = rows := fun rows =>
      List.filter_eq_self.mpr fun row _ => halone (hex row.txId)
    unfold getPendingSubmitTx
    dsimp only
    rw [hall, List.filter_map]
    congr 1
    refine List.filter_congr fun row _ => ?_
    rw [Bool.eq_iff_iff, shouldHandleForKey_iff, Function.comp_apply, decide_eq_true_iff]
    exact ⟨fun h => Fin.ext h, fun h => congrArg Fin.val h⟩
  let A : GroupedRows.Arrangement shard (getPendingSubmitTx P c.alone db)
      (List.finRange c.shardTotalRelayers) :=
    ⟨fun i => getPendingSubmitTx P (c.withIndex i) db, fun i _ => .of_eq (hshard i)⟩
  refine (A.flatMap_perm (List.nodup_finRange _)).trans (.of_eq ?_)
  exact List.filter_eq_self.mpr fun tx _ => decide_eq_true (List.mem_finRange _)

/-! ## What a relayer holds -/

def Found.events (found : Found) : List Event :=
  found.indexedTxs ++ (found.txErrors.map Prod.fst ++ found.txManyInputs.map TxManyInput.event)

def batchEvents (operations : List (List TxManyInput)) : List Event :=
  operations.flatMap fun batch => batch.map TxManyInput.event

/-- The events a round is about. -/
def Round.events : Round → List Event
  | .idle => []
  | .assessing _ todo found => todo.map (fun tx => tx.row.event) ++ found.events
  | .marking found => found.events
  | .processing session => batchEvents session.operations

section Events
variable {P : Primitives}

theorem mem_events_add {c : Config} {w : World} {tx : PendingTx} {found found' : Found}
    {e : Event} (hadd : found.add tx.row.event (assess P c w tx) = some found')
    (h : e ∈ found'.events) : e ∈ found.events ∨ e = tx.row.event := by
  cases houtcome : assess P c w tx with
  | throws =>
      rw [houtcome] at hadd
      cases hadd
  | waits =>
      rw [houtcome] at hadd
      cases hadd
      exact Or.inl h
  | alreadyIndexed | error text =>
      rw [houtcome] at hadd
      cases hadd
      simp only [Found.events, List.map_append, List.mem_append, List.mem_singleton,
        List.map_cons, List.map_nil] at h ⊢
      tauto
  | input i =>
      rw [houtcome] at hadd
      cases hadd
      simp only [Found.events, List.map_append, List.mem_append, List.mem_singleton,
        List.map_cons, List.map_nil, event_of_assess houtcome] at h ⊢
      tauto

theorem mem_events_catches {account : Account} {session : Session} {batch : List TxManyInput}
    {rest : List (List TxManyInput)} {message : Text} {e : Event}
    (h : e ∈ (session.catches account batch rest message).events) :
    e ∈ batchEvents (batch :: rest) := by
  have hrest : ∀ e ∈ batchEvents rest, e ∈ batchEvents (batch :: rest) := fun e he =>
    List.mem_append_right _ he
  unfold Session.catches at h
  split at h
  · exact hrest e h
  · split at h
    · cases hstrategy : account.conflictingNonceStrategy with
      | increase =>
          rw [hstrategy] at h
          exact h
      | replace =>
          rw [hstrategy] at h
          dsimp only at h
          split at h
          · exact h
          · cases h
    · split at h
      · exact h
      · exact hrest e h

/-- Rows of `submitted_tx` are for events of the batch, and by its relayer, unless they
were there. -/
theorem mem_upsertSubmittedTx {params : List SubmittedParams} {db db' : Database}
    (h : upsertSubmittedTx params db = some db') {row : SubmittedRow}
    (hrow : row ∈ db'.submittedTx) :
    (∃ old ∈ db.submittedTx, old.event = row.event ∧ old.submittedBy = row.submittedBy) ∨
      ∃ tx ∈ params, tx.event = row.event ∧ tx.submittedBy = row.submittedBy := by
  obtain ⟨rows, hrows, rfl⟩ := Option.map_eq_some_iff.mp h
  refine foldlM_invariant (fun rows => ∀ row ∈ rows,
    (∃ old ∈ db.submittedTx, old.event = row.event ∧ old.submittedBy = row.submittedBy) ∨
      ∃ tx ∈ params, tx.event = row.event ∧ tx.submittedBy = row.submittedBy)
    (fun tx htx before after hstep hbefore row hrow => ?_) hrows
    (fun row hrow => Or.inl ⟨row, hrow, rfl, rfl⟩) row hrow
  unfold upsertSubmittedRow at hstep
  split at hstep
  · obtain ⟨submittedBy, hsubmittedBy, rfl⟩ := Option.map_eq_some_iff.mp hstep
    rcases List.mem_append.mp hrow with hold | hnew
    · exact hbefore row hold
    · rw [List.mem_singleton.mp hnew]
      exact Or.inr ⟨tx, htx, rfl, hsubmittedBy⟩
  · obtain rfl := Option.some.inj hstep
    split at hrow
    · obtain ⟨old, hold, rfl⟩ := List.mem_map.mp hrow
      rw [updateSubmitted_event]
      have hsame : (updateSubmitted tx old).submittedBy = old.submittedBy := by
        unfold updateSubmitted
        split
        · rfl
        · rfl
      rw [hsame]
      exact hbefore old hold
    · exact hbefore row hrow
  · cases hstep

end Events

namespace Relaying
variable {ι : Type} [DecidableEq ι] {P : Primitives} {account : ι → Account} {s s' : Relaying ι}
  {i j : ι} {e : Event}

/-- A relayer holds an event in its round, in a broadcast, or in a row it has written. -/
def Holds (account : ι → Account) (s : Relaying ι) (i : ι) (e : Event) : Prop :=
  e ∈ (s.round i).events ∨ (∃ b ∈ s.mempool, b.relayer = i ∧ e ∈ b.events) ∨
    ∃ row ∈ s.db.submittedTx, row.submittedBy = some (account i).address ∧ row.event = e

omit [DecidableEq ι] in
/-- A step that adds nothing to what relayers hold. -/
theorem Holds.of_subset (h : s'.Holds account j e)
    (hround : ∀ e ∈ (s'.round j).events, e ∈ (s.round j).events)
    (hmempool : ∀ b ∈ s'.mempool, b ∈ s.mempool)
    (hsubmitted : ∀ row ∈ s'.db.submittedTx, ∃ old ∈ s.db.submittedTx,
      old.event = row.event ∧ old.submittedBy = row.submittedBy) : s.Holds account j e := by
  rcases h with hevent | ⟨b, hb, hown⟩ | ⟨row, hrow, hby, he⟩
  · exact Or.inl (hround e hevent)
  · exact Or.inr (Or.inl ⟨b, hmempool b hb, hown⟩)
  · obtain ⟨old, hold, hevent, hsame⟩ := hsubmitted row hrow
    exact Or.inr (Or.inr ⟨old, hold, hsame.trans hby, hevent.trans he⟩)

theorem holds_setRound {r : Round} (h : (s.setRound i r).Holds account j e) :
    s.Holds account j e ∨ j = i ∧ e ∈ r.events := by
  rcases h with hevent | hrest
  · have hround : (s.setRound i r).round j = if j = i then r else s.round j := by
      show Function.update s.round i r j = _
      rw [Function.update_apply]
    rw [hround] at hevent
    split at hevent
    · next heq => exact Or.inr ⟨heq, hevent⟩
    · exact Or.inl (Or.inl hevent)
  · exact Or.inl (Or.inr hrest)

theorem holds_accept {nonce : Nat} {batch : List TxManyInput}
    (h : (s.accept i nonce batch).Holds account j e) :
    s.Holds account j e ∨ j = i ∧ e ∈ batch.map TxManyInput.event := by
  rcases h with hevent | ⟨b, hb, hown, he⟩ | hrow
  · exact Or.inl (Or.inl hevent)
  · rcases List.mem_append.mp hb with hold | hnew
    · exact Or.inl (Or.inr (Or.inl ⟨b, List.mem_of_mem_filter hold, hown, he⟩))
    · obtain rfl := List.mem_singleton.mp hnew
      exact Or.inr ⟨hown.symm, he⟩
  · exact Or.inl (Or.inr (Or.inr hrow))

theorem holds_record (haddress : Function.Injective fun i => (account i).address)
    {session : Session} {batch : List TxManyInput} {rest : List (List TxManyInput)}
    {txid : Option Bytes} {error : Option Text} {recorded : Round}
    (hrecorded : ∀ e ∈ recorded.events, e ∈ batchEvents (batch :: rest))
    (h : (s.record account i session batch rest txid error recorded).Holds account j e) :
    s.Holds account j e ∨ j = i ∧ e ∈ batchEvents (batch :: rest) := by
  unfold Relaying.record at h
  split at h
  · next db hdb =>
      rcases holds_setRound h with hstored | ⟨heq, hevent⟩
      · rcases hstored with hevent | hmempool | ⟨row, hrow, hby, he⟩
        · exact Or.inl (Or.inl hevent)
        · exact Or.inl (Or.inr (Or.inl hmempool))
        · rcases mem_upsertSubmittedTx hdb hrow with ⟨old, hold, hevent, hsame⟩ |
            ⟨tx, htx, hevent, hsame⟩
          · exact Or.inl (Or.inr (Or.inr ⟨old, hold, hsame.trans hby, hevent.trans he⟩))
          · -- a row for this batch bears the address of its relayer
            obtain ⟨i', hi', rfl⟩ := List.mem_map.mp htx
            have hwriter : (account i).address = (account j).address :=
              Option.some.inj (hsame.trans hby)
            refine Or.inr ⟨haddress hwriter.symm, List.mem_append_left _ ?_⟩
            rw [← he, ← hevent]
            exact List.mem_map_of_mem hi'
      · exact Or.inr ⟨heq, hrecorded e hevent⟩
  · rcases holds_setRound h with hheld | ⟨heq, hevent⟩
    · exact Or.inl hheld
    · exact Or.inr ⟨heq, List.mem_append_right _ hevent⟩

theorem holds_broadcast (haddress : Function.Injective fun i => (account i).address)
    {session : Session} {batch : List TxManyInput} {rest : List (List TxManyInput)}
    (hround : s.round i = .processing { session with operations := batch :: rest }) {reply : Reply}
    (h : (s.broadcast account i session batch rest reply).Holds account j e) :
    s.Holds account j e := by
  have hown : ∀ e ∈ batchEvents (batch :: rest), s.Holds account i e := by
    intro e he
    left
    rw [hround]
    exact he
  have hkeep : ∀ {s' : Relaying ι}, s'.Holds account j e ∨ j = i ∧ e ∈ batchEvents (batch :: rest) →
      (s'.Holds account j e → s.Holds account j e) → s.Holds account j e := by
    rintro s' (hheld | ⟨rfl, hevent⟩) hback
    · exact hback hheld
    · exact hown e hevent
  have haccept : ∀ {nonce : Nat}, (s.accept i nonce batch).Holds account j e →
      s.Holds account j e := by
    intro nonce hheld
    rcases holds_accept hheld with hold | ⟨rfl, hevent⟩
    · exact hold
    · exact hown e (List.mem_append_left _ hevent)
  have hcatches : ∀ message, ∀ e ∈ (session.catches (account i) batch rest message).events,
      e ∈ batchEvents (batch :: rest) := fun _ _ => mem_events_catches
  unfold Relaying.broadcast at h
  cases reply with
  | accepted txid =>
      dsimp only at h
      split at h
      · refine hkeep (holds_record haddress ?_ h) haccept
        exact fun e he => List.mem_append_right _ he
      · exact h
  | rejected error reason txid => exact hkeep (holds_record haddress (hcatches reason) h) id
  | exception reached message =>
      cases reached with
      | true =>
          dsimp only at h
          split at h
          · have hheld := (holds_setRound h).imp_right (And.imp_right (hcatches message e))
            exact hkeep hheld haccept
          · exact h
      | false => exact hkeep ((holds_setRound h).imp_right (And.imp_right (hcatches message e))) id

/-- The execution of a batch leaves tables and rounds as they are. -/
theorem confirm_frame (P : Primitives) (principal : Text → Option Principal)
    (account : ι → Account) (i : ι) (env : Env) (b : Broadcast ι) :
    (s.confirm P principal account i env b).db = s.db ∧
      (s.confirm P principal account i env b).round = s.round ∧
      (s.confirm P principal account i env b).mempool =
        s.mempool.filter fun b' => b'.key ≠ b.key := by
  unfold Relaying.confirm
  dsimp only
  split
  · exact ⟨rfl, rfl, rfl⟩
  · split
    · exact ⟨rfl, rfl, rfl⟩
    · exact ⟨rfl, rfl, rfl⟩

/-- **A relayer comes to hold an event only by selecting it.** -/
theorem holds_next (haddress : Function.Injective fun i => (account i).address) {lib : BitcoinLib}
    {principal : Text → Option Principal} {a : Action ι}
    (h : (s.next P lib principal account a).Holds account j e) :
    s.Holds account j e ∨
      ∃ c, a = .startRound j c ∧ ∃ tx ∈ getPendingSubmitTx P c s.db, tx.row.event = e := by
  cases a with
  | startRound i c =>
      dsimp only [Relaying.next] at h
      split at h
      · rcases holds_setRound h with hheld | ⟨rfl, hevent⟩
        · exact Or.inl hheld
        · rcases List.mem_append.mp hevent with htodo | hfound
          · obtain ⟨tx, htx, he⟩ := List.mem_map.mp htodo
            exact Or.inr ⟨c, rfl, tx, htx, he⟩
          · cases hfound
      · exact Or.inl h
  | post tx =>
      left
      dsimp only [Relaying.next] at h
      split at h
      · next db hpost =>
          have hsame : db.submittedTx = s.db.submittedTx := by
            obtain ⟨-, -, ⟨-, rfl⟩ | ⟨-, -, -, rfl⟩⟩ :=
              upsertTxWithProof_eq_ok.mp (postTx_eq_ok hpost)
            · rfl
            · rfl
          refine Holds.of_subset (s := s) h (fun _ he => he) (fun _ hb => hb) ?_
          show ∀ row ∈ db.submittedTx, _
          rw [hsame]
          exact fun row hrow => ⟨row, hrow, rfl, rfl⟩
      · exact h
  | transact t => exact Or.inl h
  | assess i n =>
      left
      dsimp only [Relaying.next] at h
      split at h
      · next c todo found hround =>
          split at h
          · next tx htx =>
              rcases holds_setRound h with hheld | ⟨rfl, hevent⟩
              · exact hheld
              · left
                rw [hround]
                cases hadd : found.add tx.row.event (Relayer.assess P c s.world tx) with
                | none =>
                    rw [hadd] at hevent
                    cases hevent
                | some found' =>
                    rw [hadd] at hevent
                    rcases List.mem_append.mp hevent with hleft | hfound
                    · obtain ⟨tx', htx', he⟩ := List.mem_map.mp hleft
                      exact List.mem_append_left _
                        (List.mem_map.mpr ⟨tx', List.mem_of_mem_eraseIdx htx', he⟩)
                    · rcases mem_events_add hadd hfound with hold | rfl
                      · exact List.mem_append_right _ hold
                      · exact List.mem_append_left _
                          (List.mem_map.mpr ⟨tx, List.mem_of_getElem? htx, rfl⟩)
          · exact h
      · exact h
  | setAlreadyIndexed i =>
      left
      dsimp only [Relaying.next] at h
      split at h
      · next found hround =>
          have hown : ∀ e ∈ found.events, s.Holds account i e := by
            intro e he
            left
            rw [hround]
            exact he
          rcases holds_setRound h with hheld | ⟨rfl, hevent⟩
          · rcases hheld with hevent | hmempool | ⟨row, hrow, hby, he⟩
            · exact Or.inl hevent
            · exact Or.inr (Or.inl hmempool)
            · rcases List.mem_append.mp hrow with hold | hnew
              · exact Or.inr (Or.inr ⟨row, hold, hby, he⟩)
              · obtain ⟨e', he', rfl⟩ := List.mem_map.mp hnew
                have hwriter : i = j := haddress (Option.some.inj hby)
                rw [← hwriter, ← he]
                exact hown e' (List.mem_append_left _ he')
          · exact hown e hevent
      · exact h
  | flush i startingNonce lastExecutedNonce =>
      left
      dsimp only [Relaying.next] at h
      split at h
      · next found hround =>
          rcases holds_setRound h with hheld | ⟨rfl, hevent⟩
          · exact Holds.of_subset (s := s) hheld (fun _ he => he) (fun _ hb => hb) fun row hrow =>
              ⟨row, hrow, rfl, rfl⟩
          · left
            rw [hround]
            split at hevent
            · cases hevent
            · obtain ⟨batch, hbatch, he⟩ := List.mem_flatMap.mp hevent
              obtain ⟨i', hi', rfl⟩ := List.mem_map.mp he
              have hinput := mem_of_mem_chunk (by decide) hbatch hi'
              exact List.mem_append_right _ (List.mem_append_right _ (List.mem_map_of_mem hinput))
      · exact h
  | broadcast i reply =>
      left
      dsimp only [Relaying.next] at h
      split at h
      · next session hround =>
          split at h
          · next batch rest hoperations =>
              split at h
              · exact h
              · have hbatches : s.round i =
                    .processing { session with operations := batch :: rest } := by
                  rw [hround, ← hoperations]
                exact holds_broadcast haddress hbatches h
          · exact h
      · exact h
  | readNonce i answer =>
      left
      dsimp only [Relaying.next] at h
      split at h
      · next session hround =>
          rcases holds_setRound h with hheld | ⟨rfl, hevent⟩
          · exact hheld
          · left
            rw [hround]
            exact hevent
      · exact h
  | replaceByFee i nonce newTxId =>
      left
      dsimp only [Relaying.next] at h
      split at h
      · refine Holds.of_subset (s := s) h (fun _ he => he) (fun _ hb => hb) fun row hrow => ?_
        obtain ⟨old, hold, rfl⟩ := List.mem_map.mp hrow
        refine ⟨old, hold, ?_⟩
        split
        · exact ⟨rfl, rfl⟩
        · exact ⟨rfl, rfl⟩
      · exact h
  | finish i =>
      left
      dsimp only [Relaying.next] at h
      split at h
      · next session hround =>
          split at h
          · next hdone =>
              rw [hdone.1] at h
              rcases holds_setRound h with hheld | ⟨rfl, hevent⟩
              · exact hheld
              · cases hevent
          · exact h
      · exact h
  | abandon i =>
      rcases holds_setRound h with hheld | ⟨rfl, hevent⟩
      · exact Or.inl hheld
      · cases hevent
  | confirm i env =>
      left
      dsimp only [Relaying.next] at h
      split at h
      · next b hb =>
          obtain ⟨hdb, hround, hmempool⟩ := confirm_frame (s := s) P principal account i env b
          apply h.of_subset
          · rw [hround]
            exact fun _ he => he
          · rw [hmempool]
            exact fun _ hb' => List.mem_of_mem_filter hb'
          · rw [hdb]
            exact fun row hrow => ⟨row, hrow, rfl, rfl⟩
      · exact h
  | drop i nonce =>
      left
      exact Holds.of_subset (s := s) h (fun _ he => he) (fun _ hb => List.mem_of_mem_filter hb)
        fun row hrow => ⟨row, hrow, rfl, rfl⟩

omit [DecidableEq ι] in
theorem mem_setTxsWithError (txErrors : List (Event × Text)) {rows : List TxRow} {row : TxRow}
    (h : row ∈ rows) : ∃ row' ∈ txErrors.foldl (fun rows x => rows.map (setError x.1 x.2)) rows,
      row'.event = row.event ∧ row'.txId = row.txId := by
  induction txErrors generalizing rows row with
  | nil => exact ⟨row, h, rfl, rfl⟩
  | cons x txErrors ih =>
      obtain ⟨row', hrow', hevent, htxId⟩ := ih (List.mem_map_of_mem (f := setError x.1 x.2) h)
      refine ⟨row', hrow', hevent.trans (setError_event _ _ _), htxId.trans ?_⟩
      unfold setError
      split
      · rfl
      · rfl

theorem record_txs {session : Session} {batch : List TxManyInput} {rest : List (List TxManyInput)}
    {txid : Option Bytes} {error : Option Text} {recorded : Round} :
    (s.record account i session batch rest txid error recorded).db.txs = s.db.txs := by
  unfold Relaying.record
  split
  · next db hstored => exact upsertSubmittedTx_txs hstored
  · rfl

/-- A row of `txs` stays, with its event and its transaction. -/
theorem row_next (P : Primitives) (lib : BitcoinLib) (principal : Text → Option Principal)
    (account : ι → Account) (a : Action ι) {row : TxRow} (h : row ∈ s.db.txs) :
    ∃ row' ∈ (s.next P lib principal account a).db.txs,
      row'.event = row.event ∧ row'.txId = row.txId := by
  have hsame : ∀ {s' : Relaying ι}, s'.db.txs = s.db.txs →
      ∃ row' ∈ s'.db.txs, row'.event = row.event ∧ row'.txId = row.txId := by
    intro s' htxs
    rw [htxs]
    exact ⟨row, h, rfl, rfl⟩
  cases a with
  | post tx =>
      dsimp only [Relaying.next]
      split
      · next db hpost =>
          obtain ⟨-, -, ⟨-, rfl⟩ | ⟨-, new, -, rfl⟩⟩ :=
            upsertTxWithProof_eq_ok.mp (postTx_eq_ok hpost)
          · exact ⟨row, h, rfl, rfl⟩
          · exact ⟨row, List.mem_append_left _ h, rfl, rfl⟩
      · exact hsame rfl
  | flush i startingNonce lastExecutedNonce =>
      dsimp only [Relaying.next]
      split
      · exact mem_setTxsWithError _ h
      · exact hsame rfl
  | broadcast i reply =>
      dsimp only [Relaying.next]
      split
      · split
        · split
          · exact hsame rfl
          · apply hsame
            unfold Relaying.broadcast
            cases reply with
            | accepted txid =>
                dsimp only
                split
                · exact record_txs
                · rfl
            | rejected error reason txid => exact record_txs
            | exception reached message =>
                cases reached with
                | true =>
                    dsimp only
                    split
                    · rfl
                    · rfl
                | false => rfl
        · exact hsame rfl
      · exact hsame rfl
  | finish i =>
      dsimp only [Relaying.next]
      split
      · split
        · next hdone =>
            rw [hdone.1]
            exact hsame rfl
        · exact hsame rfl
      · exact hsame rfl
  | confirm i env =>
      dsimp only [Relaying.next]
      split
      · next b _ =>
          exact hsame (congrArg Database.txs (confirm_frame P principal account i env b).1)
      · exact hsame rfl
  | assess _ _ =>
      dsimp only [Relaying.next]
      split
      · split
        · exact hsame rfl
        · exact hsame rfl
      · exact hsame rfl
  | startRound _ _ | setAlreadyIndexed _ | readNonce _ _ | replaceByFee _ _ _ =>
      dsimp only [Relaying.next]
      split
      · exact hsame rfl
      · exact hsame rfl
  | transact _ | abandon _ | drop _ _ => exact hsame rfl

end Relaying

/-! ## One relayer for an event -/

/-- The rounds of the fleet are configured for its number of relayers, and each relayer's
for the index of that relayer. -/
def Maintenance.InFleet {ι κ : Type} (total : Nat) (index : ι → Nat) : Maintenance ι κ → Prop
  | .relay (.startRound i c) => c.shardTotalRelayers = total ∧ c.shardRelayerIndex = index i
  | _ => True

/-- What a relayer holds belongs to its shard. -/
def Relaying.Sharded {ι : Type} (P : Primitives) (account : ι → Account) (total : Nat)
    (index : ι → Nat) (s : Relaying ι) : Prop :=
  ∀ i e, s.Holds account i e → ∃ row ∈ s.db.txs, row.event = e ∧
    shardOf P total (hex row.txId) = index i

section Fleet
variable {ι κ : Type} [DecidableEq ι] [DecidableEq κ] {P : Primitives} {lib : BitcoinLib}
  {principal : Text → Option Principal} {account : ι → Account} {total : Nat} {index : ι → Nat}
  {s : Maintained ι κ}

omit [DecidableEq ι] [DecidableEq κ] in
/-- A command changes nothing of the relayers but takes rows of `submitted_tx` away. -/
theorem Maintained.sharded_setDatabase (h : s.relaying.Sharded P account total index)
    {db : Database} (htxs : db.txs = s.relaying.db.txs)
    (hsubmitted : ∀ row ∈ db.submittedTx, row ∈ s.relaying.db.submittedTx) :
    (s.setDatabase db).relaying.Sharded P account total index := by
  intro i e hheld
  show ∃ row ∈ db.txs, _
  rw [htxs]
  exact h i e (hheld.of_subset (fun _ he => he) (fun _ hb => hb) fun row hrow =>
    ⟨row, hsubmitted row hrow, rfl, rfl⟩)

theorem Maintained.sharded_next (haddress : Function.Injective fun i => (account i).address)
    (h : s.relaying.Sharded P account total index) {a : Maintenance ι κ}
    (ha : a.InFleet total index) :
    (s.next P lib principal account a).relaying.Sharded P account total index := by
  cases a with
  | relay a =>
      intro i e hheld
      have hrow : ∃ row ∈ s.relaying.db.txs, row.event = e ∧
          shardOf P total (hex row.txId) = index i := by
        rcases Relaying.holds_next haddress hheld with hold | ⟨c, rfl, tx, htx, rfl⟩
        · exact h i e hold
        · obtain ⟨hrow, -, -, -, hshard, -⟩ := mem_getPendingSubmitTx.mp htx
          obtain ⟨htotal, hindex⟩ := ha
          rw [shouldHandleForKey_iff, htotal, hindex] at hshard
          exact ⟨tx.row, hrow, rfl, hshard⟩
      obtain ⟨row, hrow, hevent, hshard⟩ := hrow
      obtain ⟨row', hrow', hevent', htxId⟩ :=
        Relaying.row_next P lib principal account a hrow
      exact ⟨row', hrow', hevent'.trans hevent, by rw [htxId, hshard]⟩
  | startCheck k whitelist confirm longLive =>
      dsimp only [Maintained.next]
      split
      · exact h
      · exact h
  | startBackFill k whitelist =>
      dsimp only [Maintained.next]
      split
      · exact h
      · exact h
  | look k n => exact h
  | finish k =>
      dsimp only [Maintained.next]
      split
      · split
        · exact sharded_setDatabase h rfl fun row hrow => (mem_deleteStacksIds.mp hrow).1
        · exact h
      · exact sharded_setDatabase h rfl fun row hrow => (mem_removeSubmitTxs.mp hrow).1
      · exact h
  | exit k => exact h

/-- **No two relayers of a fleet ever hold the same event.**  In every run of relayers that
share the number of relayers and have indices of their own, beside any maintenance: an
event that one of them has in its round, among its broadcasts, or in a row of
`submitted_tx` that it has written, is nothing another one has in any of these. -/
theorem fleet_disjoint (P : Primitives) (lib : BitcoinLib) (principal : Text → Option Principal)
    (account : ι → Account) (haddress : Function.Injective fun i => (account i).address)
    (total : Nat) (index : ι → Nat) (hindex : Function.Injective index) (w : World)
    (accountNonce : ι → Nat) (actions : List (Maintenance ι κ))
    (hactions : ∀ a ∈ actions, a.InFleet total index) :
    let s := (Maintained.machine P lib principal account).run (.start w accountNonce) actions
    ∀ i j e, s.relaying.Holds account i e → s.relaying.Holds account j e → i = j := by
  intro s i j e hi hj
  have hsharded : s.relaying.Sharded P account total index := by
    have halong : (Maintained.machine P lib principal account).Along
        (fun _ a => a.InFleet total index) (.start w accountNonce) actions :=
      Machine.along_of_forall fun a ha _ => hactions a ha
    refine Machine.run_invariant
      (fun s : Maintained ι κ => s.relaying.Sharded P account total index)
      (fun _ _ ha hs => Maintained.sharded_next haddress hs ha) halong ?_
    rintro i e (hround | ⟨b, hb, -⟩ | ⟨row, hrow, -⟩)
    · cases hround
    · cases hb
    · cases hrow
  have hsound := Maintained.sound_run P lib principal account w accountNonce actions
  obtain ⟨row, hrow, hevent, hshard⟩ := hsharded i e hi
  obtain ⟨row', hrow', hevent', hshard'⟩ := hsharded j e hj
  -- one event has one row, and the row one shard
  have hsame : row = row' := hsound.unique.eq_of_mem hrow hrow' (by
    rw [TxRow.id, TxRow.id, hevent, hevent'])
  apply hindex
  rw [← hshard, ← hshard', hsame]

end Fleet

end Relayer

/-! ## A fleet of two -/

namespace Sample
open Indexer Relayer

/-- The second relayer has an address of its own. -/
def fleetAccount (i : Bool) : Account :=
  { relayerAccount with
    address := if i then "ST1SJ3DTE5DN7X54YDH5D64R3BCB6A2AG2ZQ8YPD5".toList
      else relayerAccount.address }

theorem fleetConfig_lt : ∀ i : Bool, i.toNat < 2 := by decide

def fleetConfig (i : Bool) : Config :=
  { relayerConfig with
    shardRelayerIndex := i.toNat
    shardTotalRelayers := 2
    shardRelayerIndex_lt := fleetConfig_lt i }

def fleetActions : List (Maintenance Bool Unit) :=
  [.relay (.post bisPost), .relay (.post unisatPost),
    .relay (.startRound false (fleetConfig false)), .relay (.startRound true (fleetConfig true))]

theorem inFleet_fleetActions : ∀ a ∈ fleetActions, a.InFleet 2 Bool.toNat := by
  unfold fleetActions
  simp only [List.forall_mem_cons]
  exact ⟨trivial, trivial, ⟨rfl, rfl⟩, ⟨rfl, rfl⟩, fun _ ha => nomatch ha⟩

theorem fleetAccount_injective : Function.Injective fun i => (fleetAccount i).address := by
  intro i j h
  cases i with
  | false =>
      cases j with
      | false => rfl
      | true => exact absurd h (by decide)
  | true =>
      cases j with
      | false => exact absurd h (by decide)
      | true => rfl

theorem toNat_injective : Function.Injective Bool.toNat := by
  intro i j h
  cases i with
  | false =>
      cases j with
      | false => rfl
      | true => cases h
  | true =>
      cases j with
      | false => cases h
      | true => rfl

/-- Two relayers that have both started their rounds have no event in common. -/
theorem fleet_apart : ¬ ∃ e,
    ((Maintained.machine relayPrimitives bitcoinLib principal fleetAccount).run
      (.start relayWorld fun _ => 0) fleetActions).relaying.Holds fleetAccount false e ∧
    ((Maintained.machine relayPrimitives bitcoinLib principal fleetAccount).run
      (.start relayWorld fun _ => 0) fleetActions).relaying.Holds fleetAccount true e := by
  intro ⟨e, hfirst, hsecond⟩
  exact Bool.false_ne_true (fleet_disjoint relayPrimitives bitcoinLib principal fleetAccount
    fleetAccount_injective 2 Bool.toNat toNat_injective relayWorld (fun _ => 0)
    fleetActions inFleet_fleetActions false true e hfirst hsecond)

end Sample
end BitcoinOracle
