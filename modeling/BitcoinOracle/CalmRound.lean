import BitcoinOracle.BatchSplitting
import BitcoinOracle.HonestValidators
import BitcoinOracle.Verdicts

/-! # A round that nothing disturbs

Whatever has happened before, a relayer that starts a round anew can still get on the chain
what the validators agree on: if the node accepts its batches and the chain executes them,
then after the round every pending event with enough proofs is indexed
(`calm_round_indexes`).  Nothing that has gone wrong earlier wedges it.

A batch leaves the next ones acceptable: the contract counts the signers of its own events
only, the rows of `submitted_tx` are of its own events only, and the account has executed
the nonce that the loop has used.
-/
namespace BitcoinOracle
open Clarity KeyedTable Indexer

namespace Relayer
open Oracle Validator Signing

section Ready
variable (P : Primitives) (env : Env) (principal : Text → Option Principal) (relayer : Principal)

/-! ## The chain -/

/-- What the hash of an input is of. -/
def txsOf (batch : List TxManyInput) : List Tx := batch.filterMap fun i => i.tx.encode

/-- The chain would take the batches, one after the other. -/
structure Ready (es : List SignedTx) (w : World) (batches : List (List TxManyInput)) : Prop where
  ten : AtMostTen w
  unpaused : w.oracle.isPaused = false
  approved : (w.oracle.approvedRelayers relayer).isSome = true
  writable : Writable w
  counted : World.CountedFor P es w
  honest : ∀ batch ∈ batches, HonestBatch P env principal w batch
  distinct : (batches.flatten.map TxManyInput.event).Nodup
  fresh : ∀ i ∈ batches.flatten, ¬ IsIndexed w (TxManyInput.event i)
  free : ∀ tx ∈ txsOf batches.flatten ++ es.map SignedTx.tx,
    ∀ tx' ∈ txsOf batches.flatten ++ es.map SignedTx.tx, hashTx P tx = hashTx P tx' → tx = tx'

variable {P env principal relayer}

theorem encodeKey_inj {e e' : Event} {key : IndexedKey 8192}
    (h : encodeKey e.txHash e.output e.satpoint = some key)
    (h' : encodeKey e'.txHash e'.output e'.satpoint = some key) : e = e' := by
  obtain ⟨hhash, houtput, hoffset⟩ := encodeKey_eq_some.mp h
  obtain ⟨hhash', houtput', hoffset'⟩ := encodeKey_eq_some.mp h'
  cases e
  cases e'
  rw [Event.mk.injEq]
  exact ⟨hhash.symm.trans hhash', houtput.symm.trans houtput', hoffset.symm.trans hoffset'⟩

theorem writable_indexAll {w : World} {es : List SignedTx} :
    Writable (indexAll P w es) ↔ Writable w := by
  induction es generalizing w with
  | nil => rfl
  | cons e es ih => rw [indexAll_cons, ih, writable_index]

theorem indexAll_mockHeaders (w : World) (es : List SignedTx) :
    (indexAll P w es).mockHeaders = w.mockHeaders := by
  induction es generalizing w with
  | nil => rfl
  | cons e es ih =>
    rw [indexAll_cons, ih]
    rfl

/-- What makes a batch honest is not written by batches. -/
theorem HonestBatch.indexAll {w : World} {batch : List TxManyInput}
    (h : HonestBatch P env principal w batch) (es : List SignedTx) :
    HonestBatch P env principal (indexAll P w es) batch := by
  obtain ⟨⟨c, henough, hhonest, hdistinct⟩, hlength⟩ := h
  refine ⟨⟨c, ?_, fun i hi => ⟨?_, (hhonest i hi).2⟩, hdistinct⟩, hlength⟩
  · rwa [World.indexAll_requiredValidators]
  · obtain ⟨hthreshold, tx, block, proof, htx, hblock, hproof, hmined, hpacks⟩ := (hhonest i hi).1
    refine ⟨hthreshold, tx, block, proof, htx, hblock, hproof, ?_, ?_⟩
    · rwa [indexAll_mockHeaders]
    · rwa [World.indexAll_validators]

/-- **A batch is taken, and leaves the chain ready for the rest.** -/
theorem Ready.next {es : List SignedTx} {w : World} {batch : List TxManyInput}
    {rest : List (List TxManyInput)}
    (h : Ready P env principal relayer es w (batch :: rest)) :
    ∃ txMany, encodeTxMany principal batch = some txMany ∧
      World.answer P w ⟨env, relayer, .indexTxMany txMany⟩ = .ok (.bool true) ∧
      Ready P env principal relayer (es ++ txMany.elements)
        ((World.deployment P).next w ⟨env, relayer, .indexTxMany txMany⟩) rest := by
  have hbatch : HonestBatch P env principal w batch := h.honest batch List.mem_cons_self
  have hflatten : (batch :: rest).flatten = batch ++ rest.flatten := List.flatten_cons
  have htxs : txsOf (batch :: rest).flatten = txsOf batch ++ txsOf rest.flatten := by
    rw [hflatten]
    exact List.filterMap_append
  have hfree := h.free
  rw [htxs] at hfree
  have hsub : txsOf batch ++ es.map SignedTx.tx ⊆
      txsOf batch ++ txsOf rest.flatten ++ es.map SignedTx.tx := by
    intro tx htx
    rcases List.mem_append.mp htx with hmine | hold
    · exact List.mem_append_left _ (List.mem_append_left _ hmine)
    · exact List.mem_append_right _ hold
  obtain ⟨txMany, hencode, hok⟩ := hbatch.accepted h.ten h.unpaused h.approved h.writable h.counted
    (fun tx htx tx' htx' => hfree tx (hsub (List.mem_append_left _ htx)) tx' (hsub htx'))
    (fun i hi => h.fresh i (by rw [hflatten]; exact List.mem_append_left _ hi))
  have hanswer : World.answer P w ⟨env, relayer, .indexTxMany txMany⟩ = .ok (.bool true) :=
    congrArg Prod.fst (World.answering_eq_ok.mpr ⟨true, Prod.ext hok rfl, rfl⟩)
  refine ⟨txMany, hencode, hanswer, ?_⟩
  -- the elements of the batch are the inputs
  have helements := encodeTxMany_eq_some.mp hencode
  obtain ⟨b, hmany, -⟩ := World.answering_eq_ok.mp (World.exec_eq P hanswer)
  obtain ⟨-, -, -, -, hnext⟩ := (indexTxMany_eq_ok P env).mp hmany
  have hcounted := h.counted.next ⟨env, relayer, .indexTxMany txMany⟩
  have hlog : (World.deployment P).log w ⟨env, relayer, .indexTxMany txMany⟩ = txMany.elements := by
    show World.accepted P w ⟨env, relayer, .indexTxMany txMany⟩ = _
    unfold World.accepted
    rw [hanswer]
  rw [hlog] at hcounted
  rw [hnext] at hcounted ⊢
  have hoft : ∀ e ∈ txMany.elements, ∃ i ∈ batch, i.tx.encode = some e.tx := by
    intro e he
    obtain ⟨i, hi, hie⟩ := exists_of_forall₂ helements he
    exact ⟨i, hi, (TxManyInput.encode_eq_some.mp hie).1⟩
  refine ⟨?_, ?_, ?_, ?_, hcounted, ?_, ?_, ?_, ?_⟩
  · obtain ⟨validators, hlength, hvalidators⟩ := h.ten
    refine ⟨validators, hlength, ?_⟩
    rwa [World.indexAll_validators]
  · rw [indexAll_isPaused]
    exact h.unpaused
  · rw [World.indexAll_approvedRelayers]
    exact h.approved
  · exact writable_indexAll.mpr h.writable
  · exact fun batch' hbatch' => (h.honest batch' (List.mem_cons_of_mem batch hbatch')).indexAll _
  · have hdistinct := h.distinct
    rw [hflatten, List.map_append] at hdistinct
    exact (List.nodup_append.mp hdistinct).2.1
  · intro i hi hindexed
    obtain ⟨key, hkey, hrecord⟩ := isIndexed_iff.mp hindexed
    rcases (World.isSome_indexed_indexAll P).mp hrecord with ⟨e, he, rfl⟩ | hold
    · -- the event would be of the batch
      obtain ⟨j, hj, hje⟩ := hoft e he
      have hsame : TxManyInput.event i = TxManyInput.event j :=
        encodeKey_inj hkey (TxArgument.encodeKey_of_encode hje)
      have hdistinct := h.distinct
      rw [hflatten, List.map_append, List.nodup_append] at hdistinct
      exact hdistinct.2.2 _ (List.mem_map_of_mem hj) _ (List.mem_map_of_mem hi) hsame.symm
    · refine h.fresh i ?_ (isIndexed_iff.mpr ⟨key, hkey, hold⟩)
      rw [hflatten]
      exact List.mem_append_right _ hi
  · have hmem : ∀ tx ∈ txsOf rest.flatten ++ (es ++ txMany.elements).map SignedTx.tx,
        tx ∈ txsOf batch ++ txsOf rest.flatten ++ es.map SignedTx.tx := by
      intro tx htx
      rw [List.map_append] at htx
      rcases List.mem_append.mp htx with hrest | htx
      · exact List.mem_append_left _ (List.mem_append_right _ hrest)
      · rcases List.mem_append.mp htx with hold | hnew
        · exact List.mem_append_right _ hold
        · obtain ⟨e, he, rfl⟩ := List.mem_map.mp hnew
          obtain ⟨i, hi, hie⟩ := hoft e he
          have hmem : e.tx ∈ txsOf batch := List.mem_filterMap.mpr ⟨i, hi, hie⟩
          exact List.mem_append_left _ (List.mem_append_left _ hmem)
    exact fun tx htx tx' htx' => hfree tx (hmem tx htx) tx' (hmem tx' htx')

end Ready

/-! ## What a broadcast stores -/

section Upsert
variable {rows : List SubmittedRow} {params : List SubmittedParams}

theorem exists_upsertSubmittedRow {tx : SubmittedParams} (hby : tx.submittedBy ≠ none)
    (hnew : tx.event ∉ rows.map SubmittedRow.event) :
    ∃ rows', upsertSubmittedRow rows tx = some rows' := by
  have hnone : rows.filter (fun row => row.event = tx.event) = [] := by
    rw [List.filter_eq_nil_iff]
    intro row hrow heq
    exact hnew (List.mem_map.mpr ⟨row, hrow, of_decide_eq_true heq⟩)
  obtain ⟨submittedBy, hsubmittedBy⟩ := Option.ne_none_iff_exists'.mp hby
  unfold upsertSubmittedRow
  rw [hnone]
  dsimp only
  rw [hsubmittedBy]
  exact ⟨_, rfl⟩

/-- What is new is stored. -/
theorem exists_upsertSubmittedTx {db : Database} (hby : ∀ tx ∈ params, tx.submittedBy ≠ none)
    (hdistinct : (params.map SubmittedParams.event).Nodup)
    (hnew : ∀ tx ∈ params, tx.event ∉ db.submittedTx.map SubmittedRow.event) :
    ∃ db', upsertSubmittedTx params db = some db' := by
  have hrows : ∀ rows : List SubmittedRow,
      (∀ tx ∈ params, tx.event ∉ rows.map SubmittedRow.event) →
        ∃ rows', params.foldlM upsertSubmittedRow rows = some rows' := by
    clear hnew
    induction params with
    | nil => exact fun rows _ => ⟨rows, rfl⟩
    | cons tx params ih =>
        intro rows hnew
        obtain ⟨hfirst, hrest⟩ := List.forall_mem_cons.mp hby
        obtain ⟨hnewFirst, hnewRest⟩ := List.forall_mem_cons.mp hnew
        rw [List.map_cons, List.nodup_cons] at hdistinct
        obtain ⟨rows', hrows'⟩ := exists_upsertSubmittedRow hfirst hnewFirst
        rw [List.foldlM_cons, hrows']
        refine ih hrest hdistinct.2 rows' fun tx' htx' hmem => ?_
        rcases upsertSubmittedRow_events hrows' hmem with hold | heq
        · exact hnewRest tx' htx' hold
        · exact hdistinct.1 (heq ▸ List.mem_map_of_mem htx')
  obtain ⟨rows', hrows'⟩ := hrows db.submittedTx hnew
  exact ⟨{ db with submittedTx := rows' }, Option.map_eq_some_iff.mpr ⟨rows', hrows', rfl⟩⟩

theorem submittedParams_events (account : Account) (nonce : Nat) (txid : Option Bytes)
    (error : Option Text) (batch : List TxManyInput) :
    (submittedParams account nonce txid error batch).map SubmittedParams.event =
      batch.map TxManyInput.event := by
  rw [submittedParams, List.map_map]
  rfl

end Upsert

/-! ## A turn of the loop -/

namespace Relaying
variable {ι : Type} [DecidableEq ι] {P : Primitives} {lib : BitcoinLib}
  {principal : Text → Option Principal} {account : ι → Account} {s : Relaying ι} {i : ι}

/-- A batch is broadcast and executed, and the loop reads the nonce. -/
def turn (i : ι) (env : Env) (txid : Nat → Bytes) (nonce : Nat) : List (Action ι) :=
  [.broadcast i (.accepted (txid nonce)), .confirm i env, .readNonce i (nonce + 1)]

def turns (i : ι) (env : Env) (txid : Nat → Bytes) : Nat → Nat → List (Action ι)
  | _, 0 => []
  | nonce, k + 1 => turn i env txid nonce ++ turns i env txid (nonce + 1) k

theorem next_broadcast {batch : List TxManyInput} {rest : List (List TxManyInput)} {nonce : Nat}
    (hround : s.round i =
      .processing ⟨batch :: rest, nonce, nonce, (account i).maxTxPerBlock⟩)
    (hnonce : s.accountNonce i = nonce) {txid : Bytes} {db : Database}
    (hstored : upsertSubmittedTx (submittedParams (account i) nonce (some txid) none batch) s.db =
      some db) :
    s.next P lib principal account (.broadcast i (.accepted txid)) =
      { s.accept i nonce batch with db := db }.setRound i
        (.processing ⟨rest, nonce + 1, nonce, (account i).maxTxPerBlock⟩) := by
  have hgoes : ¬ Session.Waits ⟨batch :: rest, nonce, nonce, (account i).maxTxPerBlock⟩ := by
    show ¬ ((nonce : Int) + ((account i).maxTxPerBlock : Int) < (nonce : Int))
    omega
  dsimp only [Relaying.next]
  rw [hround]
  dsimp only
  rw [if_neg hgoes]
  unfold Relaying.broadcast
  dsimp only
  rw [if_pos (Nat.le_of_eq hnonce)]
  unfold Relaying.record
  have haccept : (s.accept i nonce batch).db = s.db := rfl
  rw [haccept, hstored]

theorem next_confirm {nonce : Nat} {batch : List TxManyInput} {env : Env} {txMany : TxMany}
    (hb : lookup Broadcast.key s.mempool (i, s.accountNonce i) = some ⟨i, nonce, batch⟩)
    (hencode : encodeTxMany principal batch = some txMany)
    (hanswer : World.answer P s.world ⟨env, (account i).principal, .indexTxMany txMany⟩ =
      .ok (.bool true)) :
    s.next P lib principal account (.confirm i env) =
      { s with
        mempool := s.mempool.filter fun b => b.key ≠ (i, nonce)
        accountNonce := Function.update s.accountNonce i (nonce + 1)
        world := (World.deployment P).next s.world
          ⟨env, (account i).principal, .indexTxMany txMany⟩ } := by
  dsimp only [Relaying.next]
  rw [hb]
  dsimp only [Relaying.confirm]
  rw [hencode]
  dsimp only
  rw [hanswer]
  rfl

theorem lookup_accept (nonce : Nat) (batch : List TxManyInput) :
    lookup Broadcast.key (s.accept i nonce batch).mempool (i, nonce) =
      some ⟨i, nonce, batch⟩ := by
  show lookup Broadcast.key ((s.drop i nonce).mempool ++ [_]) _ = _
  have hnone : lookup Broadcast.key (s.drop i nonce).mempool (i, nonce) = none := by
    rw [← not_stored_iff, stored_iff]
    rintro ⟨b, hb, hkey⟩
    exact of_decide_eq_true (List.mem_filter.mp hb).2 hkey
  rw [lookup_append, hnone, Option.none_or, lookup_cons]
  exact if_pos rfl

variable (P principal account i) in
/-- The loop before a turn: the account has executed all that the loop has sent, and the
chain and the tables would take what is left. -/
structure Turn (env : Env) (s : Relaying ι) (es : List SignedTx)
    (batches : List (List TxManyInput)) (nonce : Nat) : Prop where
  round : s.round i = .processing ⟨batches, nonce, nonce, (account i).maxTxPerBlock⟩
  accountNonce : s.accountNonce i = nonce
  ready : Ready P env principal (account i).principal es s.world batches
  unsubmitted : ∀ j ∈ batches.flatten,
    TxManyInput.event j ∉ s.db.submittedTx.map SubmittedRow.event

/-- What some turns have done. -/
structure Progress (s s' : Relaying ι) (inputs : List TxManyInput) : Prop where
  failed : s'.failed = s.failed
  kept : ∀ e, IsIndexed s.world e → IsIndexed s'.world e
  indexed : ∀ j ∈ inputs, IsIndexed s'.world (TxManyInput.event j)

omit [DecidableEq ι] in
theorem Progress.append {s' s'' : Relaying ι} {inputs inputs' : List TxManyInput}
    (h : Progress s s' inputs) (h' : Progress s' s'' inputs') :
    Progress s s'' (inputs ++ inputs') := by
  refine ⟨h'.failed.trans h.failed, fun e he => h'.kept e (h.kept e he), fun j hj => ?_⟩
  rcases List.mem_append.mp hj with hfirst | hlater
  · exact h'.kept _ (h.indexed j hfirst)
  · exact h'.indexed j hlater

variable (lib) in
/-- **A turn puts its batch on the chain**, and the next one can follow. -/
theorem Turn.next {env : Env} {es : List SignedTx} {batch : List TxManyInput}
    {rest : List (List TxManyInput)} {nonce : Nat}
    (h : Turn P principal account i env s es (batch :: rest) nonce) (txid : Nat → Bytes) :
    let s' := (machine P lib principal account).run s (turn i env txid nonce)
    Progress s s' batch ∧ ∃ es', Turn P principal account i env s' es' rest (nonce + 1) := by
  have hflatten : (batch :: rest).flatten = batch ++ rest.flatten := List.flatten_cons
  -- the rows of the batch are new
  have hdistinct := h.ready.distinct
  rw [hflatten, List.map_append, List.nodup_append] at hdistinct
  obtain ⟨hbatch, -, hapart⟩ := hdistinct
  obtain ⟨db, hstored⟩ : ∃ db, upsertSubmittedTx
      (submittedParams (account i) nonce (some (txid nonce)) none batch) s.db = some db := by
    apply exists_upsertSubmittedTx
    · intro tx htx hnone
      obtain ⟨j, -, rfl⟩ := List.mem_map.mp htx
      cases hnone
    · rw [submittedParams_events]
      exact hbatch
    · intro tx htx
      obtain ⟨j, hj, rfl⟩ := List.mem_map.mp htx
      apply h.unsubmitted
      rw [hflatten]
      exact List.mem_append_left _ hj
  have hbroadcast : s.next P lib principal account (.broadcast i (.accepted (txid nonce))) = _ :=
    next_broadcast h.round h.accountNonce hstored
  obtain ⟨txMany, hencode, hanswer, hready⟩ := h.ready.next
  generalize hs₁ : s.next P lib principal account (.broadcast i (.accepted (txid nonce))) = s₁
    at hbroadcast
  have hmempool : lookup Broadcast.key s₁.mempool (i, s₁.accountNonce i) =
      some ⟨i, nonce, batch⟩ := by
    rw [hbroadcast]
    show lookup _ (s.accept i nonce batch).mempool (i, s.accountNonce i) = _
    rw [h.accountNonce]
    exact lookup_accept nonce batch
  have hworld : s₁.world = s.world := by
    rw [hbroadcast]
    rfl
  have hanswer₁ : World.answer P s₁.world ⟨env, (account i).principal, .indexTxMany txMany⟩ =
      .ok (.bool true) := by
    rw [hworld]
    exact hanswer
  have hconfirm : s₁.next P lib principal account (.confirm i env) = _ :=
    next_confirm hmempool hencode hanswer₁
  generalize hs₂ : s₁.next P lib principal account (.confirm i env) = s₂ at hconfirm
  have hround : s₂.round i =
      .processing ⟨rest, nonce + 1, nonce, (account i).maxTxPerBlock⟩ := by
    rw [hconfirm, hbroadcast]
    exact Function.update_self ..
  have hread : s₂.next P lib principal account (.readNonce i (nonce + 1)) =
      s₂.setRound i (.processing ⟨rest, nonce + 1, nonce + 1, (account i).maxTxPerBlock⟩) := by
    dsimp only [Relaying.next]
    rw [hround]
  have hrun : (machine P lib principal account).run s (turn i env txid nonce) =
      s₂.setRound i (.processing ⟨rest, nonce + 1, nonce + 1, (account i).maxTxPerBlock⟩) := by
    rw [← hread, ← hs₂, ← hs₁]
    rfl
  have hnext : s₂.world = (World.deployment P).next s.world
      ⟨env, (account i).principal, .indexTxMany txMany⟩ := by
    rw [hconfirm, hworld]
  intro s'
  have hs' : s' = _ := hrun
  rw [hs']
  refine ⟨⟨?_, fun e he => ?_, fun j hj => ?_⟩, es ++ txMany.elements, ?_, ?_, ?_, ?_⟩
  · show s₂.failed = s.failed
    rw [hconfirm, hbroadcast]
    rfl
  · show IsIndexed s₂.world e
    rw [hnext]
    exact he.next _
  · show IsIndexed s₂.world _
    rw [hnext]
    exact isIndexed_of_answer hencode hanswer hj
  · exact Function.update_self ..
  · show s₂.accountNonce i = nonce + 1
    rw [hconfirm]
    exact Function.update_self ..
  · show Ready P env principal (account i).principal _ s₂.world rest
    rw [hnext]
    exact hready
  · intro j hj hsubmitted
    have hdb : s₂.db = db := by
      rw [hconfirm, hbroadcast]
      rfl
    have hevents : TxManyInput.event j ∈ db.submittedTx.map SubmittedRow.event := by
      rw [← hdb]
      exact hsubmitted
    rcases upsertSubmittedTx_events hstored hevents with hold | hnew
    · refine h.unsubmitted j ?_ hold
      rw [hflatten]
      exact List.mem_append_right _ hj
    · rw [submittedParams_events] at hnew
      exact hapart _ hnew _ (List.mem_map_of_mem hj) rfl

variable (lib) in
/-- All turns of a round.  Induction on the batches, by `Turn.next`. -/
theorem Turn.run {env : Env} {es : List SignedTx} {batches : List (List TxManyInput)} {nonce : Nat}
    (h : Turn P principal account i env s es batches nonce) (txid : Nat → Bytes) :
    let s' := (machine P lib principal account).run s (turns i env txid nonce batches.length)
    Progress s s' batches.flatten ∧
      ∃ es', Turn P principal account i env s' es' [] (nonce + batches.length) := by
  induction batches generalizing s es nonce with
  | nil => exact ⟨⟨rfl, fun _ he => he, fun _ hj => nomatch hj⟩, es, h⟩
  | cons batch rest ih =>
      obtain ⟨hfirst, es', hturn⟩ := h.next lib txid
      obtain ⟨hlater, hlast⟩ := ih hturn
      have hrun : (machine P lib principal account).run s
          (turns i env txid nonce (batch :: rest).length) =
        (machine P lib principal account).run
          ((machine P lib principal account).run s (turn i env txid nonce))
          (turns i env txid (nonce + 1) rest.length) := Machine.run_append ..
      have hnonce : nonce + (batch :: rest).length = nonce + 1 + rest.length := by
        rw [List.length_cons]
        omega
      dsimp only
      rw [hrun, hnonce, List.flatten_cons]
      exact ⟨hfirst.append hlater, hlast⟩

/-! ## The assessments -/

theorem setRound_setRound (r r' : Round) : (s.setRound i r).setRound i r' = s.setRound i r' := by
  unfold setRound
  rw [Function.update_idem]

variable (lib principal account) in
/-- What the assessments keep, one by one, they keep in any order. -/
theorem run_assess (Inv : List PendingTx → Found → Prop) {c : Config}
    (hstep : ∀ todo found n tx, Inv todo found → todo[n]? = some tx → ∃ found',
      found.add tx.row.event (Relayer.assess P c s.world tx) = some found' ∧
        Inv (todo.eraseIdx n) found')
    {todo : List PendingTx} {found : Found} (hinv : Inv todo found) (ns : List Nat) :
    ∃ found', (machine P lib principal account).run (s.setRound i (.assessing c todo found))
        (ns.map (.assess i)) =
          s.setRound i (.assessing c (ns.foldl List.eraseIdx todo) found') ∧
      Inv (ns.foldl List.eraseIdx todo) found' := by
  induction ns generalizing todo found with
  | nil => exact ⟨found, rfl, hinv⟩
  | cons n ns ih =>
      have hround : (s.setRound i (.assessing c todo found)).round i = .assessing c todo found :=
        Function.update_self ..
      rw [List.map_cons, Machine.run_cons, List.foldl_cons]
      cases htx : todo[n]? with
      | none =>
          have hsame : todo.eraseIdx n = todo :=
            List.eraseIdx_of_length_le (List.getElem?_eq_none_iff.mp htx)
          have hnext : (machine P lib principal account).next
              (s.setRound i (.assessing c todo found)) (.assess i n) =
                s.setRound i (.assessing c todo found) := by
            dsimp only [machine, Relaying.next]
            rw [hround]
            dsimp only
            rw [htx]
          rw [hnext, hsame]
          exact ih hinv
      | some tx =>
          obtain ⟨found', hadd, hkept⟩ := hstep todo found n tx hinv htx
          have hnext : (machine P lib principal account).next
              (s.setRound i (.assessing c todo found)) (.assess i n) =
                s.setRound i (.assessing c (todo.eraseIdx n) found') := by
            dsimp only [machine, Relaying.next]
            rw [hround]
            dsimp only
            rw [htx]
            refine (setRound_setRound _ _).trans ?_
            show s.setRound i (.assessed c (todo.eraseIdx n)
              (found.add tx.row.event (Relayer.assess P c s.world tx))) = _
            rw [hadd]
            rfl
          rw [hnext]
          exact ih hkept

/-- What the assessments so far have found, on a chain that stays as it is. -/
structure Assessing (P : Primitives) (env : Env) (principal : Text → Option Principal) (w : World)
    (c : Config) (pending todo : List PendingTx) (found : Found) : Prop where
  honest : HonestPending P env principal w c todo found
  left : todo ⊆ pending
  inputs : ∀ j ∈ found.txManyInputs, ∃ tx ∈ pending, Relayer.assess P c w tx = .input j
  indexedTxs : ∀ e ∈ found.indexedTxs,
    ∃ tx ∈ pending, tx.row.event = e ∧ Relayer.assess P c w tx = .alreadyIndexed
  assessed : ∀ tx ∈ pending, tx ∈ todo ∨
    ∀ j, Relayer.assess P c w tx = .input j → j ∈ found.txManyInputs

variable {env : Env} {w : World} {c : Config} {pending todo : List PendingTx} {found : Found}

omit [DecidableEq ι] in
theorem Assessing.next {n : Nat} {tx : PendingTx} {found' : Found}
    (h : Assessing P env principal w c pending todo found) (htx : todo[n]? = some tx)
    (hadd : found.add tx.row.event (Relayer.assess P c w tx) = some found') :
    Assessing P env principal w c pending (todo.eraseIdx n) found' := by
  have hmem : tx ∈ pending := h.left (List.mem_of_getElem? htx)
  have hleft : todo.eraseIdx n ⊆ pending := fun tx' htx' => h.left (List.mem_of_mem_eraseIdx htx')
  obtain ⟨hlt, hget⟩ := List.getElem?_eq_some_iff.mp htx
  have hperm := List.getElem_cons_eraseIdx_perm hlt
  rw [hget] at hperm
  have hhonest := h.honest.assessed w htx hadd
  -- what was to be assessed is this event, or still is
  have hassessed : ∀ {found' : Found}, (∀ j ∈ found.txManyInputs, j ∈ found'.txManyInputs) →
      (∀ j, Relayer.assess P c w tx = .input j → j ∈ found'.txManyInputs) →
      ∀ tx' ∈ pending, tx' ∈ todo.eraseIdx n ∨
        ∀ j, Relayer.assess P c w tx' = .input j → j ∈ found'.txManyInputs := by
    intro found' hkept hnew tx' htx'
    rcases h.assessed tx' htx' with htodo | hdone
    · rcases List.mem_cons.mp (hperm.mem_iff.mpr htodo) with rfl | hstill
      · exact Or.inr hnew
      · exact Or.inl hstill
    · exact Or.inr fun j hj => hkept j (hdone j hj)
  cases houtcome : Relayer.assess P c w tx with
  | throws =>
      rw [houtcome] at hadd
      cases hadd
  | waits | error text =>
      rw [houtcome] at hadd
      cases hadd
      refine ⟨hhonest, hleft, h.inputs, h.indexedTxs, hassessed (fun _ hj => hj) ?_⟩
      rw [houtcome]
      exact nofun
  | alreadyIndexed =>
      rw [houtcome] at hadd
      cases hadd
      refine ⟨hhonest, hleft, h.inputs, fun e he => ?_, hassessed (fun _ hj => hj) ?_⟩
      · rcases List.mem_append.mp he with hold | hnew
        · exact h.indexedTxs e hold
        · exact ⟨tx, hmem, (List.mem_singleton.mp hnew).symm, houtcome⟩
      · rw [houtcome]
        exact nofun
  | input j =>
      rw [houtcome] at hadd
      cases hadd
      refine ⟨hhonest, hleft, fun j' hj' => ?_, h.indexedTxs,
        hassessed (fun _ hj => List.mem_append_left _ hj) fun j' hj' => ?_⟩
      · rcases List.mem_append.mp hj' with hold | hnew
        · exact h.inputs j' hold
        · rw [List.mem_singleton.mp hnew]
          exact ⟨tx, hmem, houtcome⟩
      · rw [houtcome] at hj'
        cases hj'
        exact List.mem_append_right _ (List.mem_singleton_self j)

/-! ## A round -/

/-- The relayer is restarted, selects and assesses what is pending, and submits it in some
turns; the assessments end in the order `ns`. -/
def calmRound (i : ι) (c : Config) (env : Env) (txid : Nat → Bytes) (nonce : Nat) (ns : List Nat)
    (k : Nat) : List (Action ι) :=
  .abandon i :: .startRound i c :: (ns.map (.assess i) ++ (.setAlreadyIndexed i ::
    .flush i nonce nonce :: (turns i env txid nonce k ++ [.finish i])))

/-- The tables when the loop starts. -/
def marked (account : ι → Account) (s : Relaying ι) (i : ι) (found : Found) : Relaying ι :=
  { s with
    db := setTxsWithError found.txErrors
      (Relayer.setAlreadyIndexed (account i).address found.indexedTxs s.db) }

theorem run_calmRound {txid : Nat → Bytes} {nonce : Nat} {ns : List Nat} (k : Nat)
    (hassess : (machine P lib principal account).run
      (s.setRound i (.assessing c (getPendingSubmitTx P c s.db) .empty)) (ns.map (.assess i)) =
        s.setRound i (.assessing c [] found)) :
    (machine P lib principal account).run s (calmRound i c env txid nonce ns k) =
      ((machine P lib principal account).run ((s.marked account i found).setRound i
        (if found.txManyInputs = [] then .idle
        else .processing ⟨chunk found.txManyInputs kChunkSize, nonce, nonce,
          (account i).maxTxPerBlock⟩)) (turns i env txid nonce k)).next P lib principal account
            (.finish i) := by
  have hround : ∀ (s : Relaying ι) r, (s.setRound i r).round i = r := fun _ _ =>
    Function.update_self ..
  have hstart : (machine P lib principal account).next
      ((machine P lib principal account).next s (.abandon i)) (.startRound i c) =
        s.setRound i (.assessing c (getPendingSubmitTx P c s.db) .empty) := by
    dsimp only [machine, Relaying.next]
    rw [hround]
    exact setRound_setRound _ _
  have hmark : (machine P lib principal account).next (s.setRound i (.assessing c [] found))
      (.setAlreadyIndexed i) = Relaying.setRound
        { s with db := Relayer.setAlreadyIndexed (account i).address found.indexedTxs s.db } i
          (.marking found) := by
    dsimp only [machine, Relaying.next]
    rw [hround]
    exact setRound_setRound (s := { s with
      db := Relayer.setAlreadyIndexed (account i).address found.indexedTxs s.db }) _ _
  have hflush : ∀ s' : Relaying ι, (machine P lib principal account).next
      (s'.setRound i (.marking found)) (.flush i nonce nonce) = Relaying.setRound
        { s' with db := setTxsWithError found.txErrors s'.db } i
        (if found.txManyInputs = [] then .idle
        else .processing ⟨chunk found.txManyInputs kChunkSize, nonce, nonce,
          (account i).maxTxPerBlock⟩) := by
    intro s'
    dsimp only [machine, Relaying.next]
    rw [hround]
    exact setRound_setRound (s := { s' with
      db := setTxsWithError found.txErrors s'.db }) _ _
  unfold calmRound
  rw [Machine.run_cons, Machine.run_cons, hstart, Machine.run_append, hassess, Machine.run_cons,
    Machine.run_cons, hmark, hflush, Machine.run_append, Machine.run_cons]
  rfl

variable (P lib principal account) in
theorem next_finish (h : s.round i = .idle ∨
    ∃ nonce maxTxPerBlock, s.round i = .processing ⟨[], nonce, nonce, maxTxPerBlock⟩) :
    let s' := s.next P lib principal account (.finish i)
    s'.round i = .idle ∧ s'.failed = s.failed ∧ s'.world = s.world := by
  rcases h with hidle | ⟨nonce, maxTxPerBlock, hround⟩
  · dsimp only [Relaying.next]
    rw [hidle]
    exact ⟨hidle, rfl, rfl⟩
  · dsimp only [Relaying.next]
    rw [hround]
    dsimp only
    rw [if_pos ⟨rfl, Nat.le_refl nonce⟩]
    exact ⟨Function.update_self .., rfl, rfl⟩

end Relaying

/-! ## What is agreed on -/

section Agreed
variable {P : Primitives} {env : Env} {principal : Text → Option Principal}
  {accounts : List ValidatorAccount} {w : World} {db : Database} {c : Config} {tx : PendingTx}

/-- The inputs a round would submit, if the chain stayed as it is. -/
def pendingInputs (P : Primitives) (c : Config) (w : World) (db : Database) : List TxManyInput :=
  (getPendingSubmitTx P c db).filterMap fun tx => (assess P c w tx).input?

theorem mem_pendingInputs {j : TxManyInput} (htx : tx ∈ getPendingSubmitTx P c db)
    (hj : assess P c w tx = .input j) : j ∈ pendingInputs P c w db := by
  refine List.mem_filterMap.mpr ⟨tx, htx, ?_⟩
  rw [hj]
  rfl

theorem txsOf_subset {batch batch' : List TxManyInput} (h : batch ⊆ batch') :
    txsOf batch ⊆ txsOf batch' := by
  intro arg harg
  obtain ⟨j, hj, hencode⟩ := List.mem_filterMap.mp harg
  exact List.mem_filterMap.mpr ⟨j, h hj, hencode⟩

theorem mem_of_majority {proofs rest : List ProofRow} {firstProof : ProofRow} {n : Nat}
    (h : getMajorityProofs proofs n = some (firstProof :: rest)) : firstProof ∈ proofs := by
  obtain ⟨hash, hfilter, -, -, -⟩ := getMajorityProofs_eq_some h
  have hmem : firstProof ∈ proofs.filter fun p => p.orderHash = hash := by
    rw [← hfilter]
    exact List.mem_cons_self
  exact (List.mem_filter.mp hmem).1

/-- Of an honest proof the contract can be asked. -/
theorem HonestRows.encodes (h : HonestRows P env principal accounts w db)
    (hids : ∀ p ∈ db.proofs, ∀ row ∈ db.txs, p.id P = row.id P → p.event = row.event)
    (htx : tx ∈ getPendingSubmitTx P c db) {proof : ProofRow} (hproof : proof ∈ tx.proofs) :
    ∃ arg, (txArgument tx.row proof).encode = some arg ∧
      (hashTx P arg).bytes = proof.orderHash ∧ isIndexedTx w tx.row.event ≠ none := by
  obtain ⟨hrow, -, -, -, -, hproofs⟩ := mem_getPendingSubmitTx.mp htx
  rw [hproofs] at hproof
  obtain ⟨hstored, hid⟩ := List.mem_filter.mp hproof
  -- the proof speaks of the event of the row
  have hevent : proof.event = tx.row.event :=
    hids proof hstored tx.row hrow (of_decide_eq_true hid)
  have hargument : txArgument tx.row proof = ProofRow.txArgument proof := by
    unfold txArgument ProofRow.txArgument
    rw [hevent]
  obtain ⟨arg, harg, hhash⟩ := (h.proofs proof hstored).orderHash
  rw [← hargument] at harg
  have hkey : encodeKey tx.row.event.txHash tx.row.event.output tx.row.event.satpoint =
      some arg.key := TxArgument.encodeKey_of_encode harg
  refine ⟨arg, harg, hhash, fun hindexed => ?_⟩
  unfold isIndexedTx at hindexed
  rw [hkey] at hindexed
  dsimp only [Option.bind_eq_bind, Option.bind_some] at hindexed
  split at hindexed
  · cases hindexed
  · cases hindexed

/-- **No assessment of an honest event throws.** -/
theorem HonestRows.assess_ne_throws (h : HonestRows P env principal accounts w db)
    (hids : ∀ p ∈ db.proofs, ∀ row ∈ db.txs, p.id P = row.id P → p.event = row.event)
    (htx : tx ∈ getPendingSubmitTx P c db) : assess P c w tx ≠ .throws := by
  obtain ⟨-, -, hadmits, ⟨hsome, -⟩, -, hproofs⟩ := mem_getPendingSubmitTx.mp htx
  intro hthrows
  rcases (assess_eq_throws_iff hadmits.2.1).mp hthrows with
    hnone | ⟨-, firstProof, rest, hmajority, hnone⟩
  · obtain ⟨proof, hproof⟩ := List.exists_mem_of_ne_nil _ hsome
    obtain ⟨hstored, hcounts⟩ := List.mem_filter.mp hproof
    have hmem : proof ∈ tx.proofs := by
      rw [hproofs]
      exact List.mem_filter.mpr ⟨hstored, (Bool.and_eq_true_iff.mp hcounts).1⟩
    obtain ⟨-, -, -, hasked⟩ := h.encodes hids htx hmem
    exact hasked hnone
  · obtain ⟨arg, harg, -⟩ := h.encodes hids htx (mem_of_majority hmajority)
    rw [hnone] at harg
    cases harg

/-- **What enough validators agree on is submitted, unless it is indexed.** -/
theorem HonestRows.input_of_agreed (h : HonestRows P env principal accounts w db)
    (hids : ∀ p ∈ db.proofs, ∀ row ∈ db.txs, p.id P = row.id P → p.event = row.event)
    (hmin : 1 ≤ c.minimalAgreementCount) (htx : tx ∈ getPendingSubmitTx P c db)
    (hagreed : Agreed c tx) (hnew : ¬ IsIndexed w tx.row.event) :
    ∃ j, TxManyInput.event j = tx.row.event ∧ assess P c w tx = .input j := by
  obtain ⟨-, -, hadmits, -, -, -⟩ := mem_getPendingSubmitTx.mp htx
  obtain ⟨firstProof, rest, hmajority⟩ := exists_majority hmin hagreed
  obtain ⟨arg, harg, hhash, hasked⟩ := h.encodes hids htx (mem_of_majority hmajority)
  have hfresh : isIndexedTx w tx.row.event = some false := by
    cases hindexed : isIndexedTx w tx.row.event with
    | none => exact absurd hindexed hasked
    | some b =>
        cases b with
        | true => exact absurd hindexed hnew
        | false => rfl
  refine ⟨txManyInput tx.row firstProof (firstProof :: rest), rfl, ?_⟩
  rw [assess_of_agreed hadmits.2.1 hfresh hmajority]
  unfold checkServerOrderHash
  rw [harg]
  dsimp only
  rw [if_neg (not_not.mpr hhash)]

end Agreed

namespace Relaying
variable {ι : Type} [DecidableEq ι] {P : Primitives} {lib : BitcoinLib}
  {principal : Text → Option Principal} {account : ι → Account} {s : Relaying ι} {i : ι}
  {env : Env} {w : World} {c : Config} {db : Database} {found : Found}

omit [DecidableEq ι] in
theorem Assessing.fresh {pending todo : List PendingTx}
    (h : Assessing P env principal w c pending todo found) :
    ∀ j ∈ found.txManyInputs, ¬ IsIndexed w (TxManyInput.event j) := by
  intro j hj hindexed
  obtain ⟨tx, -, hinput⟩ := h.inputs j hj
  obtain ⟨-, -, -, -, -, -, hnew, -⟩ := assess_eq_input hinput
  rw [event_of_assess hinput] at hindexed
  have hsome : isIndexedTx w tx.row.event = some true := hindexed
  rw [hnew] at hsome
  cases hsome

omit [DecidableEq ι] in
/-- The chain would take what an assessment has found. -/
theorem Assessing.ready {todo : List PendingTx}
    (h : Assessing P env principal w c (getPendingSubmitTx P c db) todo found)
    {relayer : Principal} {es : List SignedTx} (hten : AtMostTen w)
    (hunpaused : w.oracle.isPaused = false)
    (hrelayer : (w.oracle.approvedRelayers relayer).isSome = true) (hwritable : Writable w)
    (hcounted : World.CountedFor P es w)
    (hfree : ∀ tx ∈ txsOf (pendingInputs P c w db) ++ es.map SignedTx.tx,
      ∀ tx' ∈ txsOf (pendingInputs P c w db) ++ es.map SignedTx.tx,
        hashTx P tx = hashTx P tx' → tx = tx') :
    Ready P env principal relayer es w (chunk found.txManyInputs kChunkSize) := by
  have hflatten : (chunk found.txManyInputs kChunkSize).flatten = found.txManyInputs :=
    flatten_chunk (by decide) _
  have hpending : found.txManyInputs ⊆ pendingInputs P c w db := by
    intro j hj
    obtain ⟨tx, htx, hinput⟩ := h.inputs j hj
    exact mem_pendingInputs htx hinput
  have hmem : txsOf found.txManyInputs ++ es.map SignedTx.tx ⊆
      txsOf (pendingInputs P c w db) ++ es.map SignedTx.tx :=
    List.append_subset.mpr ⟨List.subset_append_of_subset_left _ (txsOf_subset hpending),
      List.subset_append_right _ _⟩
  refine ⟨hten, hunpaused, hrelayer, hwritable, hcounted,
    honestRule.cut ⟨c, h.honest.inputs⟩, ?_, ?_, ?_⟩
  · rw [hflatten]
    exact h.honest.inputs.distinct
  · rw [hflatten]
    exact h.fresh
  · rw [hflatten]
    exact fun tx htx tx' htx' => hfree tx (hmem htx) tx' (hmem htx')

omit [DecidableEq ι] in
/-- Nothing is stored of what is submitted next. -/
theorem Assessing.unsubmitted {todo : List PendingTx}
    (h : Assessing P env principal s.world c (getPendingSubmitTx P c s.db) todo found) :
    ∀ j ∈ found.txManyInputs, TxManyInput.event j ∉
      (s.marked account i found).db.submittedTx.map SubmittedRow.event := by
  intro j hj hsubmitted
  have hevents : (s.marked account i found).db.submittedTx.map SubmittedRow.event =
      s.db.submittedTx.map SubmittedRow.event ++ found.indexedTxs :=
    setAlreadyIndexed_events (account i).address found.indexedTxs
  rw [hevents, List.mem_append] at hsubmitted
  obtain ⟨tx, htx, hinput⟩ := h.inputs j hj
  rcases hsubmitted with hold | hmarked
  · obtain ⟨row, hrow, hevent⟩ := List.mem_map.mp hold
    obtain ⟨-, hnew, -⟩ := mem_getPendingSubmitTx.mp htx
    rw [event_of_assess hinput] at hevent
    exact hnew ⟨row, hrow, congrArg (computeTxsId P) hevent⟩
  · obtain ⟨tx', -, hevent, hindexed⟩ := h.indexedTxs _ hmarked
    have hsome := isIndexed_of_assess hindexed
    rw [hevent] at hsome
    exact h.fresh j hj hsome

variable (lib) in
/-- The loop puts everything that was found on the chain. -/
theorem Assessing.turns
    (h : Assessing P env principal s.world c (getPendingSubmitTx P c s.db) [] found)
    {es : List SignedTx} (hready : Ready P env principal (account i).principal es s.world
      (chunk found.txManyInputs kChunkSize)) (txid : Nat → Bytes) :
    let s' := (machine P lib principal account).run ((s.marked account i found).setRound i
        (if found.txManyInputs = [] then .idle
        else .processing ⟨chunk found.txManyInputs kChunkSize, s.accountNonce i,
          s.accountNonce i, (account i).maxTxPerBlock⟩))
      (Relaying.turns i env txid (s.accountNonce i) (chunk found.txManyInputs kChunkSize).length)
    Progress s s' found.txManyInputs ∧ (s'.round i = .idle ∨
      ∃ nonce maxTxPerBlock, s'.round i = .processing ⟨[], nonce, nonce, maxTxPerBlock⟩) := by
  by_cases hnil : found.txManyInputs = []
  · rw [if_pos hnil, hnil]
    exact ⟨⟨rfl, fun _ he => he, fun _ hj => nomatch hj⟩, Or.inl (Function.update_self ..)⟩
  · have hflatten : (chunk found.txManyInputs kChunkSize).flatten = found.txManyInputs :=
      flatten_chunk (by decide) _
    have hturn : Turn P principal account i env ((s.marked account i found).setRound i
        (.processing ⟨chunk found.txManyInputs kChunkSize, s.accountNonce i, s.accountNonce i,
          (account i).maxTxPerBlock⟩)) es (chunk found.txManyInputs kChunkSize)
        (s.accountNonce i) := by
      refine ⟨Function.update_self .., rfl, hready, ?_⟩
      rw [hflatten]
      exact h.unsubmitted
    obtain ⟨hprogress, es', hlast⟩ := hturn.run lib txid
    rw [hflatten] at hprogress
    rw [if_neg hnil]
    exact ⟨⟨hprogress.failed, hprogress.kept, hprogress.indexed⟩,
      Or.inr ⟨_, _, hlast.round⟩⟩

end Relaying

/-- **Nothing wedges a relayer.**  Whatever the validators, the relayers, the node and the
chain have done, if the posts came from registered validators: a relayer that is restarted
and whose next round nothing disturbs has every pending event with enough agreeing proofs
indexed at its end, whatever the order in which the assessments end; the contract refuses
none of its batches. -/
theorem calm_round_indexes {ι : Type} [DecidableEq ι] (P : Primitives) (lib : BitcoinLib)
    (parseUnits : Text → Nat → Int) (principal : Text → Option Principal)
    (account : ι → Account) (accounts : List ValidatorAccount)
    (hdomain : getDomainHash P = messageDomainMainnet)
    (haccounts : (accounts.map fun account => principal account.address).Nodup)
    {w₀ : World} (hstart : ∀ k, w₀.oracle.txValidatedBy k = none) {accountNonce : ι → Nat}
    {actions : List (Action ι)} {s : Relaying ι}
    (hs : (Relaying.machine P lib principal account).run (Relaying.start w₀ accountNonce) actions =
      s) {env : Env} (hchain : env.chainId = 1)
    (hactions : ∀ a ∈ actions, HonestAction P lib parseUnits env principal accounts s.world a)
    (hten : AtMostTen s.world) (hunpaused : s.world.oracle.isPaused = false)
    (hwritable : Writable s.world) {i : ι}
    (hrelayer : (s.world.oracle.approvedRelayers (account i).principal).isSome = true) {c : Config}
    (henough : s.world.oracle.requiredValidators.val ≤ c.minimalAgreementCount)
    (hmin : 1 ≤ c.minimalAgreementCount)
    (hids : ∀ p ∈ s.db.proofs, ∀ row ∈ s.db.txs, p.id P = row.id P → p.event = row.event)
    (hfree : ClarityBitcoin.CollisionFree P ((txsOf (pendingInputs P c s.world s.db) ++
      ((Relaying.chain P lib principal account).history (Relaying.start w₀ accountNonce)
        actions).map SignedTx.tx).map serializeTx)) (txid : Nat → Bytes) {ns : List Nat}
    (horder : ns.foldl List.eraseIdx (getPendingSubmitTx P c s.db) = []) :
    ∃ k,
      let s' := (Relaying.machine P lib principal account).run s
        (Relaying.calmRound i c env txid (s.accountNonce i) ns k)
      s'.round i = .idle ∧ s'.failed = s.failed ∧
        ∀ tx ∈ getPendingSubmitTx P c s.db, Agreed c tx → IsIndexed s'.world tx.row.event := by
  have hhonest : HonestState P env principal accounts s.world
      ((Relaying.machine P lib principal account).run (Relaying.start w₀ accountNonce) actions) :=
    honestState_run hdomain hchain haccounts w₀ accountNonce hactions
  have hcounted : World.CountedFor P _ _ :=
    countedFor_run principal lib account hstart accountNonce actions
  rw [hs] at hhonest hcounted
  have hpending := hhonest.rows.pending hdomain hchain haccounts henough
  -- the assessments
  obtain ⟨found, hassess, hfound⟩ := Relaying.run_assess lib principal account (s := s) (i := i)
    (Relaying.Assessing P env principal s.world c (getPendingSubmitTx P c s.db))
    (fun _ found _ tx h htx => by
      have hcalm := hhonest.rows.assess_ne_throws hids (h.left (List.mem_of_getElem? htx))
      obtain ⟨found', hadd⟩ := Option.ne_none_iff_exists'.mp
        (mt (add_eq_none_iff found tx.row.event).mp hcalm)
      exact ⟨found', hadd, h.next htx hadd⟩)
    { honest := hpending
      left := List.Subset.refl _
      inputs := fun _ hj => nomatch hj
      indexedTxs := fun _ he => nomatch he
      assessed := fun _ htx => Or.inl htx } ns
  rw [horder] at hassess hfound
  refine ⟨(chunk found.txManyInputs kChunkSize).length, ?_⟩
  dsimp only
  rw [Relaying.run_calmRound _ hassess]
  -- the turns of the loop
  have hready := hfound.ready hten hunpaused hrelayer hwritable hcounted
    fun tx htx tx' htx' hhash => serializeTx_inj (hfree _
      (List.mem_append_left _ (List.mem_map_of_mem htx)) _
      (List.mem_append_left _ (List.mem_map_of_mem htx')) (congrArg Buff.bytes hhash))
  obtain ⟨hprogress, hends⟩ := hfound.turns lib hready txid
  obtain ⟨hidle, hfailed, hworld⟩ := Relaying.next_finish P lib principal account hends
  refine ⟨hidle, hfailed.trans hprogress.failed, fun tx htx hagreed => ?_⟩
  rw [hworld]
  by_cases hindexed : IsIndexed s.world tx.row.event
  · exact hprogress.kept _ hindexed
  · obtain ⟨j, hevent, hj⟩ := hhonest.rows.input_of_agreed hids hmin htx hagreed hindexed
    rw [← hevent]
    rcases hfound.assessed tx htx with htodo | hdone
    · exact nomatch htodo
    · exact hprogress.indexed j (hdone j hj)

end Relayer

/-! ## After a node that could not be reached -/

namespace Sample
open Oracle Relayer Validator Signing World

/-- None of this executes a transaction. -/
theorem idle_givenUp : ∀ a ∈ givenUp, ∀ s : Relaying Unit,
    s.executed principal (fun _ => relayerAccount) a = none := by
  simp [givenUp, upToLoop, Relaying.executed]

theorem world_relayed_givenUp : (relayed givenUp).world = relayWorld ∧
    (Relaying.chain relayPrimitives bitcoinLib principal fun _ => relayerAccount).history
      (Relaying.start relayWorld fun _ => 0) givenUp = [] :=
  Relaying.world_run_of_none idle_givenUp (Relaying.start relayWorld fun _ => 0)

theorem honest_givenUp : ∀ a ∈ givenUp, HonestAction relayPrimitives bitcoinLib
    SignedAmounts.units mainnet principal transferAccounts relayWorld a := by
  intro a ha
  rcases List.mem_append.mp ha with hposted | hlast
  · exact honest_broadcastActions a (List.mem_append_left _ hposted)
  · simp only [List.mem_cons, List.not_mem_nil, or_false] at hlast
    rcases hlast with rfl | rfl
    · trivial
    · trivial

theorem pending_after_givenUp :
    [0].foldl List.eraseIdx (getPendingSubmitTx relayPrimitives relayerConfig
      (relayed givenUp).db) = [] ∧
    pendingInputs relayPrimitives relayerConfig relayWorld (relayed givenUp).db =
      [agreedInput] ∧
    (∀ p ∈ (relayed givenUp).db.proofs, ∀ row ∈ (relayed givenUp).db.txs,
      p.id relayPrimitives = row.id relayPrimitives → p.event = row.event) ∧
    ∃ tx ∈ getPendingSubmitTx relayPrimitives relayerConfig (relayed givenUp).db,
      tx.row.event = bisPost.event ∧
        ∃ hash ∈ tx.proofs.map ProofRow.orderHash,
          relayerConfig.minimalAgreementCount ≤ occurrences tx.proofs hash := by
  decide +kernel

/-- The transfer that was given up gets on the chain. -/
theorem calm_round_recovers : ∃ k, IsIndexed
    ((Relaying.machine relayPrimitives bitcoinLib principal fun _ => relayerAccount).run
      (relayed givenUp) (Relaying.calmRound () relayerConfig mainnet (fun _ => [])
        ((relayed givenUp).accountNonce ()) [0] k)).world bisPost.event := by
  obtain ⟨hworld, hhistory⟩ := world_relayed_givenUp
  obtain ⟨horder, hinputs, hids, tx, htx, hevent, hash, -, hagreed⟩ := pending_after_givenUp
  have hencode : agreedInput.tx.encode = some transfer := TxArgument.encode_eq_some.mpr rfl
  have htxs : txsOf [agreedInput] = [transfer] := List.filterMap_cons_some hencode
  have hfree : ClarityBitcoin.CollisionFree relayPrimitives
      ((txsOf (pendingInputs relayPrimitives relayerConfig (relayed givenUp).world
        (relayed givenUp).db) ++ ((Relaying.chain relayPrimitives bitcoinLib principal
          fun _ => relayerAccount).history (Relaying.start relayWorld fun _ => 0)
            givenUp).map SignedTx.tx).map serializeTx) := by
    rw [hworld, hhistory, hinputs, htxs]
    exact collisionFree_mono collisionFree_transfer (by simp [eventMessages])
  obtain ⟨k, -, -, hindexed⟩ := calm_round_indexes relayPrimitives bitcoinLib
    SignedAmounts.units principal (fun _ => relayerAccount) transferAccounts getDomainHash_relay
    (by decide) (fun _ => rfl) (rfl : _ = relayed givenUp) (rfl : mainnet.chainId = 1)
    (by rw [hworld]; exact honest_givenUp) (by rw [hworld]; exact atMostTen_relayWorld)
    (by rw [hworld]; rfl) (by rw [hworld]; decide +kernel) (i := ()) (by rw [hworld]; rfl)
    (c := relayerConfig) (by rw [hworld]; decide +kernel) (by decide) hids hfree (fun _ => [])
    horder
  exact ⟨k, hevent ▸ hindexed tx htx ⟨hash, hagreed⟩⟩

end Sample
end BitcoinOracle
