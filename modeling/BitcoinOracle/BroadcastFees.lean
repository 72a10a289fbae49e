import BitcoinOracle.Throttling

/-! # The fees of the broadcasts

`estimateFee` puts an estimate between the floor and the cap.  A call pays what was
estimated for it, or what its `feeOverride` says; `RBFIfNeeded` pays what it estimates
for a transaction that the node has had for too long.

Nobody sets a `feeOverride` but the loop itself: with the strategy `replace` it writes
the fee of a refused transaction there, raised by the increment, and that does not go
through `estimateFee` again.

Fees are in micro STX.
-/
namespace BitcoinOracle
open Relayer

namespace NonceLoop

/-! ## Estimates -/

/-- The environment of the fees. -/
structure FeeEnv where
  /-- `STACKS_TX_GAS_FLOOR` -/
  gasFloor : Nat
  /-- `STACKS_TX_GAS_CAP` -/
  gasCap : Nat
  rbfEstimateThreshold : Int
  rbfStages : List Nat
  deriving DecidableEq

namespace FeeEnv
variable (env : FeeEnv)

/-- The floor is checked twice, and the cap never. -/
def capOrFloorFee (fee : Nat) : Except Exception Nat :=
  if 25000000 < env.gasFloor ∨ 25000000 < env.gasFloor then .error (some [])
  else .ok (max (min fee env.gasCap) env.gasFloor)

/-- `estimated` is the answer of the node. -/
def estimateFee (estimated : Except Exception Nat) : Except Exception Nat :=
  estimated.bind env.capOrFloorFee

def range : Set Nat := Set.Icc env.gasFloor env.gasCap

variable {env}

theorem estimateFee_mem (hle : env.gasFloor ≤ env.gasCap) {estimated : Except Exception Nat}
    {fee : Nat} (h : env.estimateFee estimated = .ok fee) : fee ∈ env.range := by
  cases estimated with
  | error e => cases h
  | ok raw =>
      have hcapped : env.capOrFloorFee raw = .ok fee := h
      unfold capOrFloorFee at hcapped
      split at hcapped
      · cases hcapped
      · cases hcapped
        exact ⟨le_max_right .., max_le (min_le_right ..) hle⟩

end FeeEnv

/-! ## `RBFIfNeeded` -/

structure MempoolTransaction where
  nonce : Nat
  isContractCall : Bool
  /-- In seconds. -/
  receiptTime : Nat
  feeRate : Nat
  deriving DecidableEq

/-- What `RBFIfNeeded` is told when it asks. -/
structure RBFView where
  memPoolTxs : Except Exception (List MempoolTransaction)
  /-- In milliseconds. -/
  now : Nat
  estimated : Except Exception Nat
  calculated : Except Exception (Option Nat)

/-- A call that takes the place of a pending one. -/
structure Replacement where
  nonce : Nat
  fee : Nat
  deriving DecidableEq

def rbfDurationInSeconds : Nat := 30 * 60

/-- The new fee of a transaction that pays `fee`, unless it stays. -/
def newFee (env : FeeEnv) (o : Options) (view : RBFView) (fee : Nat) :
    Except Exception (Option Nat) :=
  match o.rbfMode with
  | .off => .ok none
  | .stages => .ok (env.rbfStages.find? fun level => fee < level)
  | .estimate =>
      match env.estimateFee view.estimated with
      | .error e => .error e
      | .ok estimatedFee =>
          if (estimatedFee : Int) - fee < env.rbfEstimateThreshold then .ok none
          else .ok (some estimatedFee)
  | .function =>
      if o.hasCalculateFee = true then view.calculated.map (Option.filter fun new => fee < new)
      else .error (some "calculateRBFFee is not defined but rbfMode is function".toList)

def rbfIfNeeded (env : FeeEnv) (o : Options) (serverNonce : Int) (view : RBFView) :
    Except Exception (Option Replacement) :=
  if o.rbfMode = .off then .ok none
  else
    match view.memPoolTxs with
    | .error e => .error e
    | .ok memPoolTxs =>
        match memPoolTxs.find? fun tx => (tx.nonce : Int) = serverNonce with
        | none => .ok none
        | some tx =>
            if tx.isContractCall = false ∨
                (view.now : Int) - 1000 * tx.receiptTime < 1000 * rbfDurationInSeconds then .ok none
            else (newFee env o view tx.feeRate).map (Option.map (Replacement.mk tx.nonce))

variable {env : FeeEnv} {o : Options}

theorem newFee_mem (hle : env.gasFloor ≤ env.gasCap)
    (hmode : o.rbfMode = .off ∨ o.rbfMode = .estimate) {view : RBFView} {fee new : Nat}
    (h : newFee env o view fee = .ok (some new)) : new ∈ env.range := by
  unfold newFee at h
  rcases hmode with hoff | hestimate
  · rw [hoff] at h
    cases h
  · rw [hestimate] at h
    dsimp only at h
    cases hestimated : env.estimateFee view.estimated with
    | error e =>
        rw [hestimated] at h
        cases h
    | ok estimatedFee =>
        rw [hestimated] at h
        dsimp only at h
        split at h
        · cases h
        · cases h
          exact FeeEnv.estimateFee_mem hle hestimated

theorem rbfIfNeeded_mem (hle : env.gasFloor ≤ env.gasCap)
    (hmode : o.rbfMode = .off ∨ o.rbfMode = .estimate) {serverNonce : Int} {view : RBFView}
    {t : Replacement} (h : rbfIfNeeded env o serverNonce view = .ok (some t)) :
    t.fee ∈ env.range := by
  unfold rbfIfNeeded at h
  split at h
  · cases h
  · cases hpool : view.memPoolTxs with
    | error e => simp [hpool] at h
    | ok memPoolTxs =>
        simp only [hpool] at h
        cases hfind : memPoolTxs.find? fun tx => (tx.nonce : Int) = serverNonce with
        | none => simp [hfind] at h
        | some tx =>
            simp only [hfind] at h
            split at h
            · cases h
            · cases hnew : newFee env o view tx.feeRate with
              | error e => simp [hnew, Except.map] at h
              | ok new =>
                  cases new with
                  | none => simp [hnew, Except.map] at h
                  | some new =>
                      have ht : Replacement.mk tx.nonce new = t := by
                        simpa [hnew, Except.map] using h
                      subst ht
                      exact newFee_mem hle hmode hnew

/-! ## What the loop broadcasts -/

namespace State
variable (o : Options) (s : State)

/-- The transaction that an action sends to the node. -/
def broadcast : Action → Option Sent
  | .attempt attempt =>
      match s.operations with
      | op :: _ =>
          if s.phase = .submitting ∧ ¬ s.Waits then
            match txFee o op attempt with
            | .error _ => none
            | .ok fee =>
                let t : Sent := ⟨op.ref, op.type, s.nonce, op.fee attempt fee⟩
                if s.Possible t attempt.reply then some t else none
          else none
      | [] => none
  | .multicast n reply =>
      match s.sent[n]? with
      | some t => if o.multiCast = true ∧ s.Possible t reply then some t else none
      | none => none
  | _ => none

/-- The exception that makes the loop submit an operation once more. -/
def Conflicts : Option Exception → Prop
  | some (some message) => ¬ Includes message "ContractAlreadyExists".toList ∧
      Includes message "ConflictingNonceInMempool".toList
  | _ => False

instance : DecidablePred Conflicts
  | some (some _) => inferInstanceAs (Decidable (_ ∧ _))
  | some none => isFalse id
  | none => isFalse id

/-- `operation.options = { ...operation.options, feeOverride }` -/
def retried (op : Operation) (fee : Nat) : Operation :=
  { op with feeOverride := some (fee + o.replaceIncrement) }

variable {o s}

theorem operations_catches {op op' : Operation} {rest : List Operation} {txFee : Option Nat}
    {e : Exception} (hhead : s.operations = op :: rest)
    (h : op' ∈ (s.catches o op rest txFee e).operations) :
    op' ∈ s.operations ∨ o.conflictingNonceStrategy = .replace ∧ Conflicts (some e) ∧
      ∃ fee, txFee = some fee ∧ op' = retried o op fee := by
  have hrest : op' ∈ rest → op' ∈ s.operations := fun hmem => by simp [hhead, hmem]
  cases e with
  | none => exact Or.inl h
  | some message =>
      dsimp only [catches] at h
      by_cases hexists : Includes message "ContractAlreadyExists".toList
      · rw [if_pos hexists] at h
        exact Or.inl (hrest h)
      · rw [if_neg hexists] at h
        by_cases hconflict : Includes message "ConflictingNonceInMempool".toList
        · rw [if_pos hconflict] at h
          cases hstrategy : o.conflictingNonceStrategy with
          | increase =>
              rw [hstrategy] at h
              exact Or.inl h
          | replace =>
              rw [hstrategy] at h
              cases txFee with
              | none => exact Or.inl h
              | some fee =>
                  dsimp only at h
                  split at h
                  · rcases List.mem_cons.mp h with hretried | hmem
                    · exact Or.inr ⟨rfl, ⟨hexists, hconflict⟩, fee, rfl, hretried⟩
                    · exact Or.inl (hrest hmem)
                  · exact Or.inl h
        · rw [if_neg hconflict] at h
          split at h
          · exact Or.inl h
          · exact Or.inl (hrest h)

theorem sent_catches (op : Operation) (rest : List Operation) (txFee : Option Nat)
    (e : Exception) : (s.catches o op rest txFee e).sent = s.sent := by
  obtain ⟨_, _, _, _, _, hframe⟩ := catches_frame (o := o) (s := s) op rest txFee e
  rw [hframe]

theorem mem_sent_remember {t t' : Sent} {reply : NodeReply}
    (h : t' ∈ (s.remember t reply).sent) : t' ∈ s.sent ∨ t' = t := by
  unfold remember at h
  split at h
  · cases reply with
    | accepted => simpa using h
    | rejected reason => simpa using h
    | exception reached e => exact Or.inl h
  · exact Or.inl h

/-- What an attempt that reaches the node does to the operations and to the calls that may
be sent again. -/
theorem submit_cases {op : Operation} {rest : List Operation} (attempt : Attempt)
    (hhead : s.operations = op :: rest) (hsubmits : s.phase = .submitting ∧ ¬ s.Waits) :
    (∃ fee, txFee o op attempt = .ok fee ∧
      s.broadcast o (.attempt attempt) = some ⟨op.ref, op.type, s.nonce, op.fee attempt fee⟩ ∧
      (∀ op' ∈ (s.submit o op rest attempt).operations, op' ∈ s.operations ∨
        o.conflictingNonceStrategy = .replace ∧ Conflicts (s.raised o (.attempt attempt)) ∧
          op' = retried o op fee) ∧
      ∀ t ∈ (s.submit o op rest attempt).sent, t ∈ s.sent ∨
        s.broadcast o (.attempt attempt) = some t) ∨
    s.broadcast o (.attempt attempt) = none ∧
      (∀ op' ∈ (s.submit o op rest attempt).operations, op' ∈ s.operations) ∧
      (s.submit o op rest attempt).sent = s.sent := by
  dsimp only [broadcast, raised, submit]
  rw [hhead]
  dsimp only
  rw [if_pos hsubmits, if_pos hsubmits]
  cases hfee : txFee o op attempt with
  | error e =>
      refine Or.inr ⟨rfl, fun op' hop' => ?_, sent_catches op rest none e⟩
      rw [← hhead]
      rcases operations_catches hhead hop' with hmem | ⟨-, -, fee, hnone, -⟩
      · exact hmem
      · cases hnone
  | ok fee =>
      dsimp only
      generalize ht : Sent.mk op.ref op.type s.nonce (op.fee attempt fee) = t
      by_cases hpossible : s.Possible t attempt.reply
      · rw [if_pos hpossible, if_pos hpossible, if_pos hpossible]
        obtain ⟨hremember, -, -⟩ := remember_frame s t attempt.reply
        have hsame : ((s.remember t attempt.reply).receive t attempt.reply).operations =
          op :: rest := (operations_receive ..).trans (hremember.trans hhead)
        have hsent : ∀ t' ∈ ((s.remember t attempt.reply).receive t attempt.reply).sent,
            t' ∈ s.sent ∨ some t = some t' := by
          intro t' ht'
          rw [sent_receive] at ht'
          rcases mem_sent_remember ht' with hold | rfl
          · exact Or.inl hold
          · exact Or.inr rfl
        refine Or.inl ⟨fee, rfl, congrArg some ht.symm, ?_⟩
        cases op.broadcastException attempt with
        | none => exact ⟨fun op' hop' => Or.inl (List.mem_cons_of_mem op hop'), hsent⟩
        | some e =>
            refine ⟨fun op' hop' => ?_, fun t' ht' => ?_⟩
            · rcases operations_catches hsame hop' with
                hmem | ⟨hreplace, hconflicts, fee', hf, hop'⟩
              · rw [hsame] at hmem
                exact Or.inl hmem
              · cases hf
                exact Or.inr ⟨hreplace, hconflicts, hop'⟩
            · rw [sent_catches] at ht'
              exact hsent t' ht'
      · rw [if_neg hpossible, if_neg hpossible]
        refine Or.inr ⟨rfl, fun op' hop' => ?_, rfl⟩
        rw [hhead] at hop'
        exact hop'

theorem broadcast_eq_none {a : Action} (h : ¬ s.Sends o a) : s.broadcast o a = none := by
  cases a with
  | attempt attempt =>
      dsimp only [broadcast]
      cases hhead : s.operations with
      | nil => rfl
      | cons op rest => exact if_neg fun hsubmits => h ⟨by simp [hhead], hsubmits⟩
  | multicast n reply =>
      dsimp only [broadcast]
      cases hsent : s.sent[n]? with
      | none => rfl
      | some t => exact if_neg fun hagain => h ⟨t, hsent, hagain⟩
  | _ => rfl

/-- A conflict raises a fee by the increment, which stays within the cap.  Only `replace`
raises it. -/
def RaisesWithin (cap : Nat) (o : Options) (s : State) (a : Action) : Prop :=
  o.conflictingNonceStrategy = .replace → Conflicts (s.raised o a) →
    ∀ t ∈ s.broadcast o a, t.fee + o.replaceIncrement ≤ cap

instance (cap : Nat) (o : Options) (s : State) (a : Action) : Decidable (s.RaisesWithin cap o a) :=
  inferInstanceAs (Decidable (_ → _ → _))

/-- The operations are calls, and what is fixed of their fees is in the range. -/
structure Priced (env : FeeEnv) (s : State) : Prop where
  calls : ∀ op ∈ s.operations, op.type = .publicCall ∧ ∀ fee ∈ op.feeOverride, fee ∈ env.range
  sent : ∀ t ∈ s.sent, t.fee ∈ env.range

end State

/-- What the node estimates goes through `estimateFee`. -/
def Action.clamp (env : FeeEnv) : Action → Action
  | .attempt answers => .attempt { answers with estimated := env.estimateFee answers.estimated }
  | a => a

namespace State
variable {s : State}

theorem estimated_of_clamp {a : Action} {attempt : Attempt} (h : a.clamp env = .attempt attempt) :
    ∃ estimated, attempt.estimated = env.estimateFee estimated := by
  cases a with
  | attempt answers =>
      cases h
      exact ⟨answers.estimated, rfl⟩
  | _ => cases h

theorem Priced.txFee_mem (h : s.Priced env) (hle : env.gasFloor ≤ env.gasCap) (hfee : o.fee = none)
    (hmode : o.rbfMode = .off ∨ o.rbfMode = .estimate) {op : Operation} (hop : op ∈ s.operations)
    {attempt : Attempt} {estimated : Except Exception Nat}
    (hestimated : attempt.estimated = env.estimateFee estimated) {fee : Nat}
    (htxFee : txFee o op attempt = .ok fee) : fee ∈ env.range := by
  have hfunction : o.rbfMode ≠ .function := by
    rcases hmode with hoff | hestimate
    · simp [hoff]
    · simp [hestimate]
  unfold txFee at htxFee
  cases hset : op.feeOverride with
  | some set =>
      have hsame : set = fee := by simpa [hset] using htxFee
      exact hsame ▸ (h.calls op hop).2 set hset
  | none =>
      refine FeeEnv.estimateFee_mem hle (hestimated.symm.trans ?_)
      simpa [hset, hfee, hfunction] using htxFee

/-- A turn of the loop that raises no fee beyond the cap. -/
theorem Priced.submit (h : s.Priced env) (hle : env.gasFloor ≤ env.gasCap) (hfee : o.fee = none)
    (hmode : o.rbfMode = .off ∨ o.rbfMode = .estimate) {op : Operation} {rest : List Operation}
    {attempt : Attempt} {estimated : Except Exception Nat}
    (hestimated : attempt.estimated = env.estimateFee estimated)
    (hhead : s.operations = op :: rest) (hsubmits : s.phase = .submitting ∧ ¬ s.Waits)
    (hraises : s.RaisesWithin env.gasCap o (.attempt attempt)) :
    (s.submit o op rest attempt).Priced env ∧
      ∀ t ∈ s.broadcast o (.attempt attempt), t.fee ∈ env.range := by
  have hmem : op ∈ s.operations := by simp [hhead]
  rcases submit_cases (o := o) attempt hhead hsubmits with
    ⟨fee, htxFee, hbroadcast, hoperations, hsent⟩ | ⟨hnone, hoperations, hsent⟩
  · have hcall := (h.calls op hmem).1
    have hin : fee ∈ env.range := h.txFee_mem hle hfee hmode hmem hestimated htxFee
    have hpays : ∀ t ∈ s.broadcast o (.attempt attempt), t.fee = fee := by
      intro t ht
      rw [hbroadcast] at ht
      cases ht
      exact if_pos hcall
    refine ⟨⟨fun op' hop' => ?_, fun t ht => ?_⟩, fun t ht => hpays t ht ▸ hin⟩
    · rcases hoperations op' hop' with hold | ⟨hreplace, hconflicts, rfl⟩
      · exact h.calls op' hold
      · refine ⟨hcall, fun fee' hfee' => ?_⟩
        cases hfee'
        -- the only fee that is not estimated
        have hcap := hraises hreplace hconflicts _ hbroadcast
        rw [hpays _ hbroadcast] at hcap
        exact ⟨hin.1.trans (Nat.le_add_right _ _), hcap⟩
    · rcases hsent t ht with hold | hnew
      · exact h.sent t hold
      · exact hpays t hnew ▸ hin
  · refine ⟨⟨fun op' hop' => h.calls op' (hoperations op' hop'), ?_⟩, by simp [hnone]⟩
    rw [hsent]
    exact h.sent

/-- **A step that raises no fee beyond the cap keeps the fees in the range.** -/
theorem Priced.next (h : s.Priced env) (hle : env.gasFloor ≤ env.gasCap) (hfee : o.fee = none)
    (hmode : o.rbfMode = .off ∨ o.rbfMode = .estimate) (a : Action)
    (hraises : s.RaisesWithin env.gasCap o (a.clamp env)) :
    (s.next o (a.clamp env)).Priced env ∧
      ∀ t ∈ s.broadcast o (a.clamp env), t.fee ∈ env.range := by
  rcases next_cases o s (a.clamp env) with ⟨attempt, op, rest, hattempt, hhead, hsubmits, hnext⟩ |
    ⟨n, reply, t, hmulticast, hsent, hagain, hnext⟩ | ⟨hnot, phase, last, mempool, hnext⟩
  · rw [hnext]
    obtain ⟨estimated, hestimated⟩ := estimated_of_clamp hattempt
    rw [hattempt] at hraises ⊢
    exact h.submit hle hfee hmode hestimated hhead hsubmits hraises
  · rw [hnext, hmulticast]
    refine ⟨⟨?_, ?_⟩, fun t' ht' => ?_⟩
    · rw [operations_receive]
      exact h.calls
    · rw [sent_receive]
      exact h.sent
    · have hsame : t = t' := by simpa [broadcast, hsent, hagain] using ht'
      exact hsame ▸ h.sent t (List.mem_of_getElem? hsent)
  · rw [hnext, broadcast_eq_none hnot]
    exact ⟨⟨h.calls, h.sent⟩, by simp⟩

end State

/-! ## The loop with `RBFIfNeeded` -/

structure FeeLoop where
  loop : State
  /-- The server nonce of a call of `RBFIfNeeded` that the loop waits for. -/
  raising : Option Int
  /-- What `RBFIfNeeded` has broadcast, and so may be once more. -/
  raised : List Replacement

inductive FeeAction where
  | loop (a : Action)
  /-- `RBFIfNeeded` runs; the reply and the callback are those of its transaction. -/
  | rbf (view : RBFView) (reply : NodeReply) (callback : Callback)
  /-- With `STACKS_MULTI_CAST`, a replacement is broadcast again some time later. -/
  | multicast (n : Nat) (reply : NodeReply)

namespace State

/-- The server nonce of the call of `RBFIfNeeded` that an action ends with: after a poll
the loop goes on waiting, or an operation will be submitted once more. -/
def rbfAfter (o : Options) (s : State) (a : Action) : Option Int :=
  let s' := s.next o a
  match a with
  | .readNonce answer =>
      if s.phase = .submitting ∧
          (if s'.operations = [] then s'.lastExecutedNonce < s'.nonce else s'.Waits) then
        some answer
      else none
  | .attempt _ =>
      if s'.phase = .submitting ∧ Conflicts (s.raised o a) then some ((s'.nonce : Int) - 1)
      else none
  | _ => none

end State

/-- Goes on while the loop waits for `RBFIfNeeded`. -/
def Action.Outside : Action → Prop
  | .multicast _ _ | .node _ | .throw => True
  | _ => False

instance : DecidablePred Action.Outside
  | .readNonce _ | .attempt _ | .settle => isFalse id
  | .multicast _ _ | .node _ | .throw => isTrue trivial

namespace FeeLoop
variable (env : FeeEnv) (o : Options) (s : FeeLoop)

def start (o : Options) (operations : List Operation) (startingNonce lastExecutedNonce : Nat)
    (mempool : Nat → Option Nat) : FeeLoop where
  loop := NonceLoop.start o operations startingNonce lastExecutedNonce mempool
  raising := none
  raised := []

def Takes (a : Action) : Prop := s.raising = none ∨ a.Outside

instance (a : Action) : Decidable (s.Takes a) := inferInstanceAs (Decidable (_ ∨ _))

/-- What the present call of `RBFIfNeeded` broadcasts. -/
def replacement (view : RBFView) : Except Exception (Option Replacement) :=
  match s.raising with
  | some serverNonce =>
      if s.loop.phase = .submitting then rbfIfNeeded env o serverNonce view else .ok none
  | none => .ok none

/-- The node may have the replacement in the place of the transaction. -/
def receive (t : Replacement) (reply : NodeReply) : FeeLoop :=
  if reply.Reached then
    { s with loop :=
        { s.loop with mempool := Function.update s.loop.mempool t.nonce (some t.fee) } }
  else s

/-- `publicCall`, for a replacement. -/
def replace (t : Replacement) (reply : NodeReply) (callback : Callback) : FeeLoop :=
  let s := s.receive t reply
  { s with
    loop := if reply = .accepted ∧ callback = .returns then s.loop
      else { s.loop with phase := .thrown }
    raising := none
    raised := match reply with
      | .exception _ _ => s.raised
      | _ => s.raised ++ [t] }

def next : FeeAction → FeeLoop
  | .loop a =>
      if s.Takes a then
        { s with
          loop := s.loop.next o (a.clamp env)
          raising := s.raising.or (s.loop.rbfAfter o (a.clamp env)) }
      else s
  | .rbf view reply callback =>
      match s.replacement env o view with
      | .error _ => { s with loop := { s.loop with phase := .thrown }, raising := none }
      | .ok none => { s with raising := none }
      | .ok (some t) => s.replace t reply callback
  | .multicast n reply =>
      match s.raised[n]? with
      | some t => if o.multiCast = true then s.receive t reply else s
      | none => s

/-- The fee an action broadcasts a transaction with. -/
def paid : FeeAction → Option Nat
  | .loop a => if s.Takes a then (s.loop.broadcast o (a.clamp env)).map Sent.fee else none
  | .rbf view _ _ =>
      match s.replacement env o view with
      | .ok (some t) => some t.fee
      | _ => none
  | .multicast n _ => if o.multiCast = true then s.raised[n]?.map Replacement.fee else none

end FeeLoop

/-- A run of the loop, which logs the fees of all broadcasts. -/
def fees (env : FeeEnv) (o : Options) : Machine FeeLoop FeeAction Nat where
  next := FeeLoop.next env o
  log s a := (s.paid env o a).toList

namespace FeeLoop

/-- `State.RaisesWithin`, for a step of this loop. -/
def RaisesWithin (env : FeeEnv) (o : Options) (s : FeeLoop) : FeeAction → Prop
  | .loop a => s.loop.RaisesWithin env.gasCap o (a.clamp env)
  | _ => True

instance (env : FeeEnv) (o : Options) (s : FeeLoop) : DecidablePred (s.RaisesWithin env o)
  | .loop a => inferInstanceAs (Decidable (s.loop.RaisesWithin env.gasCap o (a.clamp env)))
  | .rbf _ _ _ => isTrue trivial
  | .multicast _ _ => isTrue trivial

/-- What is fixed of the fees is in the range, replacements included. -/
structure Bounded (env : FeeEnv) (s : FeeLoop) : Prop where
  loop : s.loop.Priced env
  raised : ∀ t ∈ s.raised, t.fee ∈ env.range

variable {s : FeeLoop}

theorem Bounded.receive (h : s.Bounded env) (t : Replacement) (reply : NodeReply) :
    (s.receive t reply).Bounded env := by
  unfold FeeLoop.receive
  split
  · exact ⟨⟨h.loop.calls, h.loop.sent⟩, h.raised⟩
  · exact h

theorem mem_raised_replace {t t' : Replacement} {reply : NodeReply} {callback : Callback}
    (h : t' ∈ (s.replace t reply callback).raised) :
    t' ∈ (s.receive t reply).raised ∨ t' = t := by
  cases reply with
  | accepted => exact (List.mem_append.mp h).imp_right List.mem_singleton.mp
  | rejected reason => exact (List.mem_append.mp h).imp_right List.mem_singleton.mp
  | exception reached e => exact Or.inl h

theorem Bounded.replace (h : s.Bounded env) {t : Replacement} (ht : t.fee ∈ env.range)
    (reply : NodeReply) (callback : Callback) : (s.replace t reply callback).Bounded env := by
  have hreceive := h.receive t reply
  constructor
  · dsimp only [FeeLoop.replace]
    split
    · exact hreceive.loop
    · exact ⟨hreceive.loop.calls, hreceive.loop.sent⟩
  · intro t' ht'
    rcases mem_raised_replace ht' with hold | rfl
    · exact hreceive.raised t' hold
    · exact ht

theorem replacement_mem (hle : env.gasFloor ≤ env.gasCap)
    (hmode : o.rbfMode = .off ∨ o.rbfMode = .estimate) {view : RBFView} {t : Replacement}
    (h : s.replacement env o view = .ok (some t)) : t.fee ∈ env.range := by
  unfold replacement at h
  split at h
  · split at h
    · exact rbfIfNeeded_mem hle hmode h
    · cases h
  · cases h

/-- **A step that raises no fee beyond the cap pays a fee in the range.** -/
theorem Bounded.next (h : s.Bounded env) (hle : env.gasFloor ≤ env.gasCap) (hfee : o.fee = none)
    (hmode : o.rbfMode = .off ∨ o.rbfMode = .estimate) (a : FeeAction)
    (hraises : s.RaisesWithin env o a) :
    (s.next env o a).Bounded env ∧ ∀ fee ∈ s.paid env o a, fee ∈ env.range := by
  cases a with
  | loop a =>
      obtain ⟨hloop, hpaid⟩ := h.loop.next hle hfee hmode a hraises
      dsimp only [FeeLoop.next, paid]
      by_cases htakes : s.Takes a
      · rw [if_pos htakes, if_pos htakes]
        refine ⟨⟨hloop, h.raised⟩, fun fee hmem => ?_⟩
        obtain ⟨t, ht, rfl⟩ := Option.mem_map.mp hmem
        exact hpaid t ht
      · rw [if_neg htakes, if_neg htakes]
        exact ⟨h, by simp⟩
  | rbf view reply callback =>
      dsimp only [FeeLoop.next, paid]
      cases hreplacement : s.replacement env o view with
      | error e => exact ⟨⟨⟨h.loop.calls, h.loop.sent⟩, h.raised⟩, by simp⟩
      | ok found =>
          cases found with
          | none => exact ⟨⟨h.loop, h.raised⟩, by simp⟩
          | some t =>
              have ht := replacement_mem hle hmode hreplacement
              refine ⟨h.replace ht reply callback, fun fee hmem => ?_⟩
              cases hmem
              exact ht
  | multicast n reply =>
      dsimp only [FeeLoop.next, paid]
      cases hraised : s.raised[n]? with
      | none => exact ⟨h, by simp⟩
      | some t =>
          dsimp only
          split
          · refine ⟨h.receive t reply, fun fee hmem => ?_⟩
            cases hmem
            exact h.raised t (List.mem_of_getElem? hraised)
          · exact ⟨h, by simp⟩

end FeeLoop

/-- **All fees of a run are between the floor and the cap**, first attempts, retries,
replacements and what is broadcast again, if no conflict raises one beyond the cap. -/
theorem fees_in_range (env : FeeEnv) (o : Options) (hle : env.gasFloor ≤ env.gasCap)
    (hfee : o.fee = none) (hmode : o.rbfMode = .off ∨ o.rbfMode = .estimate)
    {operations : List Operation}
    (hcalls : ∀ op ∈ operations, op.type = .publicCall ∧ op.feeOverride = none)
    {startingNonce lastExecutedNonce : Nat} {mempool : Nat → Option Nat}
    {actions : List FeeAction}
    (hraises : (fees env o).Along (fun s a => s.RaisesWithin env o a)
      (FeeLoop.start o operations startingNonce lastExecutedNonce mempool) actions) :
    ∀ fee ∈ (fees env o).history
        (FeeLoop.start o operations startingNonce lastExecutedNonce mempool) actions,
      env.gasFloor ≤ fee ∧ fee ≤ env.gasCap := by
  have hstart :
      (FeeLoop.start o operations startingNonce lastExecutedNonce mempool).Bounded env := by
    refine ⟨⟨fun op hop => ⟨(hcalls op hop).1, ?_⟩, fun t ht => nomatch ht⟩, fun t ht => nomatch ht⟩
    simp [(hcalls op hop).2]
  refine (Machine.history_invariant (h := [])
    (fun log s => (∀ fee ∈ log, fee ∈ env.range) ∧ s.Bounded env) ?_ hraises
    ⟨by simp, hstart⟩).1
  intro log s a hok hinv
  obtain ⟨hbounded, hpaid⟩ := hinv.2.next hle hfee hmode a hok
  refine ⟨fun fee hmem => ?_, hbounded⟩
  rcases List.mem_append.mp hmem with hold | hnew
  · exact hinv.1 fee hold
  · exact hpaid fee (Option.mem_toList.mp hnew)

end NonceLoop

namespace Sample
open NonceLoop

/-- A relayer that estimates its fees. -/
def estimating : Options := { replacing with fee := none }

def feeEnv : FeeEnv where
  gasFloor := 500
  gasCap := 2000000
  rbfEstimateThreshold := 200000
  rbfStages := [80000, 120000, 240000, 480000]

def feesOf (mempool : Nat → Option Nat) (actions : List FeeAction) : List Nat :=
  (fees feeEnv estimating).history (FeeLoop.start estimating [batchCall 0] 7 7 mempool) actions

/-- A call whose fee is estimated. -/
def estimatedCall (estimated : Nat) (reply : NodeReply) : FeeAction :=
  .loop (.attempt ⟨.ok none, .ok estimated, none, reply, .returns⟩)

/-- The node has another transaction, and takes the call once it pays more. -/
def retriedCall (estimated : Nat) : List FeeAction :=
  [estimatedCall estimated (.rejected "ConflictingNonceInMempool".toList),
    .rbf ⟨.ok [], 0, .ok 0, .ok none⟩ .accepted .returns,
    estimatedCall estimated .accepted]

theorem fees_in_range_retried :
    feesOf (fun _ => some 30000) (retriedCall 30000) = [30000, 80000] ∧
      ∀ fee ∈ feesOf (fun _ => some 30000) (retriedCall 30000),
        feeEnv.gasFloor ≤ fee ∧ fee ≤ feeEnv.gasCap := by
  have hraises : (fees feeEnv estimating).Along (fun s a => s.RaisesWithin feeEnv estimating a)
      (FeeLoop.start estimating [batchCall 0] 7 7 fun _ => some 30000) (retriedCall 30000) :=
    ⟨by decide +kernel, trivial, by decide +kernel, trivial⟩
  exact ⟨by decide +kernel,
    fees_in_range feeEnv estimating (by decide) rfl (Or.inl rfl) (by decide) hraises⟩

/-- **The estimate is the cap already, and the retry pays more than that.** -/
theorem retry_beyond_cap : feeEnv.gasFloor ≤ feeEnv.gasCap ∧ estimating.fee = none ∧
    estimating.rbfMode = .off ∧ (batchCall 0).feeOverride = none ∧
    feesOf (fun _ => some 2000000) (retriedCall 2000000) = [2000000, 2050000] ∧
    ¬ ∀ fee ∈ feesOf (fun _ => some 2000000) (retriedCall 2000000),
      feeEnv.gasFloor ≤ fee ∧ fee ≤ feeEnv.gasCap := by
  decide +kernel

end Sample
end BitcoinOracle
