import BitcoinOracle.RelayerMachine

/-! # The loop over the nonces

`processOperations` gives its operations consecutive nonces and retries some of the
failures.  An attempt takes its answers from outside: what fees are estimated, what
the node replies and what the callbacks do.  The node keeps one transaction for a
nonce, and takes another one in its place if that pays more; in between it may confirm
or drop what it likes.

A nonce carries one operation, unless the loop drops an operation the node has
(`one_operation_per_nonce`).  The loop shifts its operations off the list that it
afterwards settles, which is then empty (`settlement_reported_iff`).
-/
namespace BitcoinOracle
open Relayer

namespace NonceLoop

/-! ## Operations -/

inductive OperationType where
  | publicCall
  | deploy
  | transfer
  deriving DecidableEq

structure Operation where
  /-- Which object of the list it is. -/
  ref : Nat
  type : OperationType
  /-- The contract and the function of a call. -/
  name : Text
  feeOverride : Option Nat
  hasOnBroadcast : Bool
  hasOnSettled : Bool
  deriving DecidableEq

/-- The options of `processOperations`, and its environment. -/
structure Options where
  fee : Option Nat
  hasCalculateFee : Bool
  conflictingNonceStrategy : ConflictingNonceStrategy
  rbfMode : RBFMode
  /-- `STACKS_CONFLICTING_NONCE_REPLACE_INCREMENT_STX`, in micro STX. -/
  replaceIncrement : Nat
  multiCast : Bool
  maxTxPerBlock : Nat
  deriving DecidableEq

/-- An exception: its message, if it has one. -/
abbrev Exception := Option Text

inductive NodeReply where
  | accepted
  | rejected (reason : Text)
  /-- `broadcastTransaction` throws, whether or not the node has the transaction. -/
  | exception (reached : Bool) (e : Exception)
  deriving DecidableEq

inductive Callback where
  | returns
  /-- The promise is rejected. -/
  | rejects (e : Exception)
  | throws (e : Exception)
  deriving DecidableEq

/-- What happens from outside while an operation is submitted. -/
structure Attempt where
  calculated : Except Exception (Option Nat)
  estimated : Except Exception Nat
  /-- Deployments and transfers estimate their fee once more. -/
  reestimated : Option Nat
  reply : NodeReply
  callback : Callback

def NodeReply.Reached : NodeReply → Prop
  | .accepted => True
  | .rejected _ => False
  | .exception reached _ => reached = true

instance : DecidablePred NodeReply.Reached
  | .accepted => isTrue trivial
  | .rejected _ => isFalse id
  | .exception _ _ => inferInstanceAs (Decidable (_ = _))

def txFee (o : Options) (op : Operation) (attempt : Attempt) : Except Exception Nat :=
  match op.feeOverride.or o.fee with
  | some fee => .ok fee
  | none =>
      if op.type = .publicCall ∧ o.rbfMode = .function then
        if o.hasCalculateFee = true then
          match attempt.calculated with
          | .ok (some fee) => .ok fee
          | .ok none => .error (some ("calculateFee returned null for ".toList ++ op.name))
          | .error e => .error e
        else .error (some "calculateFee is not defined for function mode".toList)
      else attempt.estimated

/-- The fee of the transaction itself. -/
def Operation.fee (op : Operation) (attempt : Attempt) (fee : Nat) : Nat :=
  if op.type = .publicCall then fee else attempt.reestimated.getD fee

/-- What `onBroadcast` throws into the loop: a rejection only in a call, since the other
operations catch it. -/
def Operation.callbackException (op : Operation) (attempt : Attempt) : Option Exception :=
  if op.hasOnBroadcast = true then
    match attempt.callback with
    | .returns => none
    | .rejects e => if op.type = .publicCall then some e else none
    | .throws e => some e
  else none

/-- What is thrown from the broadcast on.  A call runs its callback before it looks at
the result. -/
def Operation.broadcastException (op : Operation) (attempt : Attempt) : Option Exception :=
  match attempt.reply with
  | .exception _ e => some e
  | .accepted => op.callbackException attempt
  | .rejected reason =>
      if op.type = .publicCall then some ((op.callbackException attempt).getD (some reason))
      else some (some reason)

/-- Everything an attempt can throw. -/
def exception (o : Options) (op : Operation) (attempt : Attempt) : Option Exception :=
  match txFee o op attempt with
  | .error e => some e
  | .ok _ => op.broadcastException attempt

/-- The catch block goes on to the next operation, with the same nonce. -/
def DropsOn (message : Text) : Prop :=
  Includes message "ContractAlreadyExists".toList ∨
    ¬ Includes message "ConflictingNonceInMempool".toList ∧ message ≠ "TooMuchChaining".toList

instance (message : Text) : Decidable (DropsOn message) := inferInstanceAs (Decidable (_ ∨ _ ∧ _))

/-! ## The state of a run -/

/-- A transaction of an operation. -/
structure Sent where
  ref : Nat
  type : OperationType
  nonce : Nat
  fee : Nat
  deriving DecidableEq

inductive Phase where
  | submitting
  | finished
  /-- An exception has ended the run. -/
  | thrown
  deriving DecidableEq

structure State where
  phase : Phase
  operations : List Operation
  nonce : Nat
  lastExecutedNonce : Nat
  currentMaxTxPerBlock : Int
  /-- The fees of what the node has of the account. -/
  mempool : Nat → Option Nat
  /-- The calls that have been broadcast, and so may be once more. -/
  sent : List Sent
  /-- The calls of operations that have not been dropped. -/
  live : List Sent
  /-- What the node has accepted of the operations. -/
  accepted : List Sent
  /-- The operations `onSettled` has been called for. -/
  settled : List Nat

def start (o : Options) (operations : List Operation) (startingNonce lastExecutedNonce : Nat)
    (mempool : Nat → Option Nat) : State where
  phase := .submitting
  operations := operations
  nonce := startingNonce
  lastExecutedNonce := lastExecutedNonce
  currentMaxTxPerBlock := o.maxTxPerBlock
  mempool := mempool
  sent := []
  live := []
  accepted := []
  settled := []

inductive Action where
  | readNonce (answer : Nat)
  | attempt (attempt : Attempt)
  /-- With `STACKS_MULTI_CAST`, a call is broadcast again some time later. -/
  | multicast (n : Nat) (reply : NodeReply)
  /-- The node confirms and drops, and others use the account. -/
  | node (mempool : Nat → Option Nat)
  /-- An exception while a nonce is read or a fee is raised. -/
  | throw
  | settle

namespace State
variable (o : Options) (s : State)

/-- What the node can reply to a transaction. -/
def Possible (t : Sent) : NodeReply → Prop
  | .accepted => ∀ fee ∈ s.mempool t.nonce, fee < t.fee
  | .rejected reason =>
      reason = "ConflictingNonceInMempool".toList ↔ ∃ fee ∈ s.mempool t.nonce, t.fee ≤ fee
  | .exception reached _ => reached = true → ∀ fee ∈ s.mempool t.nonce, fee < t.fee

instance (t : Sent) : DecidablePred (s.Possible t)
  | .accepted => inferInstanceAs (Decidable (∀ fee ∈ s.mempool t.nonce, fee < t.fee))
  | .rejected reason => inferInstanceAs (Decidable
      (reason = "ConflictingNonceInMempool".toList ↔ ∃ fee ∈ s.mempool t.nonce, t.fee ≤ fee))
  | .exception reached _ => inferInstanceAs (Decidable
      (reached = true → ∀ fee ∈ s.mempool t.nonce, fee < t.fee))

def accept (t : Sent) : State :=
  { s with
    mempool := Function.update s.mempool t.nonce (some t.fee)
    accepted := s.accepted ++ [t] }

/-- The node has the transaction, or it does not. -/
def receive (t : Sent) (reply : NodeReply) : State :=
  if reply.Reached then s.accept t else s

/-- A call is remembered; it is sent again unless `broadcastTransaction` throws. -/
def remember (t : Sent) (reply : NodeReply) : State :=
  if t.type = .publicCall then
    { s with
      live := s.live ++ [t]
      sent := match reply with
        | .exception _ _ => s.sent
        | _ => s.sent ++ [t] }
  else s

def drop (rest : List Operation) : State :=
  { s with
    operations := rest
    live := s.live.filter fun t => t.nonce ≠ s.nonce }

/-- The catch block.  `txFee` is what it was set to before the exception. -/
def catches (op : Operation) (rest : List Operation) (txFee : Option Nat) : Exception → State
  | none => { s with phase := .thrown }
  | some message =>
      if Includes message "ContractAlreadyExists".toList then s.drop rest
      else if Includes message "ConflictingNonceInMempool".toList then
        match o.conflictingNonceStrategy with
        | .increase => { s with nonce := s.nonce + 1 }
        | .replace =>
            match txFee with
            | some fee =>
                if (o.rbfMode = .off ∨ o.rbfMode = .estimate) ∧ fee ≠ 0 then
                  { s with operations :=
                      { op with feeOverride := some (fee + o.replaceIncrement) } :: rest }
                else { s with phase := .thrown }
            | none => { s with phase := .thrown }
      else if message = "TooMuchChaining".toList then
        { s with currentMaxTxPerBlock := s.currentMaxTxPerBlock - 1 }
      else s.drop rest

/-- One turn of the loop, with `op` the operation shifted off. -/
def submit (op : Operation) (rest : List Operation) (attempt : Attempt) : State :=
  match txFee o op attempt with
  | .error e => s.catches o op rest none e
  | .ok fee =>
      let t : Sent := ⟨op.ref, op.type, s.nonce, op.fee attempt fee⟩
      if s.Possible t attempt.reply then
        let s := (s.remember t attempt.reply).receive t attempt.reply
        match op.broadcastException attempt with
        | some e => s.catches o op rest (some fee) e
        | none => { s with operations := rest, nonce := s.nonce + 1 }
      else s

/-- The loop waits for the chain before it submits the next operation. -/
def Waits : Prop := s.lastExecutedNonce + s.currentMaxTxPerBlock < s.nonce

instance : Decidable s.Waits := inferInstanceAs (Decidable (_ < _))

/-- An action that is not possible changes nothing. -/
def next : Action → State
  | .readNonce answer =>
      if s.phase = .submitting then { s with lastExecutedNonce := answer } else s
  | .attempt attempt =>
      match s.operations with
      | op :: rest =>
          if s.phase = .submitting ∧ ¬ s.Waits then s.submit o op rest attempt else s
      | [] => s
  | .multicast n reply =>
      match s.sent[n]? with
      | some t => if o.multiCast = true ∧ s.Possible t reply then s.receive t reply else s
      | none => s
  | .node mempool => { s with mempool := mempool }
  | .throw => if s.phase = .submitting then { s with phase := .thrown } else s
  | .settle =>
      if s.phase = .submitting ∧ s.operations = [] ∧ s.nonce ≤ s.lastExecutedNonce then
        { s with
          phase := .finished
          settled := s.settled ++
            (s.operations.filter Operation.hasOnSettled).map Operation.ref }
      else s

end State

/-- A run of the loop. -/
def machine (o : Options) : Machine State Action Unit where
  next := State.next o
  log _ _ := []

/-! ## A nonce carries one operation -/

namespace State
variable (o : Options) (s : State)

/-- The loop drops an operation while the node has a call of it with this nonce, or gets
a call to the node that it has dropped. -/
def Loses : Action → Prop
  | .attempt attempt => s.phase = .submitting ∧ ¬ s.Waits ∧ ∃ op ∈ s.operations.head?,
      (∃ message, exception o op attempt = some (some message) ∧ DropsOn message) ∧
        ((∃ t ∈ s.accepted, t.type = .publicCall ∧ t.nonce = s.nonce) ∨
          op.type = .publicCall ∧ attempt.reply.Reached ∧ ∃ fee, txFee o op attempt = .ok fee ∧
            s.Possible ⟨op.ref, op.type, s.nonce, op.fee attempt fee⟩ attempt.reply)
  | .multicast n reply => o.multiCast = true ∧ reply.Reached ∧
      ∃ t, s.sent[n]? = some t ∧ s.Possible t reply ∧ t ∉ s.live
  | _ => False

variable {o s} in
theorem not_loses {attempt : Attempt} (hdrops : ∀ op ∈ s.operations.head?,
    ∀ e ∈ exception o op attempt, ∀ message ∈ e, ¬ DropsOn message) :
    ¬ s.Loses o (.attempt attempt) := by
  rintro ⟨-, -, op, hop, ⟨message, hmessage, hdrop⟩, -⟩
  exact hdrops op hop (some message) hmessage message rfl hdrop

/-- Calls that are alive with one nonce are of one operation, which is the one being
submitted if the nonce is the present one. -/
structure Owned : Prop where
  le : ∀ t ∈ s.live, t.nonce ≤ s.nonce
  head : ∀ t ∈ s.live, t.nonce = s.nonce → ∃ op ∈ s.operations.head?, op.ref = t.ref
  same : ∀ t ∈ s.live, ∀ t' ∈ s.live, t.nonce = t'.nonce → t.ref = t'.ref
  accepted : ∀ t ∈ s.accepted, t.type = .publicCall → t ∈ s.live
  pairwise : s.accepted.Pairwise fun t t' =>
    t.type = .publicCall → t.nonce = t'.nonce → t.ref = t'.ref

variable {o s}

theorem owned_start {operations : List Operation} {startingNonce lastExecutedNonce : Nat}
    {mempool : Nat → Option Nat} :
    Owned (start o operations startingNonce lastExecutedNonce mempool) where
  le _ ht := nomatch ht
  head _ ht := nomatch ht
  same _ ht := nomatch ht
  accepted _ ht := nomatch ht
  pairwise := List.Pairwise.nil

/-- With the next nonce, nothing that is alive is in the way of an operation. -/
theorem Owned.advance (h : s.Owned) (operations : List Operation) :
    Owned { s with operations := operations, nonce := s.nonce + 1 } where
  le t ht := (h.le t ht).trans (Nat.le_succ s.nonce)
  head t ht hnonce := by
    have hle := h.le t ht
    change t.nonce = s.nonce + 1 at hnonce
    omega
  same := h.same
  accepted := h.accepted
  pairwise := h.pairwise

/-- An operation that no accepted call is of can be dropped. -/
theorem Owned.drop (h : s.Owned) (rest : List Operation)
    (hnone : ∀ t ∈ s.accepted, t.type = .publicCall → t.nonce ≠ s.nonce) :
    (s.drop rest).Owned where
  le t ht := h.le t (List.mem_filter.mp ht).1
  head _ ht hnonce := absurd hnonce (of_decide_eq_true (List.mem_filter.mp ht).2)
  same t ht t' ht' := h.same t (List.mem_filter.mp ht).1 t' (List.mem_filter.mp ht').1
  accepted t ht htype :=
    List.mem_filter.mpr ⟨h.accepted t ht htype, decide_eq_true (hnone t ht htype)⟩
  pairwise := h.pairwise

/-- A retried operation stays the one that is being submitted. -/
theorem Owned.retry (h : s.Owned) {op op' : Operation} {rest : List Operation}
    (hhead : s.operations = op :: rest) (href : op'.ref = op.ref) :
    Owned { s with operations := op' :: rest } where
  le := h.le
  head t ht hnonce := by
    obtain ⟨op'', hop'', hsame⟩ := h.head t ht hnonce
    rw [hhead] at hop''
    cases hop''
    exact ⟨op', rfl, href.trans hsame⟩
  same := h.same
  accepted := h.accepted
  pairwise := h.pairwise

theorem Owned.of_same (h : s.Owned) {s' : State} (hoperations : s'.operations = s.operations)
    (hnonce : s'.nonce = s.nonce) (hlive : s'.live = s.live)
    (haccepted : s'.accepted = s.accepted) : s'.Owned where
  le := hlive ▸ hnonce ▸ h.le
  head := hlive ▸ hnonce ▸ hoperations ▸ h.head
  same := hlive ▸ h.same
  accepted := haccepted ▸ hlive ▸ h.accepted
  pairwise := haccepted ▸ h.pairwise

/-- A transaction may be accepted if nothing alive is in its way. -/
theorem Owned.accept (h : s.Owned) {t : Sent} (hlive : t.type = .publicCall → t ∈ s.live)
    (howner : ∀ t' ∈ s.live, t'.nonce = t.nonce → t'.ref = t.ref) : (s.accept t).Owned where
  le := h.le
  head := h.head
  same := h.same
  accepted t' ht' htype := by
    rcases List.mem_append.mp ht' with hold | hnew
    · exact h.accepted t' hold htype
    · rw [List.mem_singleton.mp hnew] at htype ⊢
      exact hlive htype
  pairwise := by
    refine List.pairwise_append.mpr ⟨h.pairwise, List.pairwise_singleton _ _, ?_⟩
    intro t' ht' t'' ht'' htype hnonce
    rw [List.mem_singleton.mp ht''] at hnonce ⊢
    exact howner t' (h.accepted t' ht' htype) hnonce

theorem Owned.receive (h : s.Owned) {t : Sent} (hlive : t.type = .publicCall → t ∈ s.live)
    (howner : ∀ t' ∈ s.live, t'.nonce = t.nonce → t'.ref = t.ref) (reply : NodeReply) :
    (s.receive t reply).Owned := by
  unfold State.receive
  split
  · exact h.accept hlive howner
  · exact h

/-- What is alive with the present nonce is of the operation being submitted. -/
theorem Owned.owner (h : s.Owned) {op : Operation} {rest : List Operation}
    (hhead : s.operations = op :: rest) {t : Sent} (ht : t ∈ s.live) (hnonce : t.nonce = s.nonce) :
    t.ref = op.ref := by
  obtain ⟨op', hop', hsame⟩ := h.head t ht hnonce
  rw [hhead] at hop'
  cases hop'
  exact hsame.symm

theorem live_remember (s : State) (t : Sent) (reply : NodeReply) : (s.remember t reply).live =
    if t.type = .publicCall then s.live ++ [t] else s.live := by
  unfold remember
  split
  · rfl
  · rfl

theorem remember_frame (s : State) (t : Sent) (reply : NodeReply) :
    (s.remember t reply).operations = s.operations ∧ (s.remember t reply).nonce = s.nonce ∧
      (s.remember t reply).accepted = s.accepted := by
  unfold remember
  split
  · exact ⟨rfl, rfl, rfl⟩
  · exact ⟨rfl, rfl, rfl⟩

theorem mem_live_remember {t t' : Sent} {reply : NodeReply} :
    t' ∈ (s.remember t reply).live ↔ t' ∈ s.live ∨ t.type = .publicCall ∧ t' = t := by
  rw [live_remember]
  split
  · next htype => rw [List.mem_append, List.mem_singleton, and_iff_right htype]
  · next htype => exact (or_iff_left fun h => htype h.1).symm

/-- A call of the operation being submitted joins those that are alive. -/
theorem Owned.remember (h : s.Owned) {op : Operation} {rest : List Operation}
    (hhead : s.operations = op :: rest) {t : Sent} (href : t.ref = op.ref)
    (hnonce : t.nonce = s.nonce) (reply : NodeReply) : (s.remember t reply).Owned := by
  obtain ⟨hoperations, hsame, haccepted⟩ := remember_frame s t reply
  have howner : ∀ t' ∈ s.live, t'.nonce = s.nonce → t'.ref = t.ref := fun t' ht' hn =>
    (h.owner hhead ht' hn).trans href.symm
  refine ⟨fun t' ht' => ?_, fun t' ht' hn => ?_, fun t' ht' t'' ht'' hn => ?_,
    fun t' ht' htype => ?_, haccepted ▸ h.pairwise⟩
  · rw [hsame]
    rcases mem_live_remember.mp ht' with hold | ⟨-, rfl⟩
    · exact h.le t' hold
    · exact le_of_eq hnonce
  · rw [hsame] at hn
    rw [hoperations, hhead]
    refine ⟨op, rfl, ?_⟩
    rcases mem_live_remember.mp ht' with hold | ⟨-, rfl⟩
    · exact (h.owner hhead hold hn).symm
    · exact href.symm
  · rcases mem_live_remember.mp ht' with hold | ⟨-, rfl⟩
    · rcases mem_live_remember.mp ht'' with hold' | ⟨-, rfl⟩
      · exact h.same t' hold t'' hold' hn
      · exact howner t' hold (hn.trans hnonce)
    · rcases mem_live_remember.mp ht'' with hold' | ⟨-, rfl⟩
      · exact (howner t'' hold' (hn.symm.trans hnonce)).symm
      · rfl
  · rw [haccepted] at ht'
    exact mem_live_remember.mpr (Or.inl (h.accepted t' ht' htype))

/-- The catch block keeps the order, unless it drops an operation the node has. -/
theorem Owned.catches (h : s.Owned) {op : Operation} {rest : List Operation}
    (hhead : s.operations = op :: rest) (txFee : Option Nat) {e : Exception}
    (hkeeps : ∀ message, e = some message → DropsOn message →
      ∀ t ∈ s.accepted, t.type = .publicCall → t.nonce ≠ s.nonce) :
    (s.catches o op rest txFee e).Owned := by
  cases e with
  | none => exact h.of_same rfl rfl rfl rfl
  | some message =>
      have hdrops := hkeeps message rfl
      dsimp only [State.catches]
      by_cases hexists : Includes message "ContractAlreadyExists".toList
      · rw [if_pos hexists]
        exact h.drop rest (hdrops (Or.inl hexists))
      · rw [if_neg hexists]
        by_cases hconflict : Includes message "ConflictingNonceInMempool".toList
        · rw [if_pos hconflict]
          cases o.conflictingNonceStrategy with
          | increase => exact h.advance s.operations
          | replace =>
              cases txFee with
              | none => exact h.of_same rfl rfl rfl rfl
              | some fee =>
                  dsimp only
                  split
                  · exact h.retry hhead rfl
                  · exact h.of_same rfl rfl rfl rfl
        · rw [if_neg hconflict]
          split
          · exact h.of_same rfl rfl rfl rfl
          · next hchaining => exact h.drop rest (hdrops (Or.inr ⟨hconflict, hchaining⟩))

theorem mem_accepted_receive {t t' : Sent} {reply : NodeReply} :
    t' ∈ (s.receive t reply).accepted ↔ t' ∈ s.accepted ∨ reply.Reached ∧ t' = t := by
  unfold receive
  split
  · next hreached =>
      show t' ∈ s.accepted ++ [t] ↔ _
      rw [List.mem_append, List.mem_singleton, and_iff_right hreached]
  · next hreached => exact (or_iff_left fun h => hreached h.1).symm

/-! A transaction on its way changes what the node has, and nothing of the loop. -/

theorem operations_receive (s : State) (t : Sent) (reply : NodeReply) :
    (s.receive t reply).operations = s.operations := by
  unfold receive
  split <;> rfl

theorem nonce_receive (s : State) (t : Sent) (reply : NodeReply) :
    (s.receive t reply).nonce = s.nonce := by
  unfold receive
  split <;> rfl

theorem sent_receive (s : State) (t : Sent) (reply : NodeReply) :
    (s.receive t reply).sent = s.sent := by
  unfold receive
  split <;> rfl

theorem window_receive (s : State) (t : Sent) (reply : NodeReply) :
    (s.receive t reply).currentMaxTxPerBlock = s.currentMaxTxPerBlock := by
  unfold receive
  split <;> rfl

theorem settled_receive (s : State) (t : Sent) (reply : NodeReply) :
    (s.receive t reply).settled = s.settled := by
  unfold receive
  split <;> rfl

/-- An action that lets the node have a transaction. -/
def Sends (o : Options) (s : State) : Action → Prop
  | .attempt _ => s.operations ≠ [] ∧ s.phase = .submitting ∧ ¬ s.Waits
  | .multicast n reply => ∃ t ∈ s.sent[n]?, o.multiCast = true ∧ s.Possible t reply
  | _ => False

/-- **What an action does**: a turn of the loop, a transaction once more, or neither; then
it changes nothing that is submitted. -/
theorem next_cases (o : Options) (s : State) (a : Action) :
    (∃ attempt op rest, a = .attempt attempt ∧ s.operations = op :: rest ∧
      (s.phase = .submitting ∧ ¬ s.Waits) ∧ s.next o a = s.submit o op rest attempt) ∨
    (∃ n reply t, a = .multicast n reply ∧ s.sent[n]? = some t ∧
      (o.multiCast = true ∧ s.Possible t reply) ∧ s.next o a = s.receive t reply) ∨
    ¬ s.Sends o a ∧ ∃ phase last mempool, s.next o a =
      { s with phase := phase, lastExecutedNonce := last, mempool := mempool } := by
  cases a with
  | readNonce answer =>
      refine Or.inr (Or.inr ⟨id, ?_⟩)
      dsimp only [State.next]
      split
      · exact ⟨_, _, _, rfl⟩
      · exact ⟨_, _, _, rfl⟩
  | attempt attempt =>
      by_cases hempty : s.operations = []
      · have hsame : s.next o (.attempt attempt) = s := by simp [State.next, hempty]
        exact Or.inr (Or.inr ⟨fun h => h.1 hempty, _, _, _, hsame⟩)
      · obtain ⟨op, rest, hhead⟩ := List.exists_cons_of_ne_nil hempty
        by_cases hsubmits : s.phase = .submitting ∧ ¬ s.Waits
        · exact Or.inl ⟨attempt, op, rest, rfl, hhead, hsubmits,
            by simp [State.next, hhead, hsubmits]⟩
        · have hsame : s.next o (.attempt attempt) = s := by simp [State.next, hhead, hsubmits]
          exact Or.inr (Or.inr ⟨fun h => hsubmits h.2, _, _, _, hsame⟩)
  | multicast n reply =>
      cases hsent : s.sent[n]? with
      | none =>
          refine Or.inr (Or.inr ⟨?_, s.phase, s.lastExecutedNonce, s.mempool, ?_⟩)
          · simp [Sends, hsent]
          · simp [State.next, hsent]
      | some t =>
          by_cases hagain : o.multiCast = true ∧ s.Possible t reply
          · exact Or.inr (Or.inl ⟨n, reply, t, rfl, hsent, hagain,
              by simp [State.next, hsent, hagain]⟩)
          · refine Or.inr (Or.inr ⟨?_, s.phase, s.lastExecutedNonce, s.mempool, ?_⟩)
            · simpa [Sends, hsent] using hagain
            · simp [State.next, hsent, hagain]
  | node mempool => exact Or.inr (Or.inr ⟨id, _, _, _, rfl⟩)
  | throw =>
      refine Or.inr (Or.inr ⟨id, ?_⟩)
      dsimp only [State.next]
      split
      · exact ⟨_, _, _, rfl⟩
      · exact ⟨_, _, _, rfl⟩
  | settle =>
      refine Or.inr (Or.inr ⟨id, ?_⟩)
      dsimp only [State.next]
      split
      · next hend =>
          -- the loop has shifted all operations off the list
          refine ⟨.finished, s.lastExecutedNonce, s.mempool, ?_⟩
          simp [hend.2.1]
      · exact ⟨_, _, _, rfl⟩

/-- **A turn of the loop that loses nothing keeps the nonces apart.** -/
theorem Owned.submit (h : s.Owned) {op : Operation} {rest : List Operation} {attempt : Attempt}
    (hhead : s.operations = op :: rest) (hphase : s.phase = .submitting) (hwaits : ¬ s.Waits)
    (hkeeps : ¬ s.Loses o (.attempt attempt)) : (s.submit o op rest attempt).Owned := by
  have hop : op ∈ s.operations.head? := by
    rw [hhead]
    rfl
  unfold State.submit
  cases hfee : txFee o op attempt with
  | error e =>
      refine h.catches hhead none fun message he hdrops t ht htype hnonce => ?_
      have hexception : exception o op attempt = some (some message) := by
        rw [exception, hfee, he]
      exact hkeeps ⟨hphase, hwaits, op, hop, ⟨message, hexception, hdrops⟩,
        Or.inl ⟨t, ht, htype, hnonce⟩⟩
  | ok fee =>
      dsimp only
      split
      · next hpossible =>
          generalize ht : Sent.mk op.ref op.type s.nonce (op.fee attempt fee) = t at hpossible ⊢
          have href : t.ref = op.ref := by rw [← ht]
          have hnonce : t.nonce = s.nonce := by rw [← ht]
          have htype : t.type = op.type := by rw [← ht]
          obtain ⟨hoperations, hsame, haccepted⟩ := remember_frame s t attempt.reply
          have howned : ((s.remember t attempt.reply).receive t attempt.reply).Owned := by
            refine (h.remember hhead href hnonce attempt.reply).receive (fun htype =>
              mem_live_remember.mpr (Or.inr ⟨htype, rfl⟩)) (fun t' ht' hn => ?_) attempt.reply
            rcases mem_live_remember.mp ht' with hold | ⟨-, rfl⟩
            · exact (h.owner hhead hold (hn.trans hnonce)).trans href.symm
            · rfl
          cases hexception : op.broadcastException attempt with
          | none => exact howned.advance rest
          | some e =>
              have hstill : ((s.remember t attempt.reply).receive t attempt.reply).operations =
                  op :: rest := (operations_receive ..).trans (hoperations.trans hhead)
              refine howned.catches hstill (some fee)
                fun message he hdrops t' ht' htype' hnonce' => ?_
              have hthrown : exception o op attempt = some (some message) := by
                rw [exception, hfee, hexception, he]
              rw [nonce_receive, hsame] at hnonce'
              refine hkeeps ⟨hphase, hwaits, op, hop, ⟨message, hthrown, hdrops⟩, ?_⟩
              rcases mem_accepted_receive.mp ht' with hold | ⟨hreached, rfl⟩
              · exact Or.inl ⟨t', haccepted ▸ hold, htype', hnonce'⟩
              · exact Or.inr ⟨htype.symm.trans htype', hreached, fee, hfee, ht ▸ hpossible⟩
      · exact h

/-- **Every step that loses nothing keeps the nonces apart.** -/
theorem Owned.next (h : s.Owned) {a : Action} (hkeeps : ¬ s.Loses o a) : (s.next o a).Owned := by
  rcases next_cases o s a with ⟨attempt, op, rest, rfl, hhead, hsubmits, hnext⟩ |
    ⟨n, reply, t, rfl, hsent, hagain, hnext⟩ | ⟨-, phase, last, mempool, hnext⟩
  · rw [hnext]
    exact h.submit hhead hsubmits.1 hsubmits.2 hkeeps
  · rw [hnext]
    by_cases hreached : reply.Reached
    · have hlive : t ∈ s.live := by
        by_contra hnot
        exact hkeeps ⟨hagain.1, hreached, t, hsent, hagain.2, hnot⟩
      exact h.receive (fun _ => hlive) (fun t' ht' hn => h.same t' ht' t hlive hn) reply
    · rw [State.receive, if_neg hreached]
      exact h
  · rw [hnext]
    exact h.of_same rfl rfl rfl rfl

end State

/-- **A nonce carries one operation.**  As long as no operation is dropped that the node
has, a nonce at which it has accepted a call takes no transaction of another operation,
whatever the node replies and the callbacks throw, with both strategies. -/
theorem one_operation_per_nonce (o : Options) {operations : List Operation}
    {startingNonce lastExecutedNonce : Nat} {mempool : Nat → Option Nat} {actions : List Action}
    (hkeeps : (machine o).Along (fun s a => ¬ s.Loses o a)
      (start o operations startingNonce lastExecutedNonce mempool) actions) :
    ((machine o).run (start o operations startingNonce lastExecutedNonce mempool)
      actions).accepted.Pairwise fun t t' =>
        t.type = .publicCall → t.nonce = t'.nonce → t.ref = t'.ref :=
  (Machine.run_invariant State.Owned (fun _ _ ha h => h.next ha) hkeeps
    State.owned_start).pairwise

/-! ## Settlement -/

namespace State
variable {o : Options} {s : State}

/-- The catch block sets what is submitted next, and nothing else. -/
theorem catches_frame (op : Operation) (rest : List Operation) (txFee : Option Nat)
    (e : Exception) : ∃ phase operations nonce window live, s.catches o op rest txFee e =
      { s with
        phase := phase
        operations := operations
        nonce := nonce
        currentMaxTxPerBlock := window
        live := live } := by
  cases e with
  | none => exact ⟨_, _, _, _, _, rfl⟩
  | some message =>
      dsimp only [catches]
      split
      · exact ⟨_, _, _, _, _, rfl⟩
      · split
        · cases o.conflictingNonceStrategy with
          | increase => exact ⟨_, _, _, _, _, rfl⟩
          | replace =>
              cases txFee with
              | none => exact ⟨_, _, _, _, _, rfl⟩
              | some fee =>
                  dsimp only
                  split
                  · exact ⟨_, _, _, _, _, rfl⟩
                  · exact ⟨_, _, _, _, _, rfl⟩
        · split
          · exact ⟨_, _, _, _, _, rfl⟩
          · exact ⟨_, _, _, _, _, rfl⟩

theorem settled_catches (op : Operation) (rest : List Operation) (txFee : Option Nat)
    (e : Exception) : (s.catches o op rest txFee e).settled = s.settled := by
  obtain ⟨_, _, _, _, _, hframe⟩ := catches_frame (o := o) (s := s) op rest txFee e
  rw [hframe]

theorem settled_submit (op : Operation) (rest : List Operation) (attempt : Attempt) :
    (s.submit o op rest attempt).settled = s.settled := by
  unfold submit
  cases txFee o op attempt with
  | error e => exact settled_catches op rest none e
  | ok fee =>
      dsimp only
      generalize Sent.mk op.ref op.type s.nonce (op.fee attempt fee) = t
      have hremember : (s.remember t attempt.reply).settled = s.settled := by
        unfold remember
        split
        · rfl
        · rfl
      split
      · cases op.broadcastException attempt with
        | none => exact (settled_receive ..).trans hremember
        | some e => exact (settled_catches ..).trans ((settled_receive ..).trans hremember)
      · rfl

/-- No callback is ever called: the list that is settled has been emptied by the loop. -/
theorem settled_next (a : Action) : (s.next o a).settled = s.settled := by
  rcases next_cases o s a with ⟨attempt, op, rest, -, -, -, hnext⟩ |
    ⟨n, reply, t, -, -, -, hnext⟩ | ⟨-, phase, last, mempool, hnext⟩
  · rw [hnext, settled_submit]
  · rw [hnext, settled_receive]
  · rw [hnext]

end State

/-- `onSettled` has been called once for every operation the node has accepted, and for no
other. -/
def SettlementReported (operations : List Operation) (s : State) : Prop :=
  ∀ op ∈ operations, op.hasOnSettled = true →
    s.settled.count op.ref = if ∃ t ∈ s.accepted, t.ref = op.ref then 1 else 0

instance (operations : List Operation) (s : State) : Decidable (SettlementReported operations s) :=
  inferInstanceAs (Decidable (∀ op ∈ operations, _ → _))

/-- **Settlement is reported only if there is none to report.**  In every state of a run,
its end included. -/
theorem settlement_reported_iff (o : Options) (operations : List Operation)
    (startingNonce lastExecutedNonce : Nat) (mempool : Nat → Option Nat) (actions : List Action) :
    SettlementReported operations ((machine o).run
        (start o operations startingNonce lastExecutedNonce mempool) actions) ↔
      ∀ op ∈ operations, op.hasOnSettled = true →
        ¬ ∃ t ∈ ((machine o).run (start o operations startingNonce lastExecutedNonce mempool)
          actions).accepted, t.ref = op.ref := by
  have hnone : ((machine o).run (start o operations startingNonce lastExecutedNonce mempool)
      actions).settled = [] := by
    refine (machine o).run_of_step (fun s => s.settled = []) ?_ rfl actions
    exact fun s a hs => (State.settled_next a).trans hs
  generalize (machine o).run (start o operations startingNonce lastExecutedNonce mempool)
    actions = s at hnone ⊢
  refine forall_congr' fun op => forall_congr' fun _ => forall_congr' fun _ => ?_
  rw [hnone, List.count_nil]
  split
  · next haccepted => exact iff_of_false (Nat.zero_ne_one) fun hnot => hnot haccepted
  · next hnot => exact iff_of_true rfl hnot

end NonceLoop

/-! ## Two batches of a relayer -/

namespace Sample
open NonceLoop

/-- A relayer that replaces what is in its way. -/
def replacing : Options where
  fee := some 1000
  hasCalculateFee := false
  conflictingNonceStrategy := .replace
  rbfMode := .off
  replaceIncrement := 50000
  multiCast := false
  maxTxPerBlock := 25

/-- The call of a batch. -/
def batchCall (ref : Nat) : Operation where
  ref := ref
  type := .publicCall
  name := "oracle-v1-06.index-tx-many".toList
  feeOverride := none
  hasOnBroadcast := true
  hasOnSettled := true

/-- The node replies, and then the callback runs. -/
def replied (reply : NodeReply) (callback : Callback) : NonceLoop.Action :=
  .attempt ⟨.ok none, .ok 1000, none, reply, callback⟩

def twoBatches (actions : List NonceLoop.Action) : State :=
  (NonceLoop.machine replacing).run
    (NonceLoop.start replacing [batchCall 0, batchCall 1] 7 7 fun _ => none) actions

/-- Both are accepted, with a conflict in between. -/
def smoothActions : List NonceLoop.Action :=
  [replied .accepted .returns, .node fun nonce => if nonce = 8 then some 2000 else some 1000,
    replied (.rejected "ConflictingNonceInMempool".toList) .returns, replied .accepted .returns,
    .readNonce 9, .settle]

theorem smoothActions_keep : (NonceLoop.machine replacing).Along (fun s a => ¬ s.Loses replacing a)
    (NonceLoop.start replacing [batchCall 0, batchCall 1] 7 7 fun _ => none) smoothActions :=
  ⟨State.not_loses (by decide +kernel), id, State.not_loses (by decide +kernel),
    State.not_loses (by decide +kernel), id, id, trivial⟩

theorem one_operation_per_nonce_smooth : (twoBatches smoothActions).accepted.Pairwise
    fun t t' => t.type = .publicCall → t.nonce = t'.nonce → t.ref = t'.ref :=
  one_operation_per_nonce replacing smoothActions_keep

/-- The callback of the first call fails: the tables cannot be reached. -/
def lostActions : List NonceLoop.Action :=
  [replied .accepted (.rejects (some "Connection terminated".toList)),
    replied (.rejected "ConflictingNonceInMempool".toList) .returns,
    replied .accepted .returns]

/-- **The second batch takes the nonce of the first, and its place.** -/
theorem nonce_carries_two : (twoBatches lostActions).accepted =
      [⟨0, .publicCall, 7, 1000⟩, ⟨1, .publicCall, 7, 51000⟩] ∧
    ¬ (twoBatches lostActions).accepted.Pairwise fun t t' =>
      t.type = .publicCall → t.nonce = t'.nonce → t.ref = t'.ref := by
  decide +kernel

/-- **The chain executes both, and no callback hears of it.** -/
theorem settlement_not_reported : (twoBatches smoothActions).phase = .finished ∧
    (twoBatches smoothActions).accepted.map Sent.ref = [0, 1] ∧
    (twoBatches smoothActions).settled = [] ∧
    ¬ SettlementReported [batchCall 0, batchCall 1] (twoBatches smoothActions) := by
  decide +kernel

end Sample
end BitcoinOracle
