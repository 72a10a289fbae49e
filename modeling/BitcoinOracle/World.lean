import BitcoinOracle.Indexing
import BitcoinOracle.LoggedRun

/-! # Runs of the deployment

A run is a list of transactions: calls by anyone of the public functions of the
oracle, of either registry and of the header mock, each with what it reads off the
chain.  `World.exec` executes one; a transaction that does not answer `(ok v)`
changes nothing.

`Step` says once what a transaction can do, and `step_next` that it can do nothing
else.  The log of a run are the elements of its accepted batches, in order.
-/
namespace BitcoinOracle
open Clarity

/-! ## Public functions -/

/-- The public functions of the oracle but `index-tx-many`. -/
inductive Oracle.GovernanceCall where
  | setPaused (paused : Bool)
  | addValidator (validatorPubkey : Buff 33) (validator : Principal)
  | removeValidator (validator : Principal)
  | approveRelayer (relayer : Principal) (approved : Bool)
  | setRequiredValidators (newRequiredValidators : Uint)
  | setContractOwner (owner : Principal)

/-- The privileged functions of a registry with keys of up to `n` bytes. -/
inductive RegistryWrite (n : Nat) where
  | setTickDecimals (tick : Tick) (decimals : Uint)
  | setUserBalance (key : UserTick) (value : UserBalance)
  | setTxMined (key : Buff n) (value : Uint)
  | setTxIndexed (key : IndexedKey n) (value : IndexedTx)

/-- The governance functions of the first registry. -/
inductive RegistryV101.GovernanceCall where
  | setPaused (paused : Bool)
  | approveOperator (operator : Principal) (approved : Bool)
  | setContractOwner (owner : Principal)

/-- The governance functions of the second registry. -/
inductive RegistryV102.GovernanceCall where
  | setPaused (paused : Bool)
  | approveOperator (operator : Principal) (approved : Bool)
  | setContractOwner (owner : Principal)
  | setPausedLegacy (paused : Bool)
  | setContractOwnerLegacy (owner : Principal)

inductive PublicCall where
  | indexTxMany (txMany : TxMany)
  | oracle (call : Oracle.GovernanceCall)
  | registryV101 (call : RegistryV101.GovernanceCall)
  | registryV102 (call : RegistryV102.GovernanceCall)
  | writeV101 (call : RegistryWrite 4096)
  | writeV102 (call : RegistryWrite 8192)
  | mockAddBurnchainBlockHeaderHash (burnHeight : Uint) (hash : Buff 32)

/-- A write to a registry other than by the oracle. -/
def PublicCall.IsDirectWrite : PublicCall → Prop
  | .writeV101 _ => True
  | .writeV102 _ => True
  | _ => False

instance : DecidablePred PublicCall.IsDirectWrite
  | .writeV101 _ => .isTrue trivial
  | .writeV102 _ => .isTrue trivial
  | .indexTxMany _ => .isFalse id
  | .oracle _ => .isFalse id
  | .registryV101 _ => .isFalse id
  | .registryV102 _ => .isFalse id
  | .mockAddBurnchainBlockHeaderHash _ _ => .isFalse id

/-- The value of a public function: each answers with a `bool` or a `uint`. -/
inductive Answer where
  | bool (b : Bool)
  | uint (n : Uint)
  deriving DecidableEq

/-- A call by `sender`, with what it reads off the chain. -/
structure Transaction where
  env : Env
  sender : Principal
  call : PublicCall

/-- The answer of a call, as an `Answer`. -/
def answering {σ α : Type} (f : α → Answer) (c : Call σ α) : Call σ Answer := do
  let a ← c
  pure (f a)

def Oracle.govern (sender : Principal) : GovernanceCall → Call State Answer
  | .setPaused paused => answering .bool (setPaused sender paused)
  | .addValidator pubkey validator => answering .uint (addValidator sender pubkey validator)
  | .removeValidator validator => answering .uint (removeValidator sender validator)
  | .approveRelayer relayer approved => answering .bool (approveRelayer sender relayer approved)
  | .setRequiredValidators n => answering .bool (setRequiredValidators sender n)
  | .setContractOwner owner => answering .bool (setContractOwner sender owner)

def RegistryV101.govern (sender : Principal) : GovernanceCall → Call State Bool
  | .setPaused paused => setPaused sender paused
  | .approveOperator operator approved => approveOperator sender operator approved
  | .setContractOwner owner => setContractOwner sender owner

def RegistryV102.govern (sender : Principal) : GovernanceCall → Call Registries Bool
  | .setPaused paused => setPaused sender paused
  | .approveOperator operator approved => approveOperator sender operator approved
  | .setContractOwner owner => setContractOwner sender owner
  | .setPausedLegacy paused => setPausedLegacy sender paused
  | .setContractOwnerLegacy owner => setContractOwnerLegacy sender owner

def RegistryV101.writeDirect (sender : Principal) : RegistryWrite 4096 → Call State Bool
  | .setTickDecimals tick decimals => setTickDecimals sender tick decimals
  | .setUserBalance key value => setUserBalance sender key value
  | .setTxMined key value => setTxMined sender key value
  | .setTxIndexed key value => setTxIndexed sender key value

def RegistryV102.writeDirect (sender : Principal) : RegistryWrite 8192 → Call Registries Bool
  | .setTickDecimals tick decimals => setTickDecimals sender tick decimals
  | .setUserBalance key value => setUserBalance sender key value
  | .setTxMined key value => setTxMined sender key value
  | .setTxIndexed key value => setTxIndexed sender key value

namespace World
variable (P : Primitives)

/-- A call on the first registry, from outside. -/
def onV101 {α : Type} (c : Call RegistryV101.State α) : Call World α :=
  .within (fun w => w.registries.v101)
    (fun s w => { w with registries := { w.registries with v101 := s } }) c

/-- A call on the second registry, from outside. -/
def onRegistries {α : Type} (c : Call Registries α) : Call World α :=
  .within World.registries (fun r w => { w with registries := r }) c

/-- The call of a transaction. -/
def exec (t : Transaction) : Call World Answer :=
  match t.call with
  | .indexTxMany txMany => answering .bool (Oracle.indexTxMany P t.env t.sender txMany)
  | .oracle call => Oracle.onOracle (Oracle.govern t.sender call)
  | .registryV101 call => answering .bool (onV101 (RegistryV101.govern t.sender call))
  | .registryV102 call => answering .bool (onRegistries (RegistryV102.govern t.sender call))
  | .writeV101 call => answering .bool (onV101 (RegistryV101.writeDirect t.sender call))
  | .writeV102 call => answering .bool (onRegistries (RegistryV102.writeDirect t.sender call))
  | .mockAddBurnchainBlockHeaderHash burnHeight hash =>
      answering .bool (.within World.mockHeaders (fun m w => { w with mockHeaders := m })
        (ClarityBitcoin.mockAddBurnchainBlockHeaderHash burnHeight hash))

/-- What a transaction answers. -/
def answer (w : World) (t : Transaction) : Result Answer := (exec P t w).1

/-- The elements a transaction gets indexed. -/
def accepted (w : World) (t : Transaction) : List SignedTx :=
  match t.call, answer P w t with
  | .indexTxMany txMany, .ok _ => txMany.elements
  | _, _ => []

/-- The deployment: a transaction takes the storage to the one after it, and logs
the elements it gets indexed. -/
def deployment : Machine World Transaction SignedTx where
  next w t := (exec P t w).2
  log w t := accepted P w t

theorem accepted_eq_or (w : World) (t : Transaction) : accepted P w t = [] ∨
    ∃ txMany, t.call = .indexTxMany txMany ∧ accepted P w t = txMany.elements := by
  unfold accepted
  split
  · next hcall _ => exact Or.inr ⟨_, hcall, rfl⟩
  · exact Or.inl rfl

theorem exec_eq {w : World} {t : Transaction} {r : Result Answer} (h : answer P w t = r) :
    exec P t w = (r, (deployment P).next w t) := Prod.ext h rfl

/-- **A transaction that does not answer `(ok v)` changes nothing.** -/
theorem exec_atomic (t : Transaction) : (exec P t).Atomic := by
  unfold exec
  split
  · exact .bind_pure (.transaction _) _
  · refine .within ?_ fun _ => rfl
    cases ‹Oracle.GovernanceCall› <;> exact .bind_pure (.transaction _) _
  · refine .bind_pure (.within ?_ fun _ => rfl) _
    cases ‹RegistryV101.GovernanceCall› <;> exact .transaction _
  · refine .bind_pure (.within ?_ fun _ => rfl) _
    cases ‹RegistryV102.GovernanceCall› <;> exact .transaction _
  · refine .bind_pure (.within ?_ fun _ => rfl) _
    cases ‹RegistryWrite 4096› <;> exact .transaction _
  · refine .bind_pure (.within ?_ fun _ => rfl) _
    cases ‹RegistryWrite 8192› <;> exact .transaction _
  · exact .bind_pure (.within (.transaction _) fun _ => rfl) _

/-- What changes the storage is answered `(ok v)`. -/
theorem answer_of_next_ne {w : World} {t : Transaction} (h : (deployment P).next w t ≠ w) :
    ∃ a, answer P w t = .ok a := by
  by_contra hnot
  exact h (exec_atomic P t w fun a ha => hnot ⟨a, ha⟩)

theorem answering_eq_ok {σ α : Type} {f : α → Answer} {c : Call σ α} {s s' : σ} {x : Answer} :
    answering f c s = (.ok x, s') ↔ ∃ a, c s = (.ok a, s') ∧ x = f a := by
  simp only [answering, Call.bind_eq_ok, Call.pure_eq_ok]
  constructor
  · rintro ⟨a, _, h, rfl, rfl⟩
    exact ⟨a, h, rfl⟩
  · rintro ⟨a, h, rfl⟩
    exact ⟨a, _, h, rfl, rfl⟩

end World

/-! ## What a transaction can do -/

namespace Oracle

/-- What a governance function of the oracle does, once its sender is the owner. -/
inductive Governed (s : State) : GovernanceCall → State → Prop where
  | setPaused (paused : Bool) : Governed s (.setPaused paused) { s with isPaused := paused }
  | addValidator {pubkey : Buff 33} {validator : Principal} {count : Uint}
      (hnew : s.validators validator = none) :
      Governed s (.addValidator pubkey validator)
        { s with validators := s.validators.set validator pubkey, validatorCount := count }
  | removeValidator {validator : Principal} {count : Uint}
      (hold : (s.validators validator).isSome = true) :
      Governed s (.removeValidator validator)
        { s with validators := s.validators.delete validator, validatorCount := count }
  | approveRelayer (relayer : Principal) (approved : Bool) :
      Governed s (.approveRelayer relayer approved)
        { s with approvedRelayers := s.approvedRelayers.set relayer approved }
  | setRequiredValidators {n : Uint} (hlt : n.val < maxRequiredValidators) :
      Governed s (.setRequiredValidators n) { s with requiredValidators := n }
  | setContractOwner (owner : Principal) :
      Governed s (.setContractOwner owner) { s with contractOwner := owner }

theorem checkIsOwner_eq_ok {sender : Principal} {s s' : State} {u : Unit} :
    checkIsOwner sender s = (.ok u, s') ↔ s.contractOwner = sender ∧ s' = s := by
  simp [checkIsOwner, and_comm]

section Validators
variable {s s' : State} {sender validator : Principal} {validatorPubkey : Buff 33} {n : Uint}

theorem addValidator_eq_ok :
    addValidator sender validatorPubkey validator s = (.ok n, s') ↔
      s.contractOwner = sender ∧ s.validators validator = none ∧
        n.val = 1 + s.validatorCount.val ∧
        s' = { s with
          validators := s.validators.set validator validatorPubkey
          validatorCount := n } := by
  simp only [addValidator, Call.bind_eq_ok, Call.transaction_eq_ok, checkIsOwner_eq_ok,
    Call.modify_eq_ok, Call.pure_eq_ok, Call.view_eq_ok, Call.lift_eq_ok, Result.asserts_eq_ok,
    addUint_eq_ok, id_eq]
  constructor
  · rintro ⟨_, _, ⟨howner, rfl⟩, _, _, ⟨rfl, rfl⟩, _, _, ⟨hnew, rfl⟩, _, _, rfl, _, _,
      ⟨hcount, rfl⟩, _, _, rfl, rfl, rfl⟩
    exact ⟨howner, hnew, hcount, rfl⟩
  · rintro ⟨howner, hnew, hcount, rfl⟩
    exact ⟨(), _, ⟨howner, rfl⟩, _, _, ⟨rfl, rfl⟩, (), _, ⟨hnew, rfl⟩, (), _, rfl, n, _,
      ⟨hcount, rfl⟩, (), _, rfl, rfl, rfl⟩

theorem removeValidator_eq_ok :
    removeValidator sender validator s = (.ok n, s') ↔
      s.contractOwner = sender ∧ (s.validators validator).isSome = true ∧
        n.val + 1 = s.validatorCount.val ∧
        s' = { s with validators := s.validators.delete validator, validatorCount := n } := by
  simp only [removeValidator, Call.bind_eq_ok, Call.transaction_eq_ok, checkIsOwner_eq_ok,
    Call.modify_eq_ok, Call.pure_eq_ok, Call.view_eq_ok, Call.lift_eq_ok, Result.asserts_eq_ok,
    subUint_eq_ok, id_eq]
  constructor
  · rintro ⟨_, _, ⟨howner, rfl⟩, _, _, ⟨rfl, rfl⟩, _, _, ⟨hold, rfl⟩, _, _, rfl, _, _,
      ⟨hcount, rfl⟩, _, _, rfl, rfl, rfl⟩
    exact ⟨howner, hold, hcount, rfl⟩
  · rintro ⟨howner, hold, hcount, rfl⟩
    exact ⟨(), _, ⟨howner, rfl⟩, _, _, ⟨rfl, rfl⟩, (), _, ⟨hold, rfl⟩, (), _, rfl, n, _,
      ⟨hcount, rfl⟩, (), _, rfl, rfl, rfl⟩

end Validators

theorem govern_eq_ok {sender : Principal} {call : GovernanceCall} {s s' : State} {a : Answer}
    (h : govern sender call s = (.ok a, s')) : s.contractOwner = sender ∧ Governed s call s' := by
  cases call with
  | setPaused paused =>
      simp only [govern, answering, setPaused, Call.bind_eq_ok, Call.transaction_eq_ok,
        checkIsOwner_eq_ok, Call.modify_eq_ok, Call.pure_eq_ok] at h
      obtain ⟨_, _, ⟨_, _, ⟨howner, rfl⟩, _, _, rfl, -, rfl⟩, -, rfl⟩ := h
      exact ⟨howner, .setPaused paused⟩
  | addValidator pubkey validator =>
      obtain ⟨n, hadd, -⟩ := World.answering_eq_ok.mp h
      obtain ⟨howner, hnew, -, rfl⟩ := addValidator_eq_ok.mp hadd
      exact ⟨howner, .addValidator hnew⟩
  | removeValidator validator =>
      obtain ⟨n, hremove, -⟩ := World.answering_eq_ok.mp h
      obtain ⟨howner, hold, -, rfl⟩ := removeValidator_eq_ok.mp hremove
      exact ⟨howner, .removeValidator hold⟩
  | approveRelayer relayer approved =>
      simp only [govern, answering, approveRelayer, Call.bind_eq_ok, Call.transaction_eq_ok,
        checkIsOwner_eq_ok, Call.modify_eq_ok, Call.pure_eq_ok] at h
      obtain ⟨_, _, ⟨_, _, ⟨howner, rfl⟩, _, _, rfl, -, rfl⟩, -, rfl⟩ := h
      exact ⟨howner, .approveRelayer relayer approved⟩
  | setRequiredValidators n =>
      simp only [govern, answering, setRequiredValidators, Call.bind_eq_ok,
        Call.transaction_eq_ok, checkIsOwner_eq_ok, Call.modify_eq_ok, Call.pure_eq_ok,
        Call.lift_eq_ok, Result.asserts_eq_ok] at h
      obtain ⟨_, _, ⟨_, _, ⟨howner, rfl⟩, _, _, ⟨hlt, rfl⟩, _, _, rfl, -, rfl⟩, -, rfl⟩ := h
      exact ⟨howner, .setRequiredValidators hlt⟩
  | setContractOwner owner =>
      simp only [govern, answering, setContractOwner, Call.bind_eq_ok, Call.transaction_eq_ok,
        checkIsOwner_eq_ok, Call.modify_eq_ok, Call.pure_eq_ok] at h
      obtain ⟨_, _, ⟨_, _, ⟨howner, rfl⟩, _, _, rfl, -, rfl⟩, -, rfl⟩ := h
      exact ⟨howner, .setContractOwner owner⟩

end Oracle

/-- Both registries hold the same records and balances. -/
structure Registries.SameRecords (r r' : Registries) : Prop where
  minedV101 : r'.v101.bitcoinTxMined = r.v101.bitcoinTxMined
  indexedV101 : r'.v101.bitcoinTxIndexed = r.v101.bitcoinTxIndexed
  userBalance : r'.v101.userBalance = r.v101.userBalance
  tickDecimals : r'.v101.tickDecimals = r.v101.tickDecimals
  minedV102 : r'.v102.bitcoinTxMined = r.v102.bitcoinTxMined
  indexedV102 : r'.v102.bitcoinTxIndexed = r.v102.bitcoinTxIndexed

theorem Registries.SameRecords.mined {r r' : Registries} (h : r.SameRecords r') :
    r'.mined = r.mined := by
  funext tx
  unfold Registries.mined Registries.legacyMined
  rw [h.minedV101, h.minedV102]

theorem Registries.SameRecords.indexed {r r' : Registries} (h : r.SameRecords r') :
    r'.indexed = r.indexed := by
  funext key
  unfold Registries.indexed Registries.legacyIndexed
  rw [h.indexedV101, h.indexedV102]

theorem RegistryV101.govern_sameRecords {sender : Principal} (call : GovernanceCall)
    {r : Registries} {s' : State} {b : Bool} (h : govern sender call r.v101 = (.ok b, s')) :
    r.SameRecords { r with v101 := s' } := by
  cases call with
  | setPaused paused =>
      obtain ⟨-, -, rfl⟩ := governed_eq_ok.mp h
      exact ⟨rfl, rfl, rfl, rfl, rfl, rfl⟩
  | approveOperator operator approved =>
      obtain ⟨-, -, rfl⟩ := governed_eq_ok.mp h
      exact ⟨rfl, rfl, rfl, rfl, rfl, rfl⟩
  | setContractOwner owner =>
      obtain ⟨-, -, rfl⟩ := governed_eq_ok.mp h
      exact ⟨rfl, rfl, rfl, rfl, rfl, rfl⟩

theorem RegistryV102.write_eq_ok {f : State → State} {r r' : Registries} {b : Bool} :
    write f r = (.ok b, r') ↔ b = true ∧ r' = { r with v102 := f r.v102 } := by
  simp [write]

theorem RegistryV102.govern_sameRecords {sender : Principal} {call : GovernanceCall}
    {r r' : Registries} {b : Bool} (h : govern sender call r = (.ok b, r')) :
    r.SameRecords r' := by
  cases call with
  | setPaused paused =>
      obtain ⟨-, h⟩ := governed_eq_ok.mp h
      obtain ⟨-, rfl⟩ := write_eq_ok.mp h
      exact ⟨rfl, rfl, rfl, rfl, rfl, rfl⟩
  | approveOperator operator approved =>
      obtain ⟨-, h⟩ := governed_eq_ok.mp h
      obtain ⟨s', hs', rfl⟩ := Call.within_eq_ok.mp h
      exact RegistryV101.govern_sameRecords (.approveOperator operator approved) hs'
  | setContractOwner owner =>
      obtain ⟨-, h⟩ := governed_eq_ok.mp h
      obtain ⟨-, rfl⟩ := write_eq_ok.mp h
      exact ⟨rfl, rfl, rfl, rfl, rfl, rfl⟩
  | setPausedLegacy paused =>
      obtain ⟨-, h⟩ := governed_eq_ok.mp h
      obtain ⟨s', hs', rfl⟩ := Call.within_eq_ok.mp h
      exact RegistryV101.govern_sameRecords (.setPaused paused) hs'
  | setContractOwnerLegacy owner =>
      obtain ⟨-, h⟩ := governed_eq_ok.mp h
      obtain ⟨s', hs', rfl⟩ := Call.within_eq_ok.mp h
      exact RegistryV101.govern_sameRecords (.setContractOwner owner) hs'

namespace World

/-- The storage when all contracts are deployed by `sender`. -/
def deployed (sender : Principal) : World where
  oracle := .deployed sender
  registries := ⟨.deployed sender, .deployed sender⟩
  mockHeaders := .empty

variable (P : Primitives)

/-- What one transaction does to the storage, and the elements it gets indexed. -/
inductive Step (w : World) (t : Transaction) : World → List SignedTx → Prop where
  /-- It answers with an error, or aborts. -/
  | refused : Step w t w []
  | indexed {txMany : TxMany} (hcall : t.call = .indexTxMany txMany)
      (hpaused : w.oracle.isPaused = false)
      (hrelayer : (w.oracle.approvedRelayers t.sender).isSome = true)
      (haccepts : Oracle.AcceptsAll P t.env w txMany.elements) :
      Step w t (Oracle.indexAll P w txMany.elements) txMany.elements
  | governed {call : Oracle.GovernanceCall} {s' : Oracle.State} (hcall : t.call = .oracle call)
      (howner : w.oracle.contractOwner = t.sender) (h : Oracle.Governed w.oracle call s') :
      Step w t { w with oracle := s' } []
  | registry {r' : Registries} (h : ¬ t.call.IsDirectWrite → w.registries.SameRecords r') :
      Step w t { w with registries := r' } []
  | mock {mock : ClarityBitcoin.MockHeaders} : Step w t { w with mockHeaders := mock } []

/-- **A transaction does one of the things `Step` lists.** -/
theorem step_next (w : World) (t : Transaction) :
    Step P w t ((deployment P).next w t) ((deployment P).log w t) := by
  obtain ⟨env, sender, call⟩ := t
  rcases hexec : exec P ⟨env, sender, call⟩ w with ⟨x | e | e, w'⟩
  · -- answered: the function called tells what was done
    have hnext : (deployment P).next w ⟨env, sender, call⟩ = w' := congrArg Prod.snd hexec
    have hanswer : answer P w ⟨env, sender, call⟩ = .ok x := congrArg Prod.fst hexec
    have hlog : (deployment P).log w ⟨env, sender, call⟩ =
        match call with | .indexTxMany txMany => txMany.elements | _ => [] := by
      show accepted P w ⟨env, sender, call⟩ = _
      unfold accepted
      rw [hanswer]
      cases call <;> rfl
    rw [hnext, hlog]
    cases call with
    | indexTxMany txMany =>
        obtain ⟨b, h, -⟩ := answering_eq_ok.mp hexec
        obtain ⟨hpaused, hrelayer, haccepts, -, rfl⟩ := (Oracle.indexTxMany_eq_ok P env).mp h
        exact .indexed rfl hpaused hrelayer haccepts
    | oracle call =>
        obtain ⟨s', h, rfl⟩ := Oracle.onOracle_eq_ok.mp hexec
        obtain ⟨howner, hgoverned⟩ := Oracle.govern_eq_ok h
        exact .governed rfl howner hgoverned
    | registryV101 call =>
        obtain ⟨b, h, -⟩ := answering_eq_ok.mp hexec
        obtain ⟨s', hs', rfl⟩ := Call.within_eq_ok.mp h
        exact .registry fun _ => RegistryV101.govern_sameRecords call hs'
    | registryV102 call =>
        obtain ⟨b, h, -⟩ := answering_eq_ok.mp hexec
        obtain ⟨r', hr', rfl⟩ := Call.within_eq_ok.mp h
        exact .registry fun _ => RegistryV102.govern_sameRecords hr'
    | writeV101 call =>
        obtain ⟨b, h, -⟩ := answering_eq_ok.mp hexec
        obtain ⟨s', -, rfl⟩ := Call.within_eq_ok.mp h
        exact .registry fun hdirect => absurd trivial hdirect
    | writeV102 call =>
        obtain ⟨b, h, -⟩ := answering_eq_ok.mp hexec
        obtain ⟨r', -, rfl⟩ := Call.within_eq_ok.mp h
        exact .registry fun hdirect => absurd trivial hdirect
    | mockAddBurnchainBlockHeaderHash burnHeight hash =>
        obtain ⟨b, h, -⟩ := answering_eq_ok.mp hexec
        obtain ⟨m, -, rfl⟩ := Call.within_eq_ok.mp h
        exact .mock
  all_goals
    -- refused: nothing is written, nothing is logged
    have hnext : (deployment P).next w ⟨env, sender, call⟩ = w :=
      exec_atomic P _ w fun a => by rw [hexec]; nofun
    have hanswer : answer P w ⟨env, sender, call⟩ = _ := congrArg Prod.fst hexec
    have hlog : (deployment P).log w ⟨env, sender, call⟩ = [] := by
      show accepted P w ⟨env, sender, call⟩ = _
      unfold accepted
      rw [hanswer]
      cases call <;> rfl
    rw [hnext, hlog]
    exact .refused

/-! What the accepted elements do to the records decides what the records are. -/

section Records
variable {P} (Inv : List SignedTx → Registries → Prop)

theorem records_batch {w : World} {env : Env} {log : List SignedTx}
    (hindex : ∀ es before e after, log = before ++ e :: after →
      Oracle.Accepts P env (Oracle.indexAll P w before) e →
      Inv es (Oracle.indexAll P w before).registries →
      Inv (es ++ [e]) ((Oracle.indexAll P w before).registries.index e))
    {es before rest : List SignedTx} (hlog : log = before ++ rest)
    (haccepts : Oracle.AcceptsAll P env (Oracle.indexAll P w before) rest)
    (hinv : Inv es (Oracle.indexAll P w before).registries) :
    Inv (es ++ rest) (Oracle.indexAll P w (before ++ rest)).registries := by
  induction rest generalizing es before with
  | nil =>
      rw [List.append_nil, List.append_nil]
      exact hinv
  | cons e rest ih =>
      -- the element joins the ones before the rest
      have hlast : Oracle.indexAll P w (before ++ [e]) =
          Oracle.index P (Oracle.indexAll P w before) e := Oracle.indexAll_append P w before [e]
      have hnext := hindex es before e rest hlog haccepts.1 hinv
      rw [List.append_cons] at hlog
      have hrest := ih hlog (by rw [hlast]; exact haccepts.2) (by rw [hlast]; exact hnext)
      rwa [← List.append_cons, ← List.append_cons] at hrest

/-- **A relation between the accepted elements and the records that every accepted
element keeps holds after every run in which nobody writes past the oracle.**  An
element is met in the storage the ones before it in its batch left. -/
theorem records_run {Ok : World → Transaction → Prop}
    (hsame : ∀ es r r', r.SameRecords r' → Inv es r → Inv es r')
    (hindex : ∀ es w t before e after, Ok w t →
      (deployment P).log w t = before ++ e :: after →
      Oracle.Accepts P t.env (Oracle.indexAll P w before) e →
      Inv es (Oracle.indexAll P w before).registries →
      Inv (es ++ [e]) ((Oracle.indexAll P w before).registries.index e))
    {w : World} {ts : List Transaction} (hdirect : ∀ t ∈ ts, ¬ t.call.IsDirectWrite)
    (hok : (deployment P).Along Ok w ts) (hinv : Inv [] w.registries) :
    Inv ((deployment P).history w ts) ((deployment P).run w ts).registries := by
  have hall : (deployment P).Along (fun w t => ¬ t.call.IsDirectWrite ∧ Ok w t) w ts :=
    hok.mono fun w t ht h => ⟨hdirect t ht, h⟩
  refine Machine.history_invariant (fun es (w : World) => Inv es w.registries) ?_ hall hinv
  intro es w t hw hes
  have hstep := step_next P w t
  have hbatch := fun es before e after => hindex es w t before e after hw.2
  generalize (deployment P).next w t = w', (deployment P).log w t = new at hstep hbatch ⊢
  cases hstep with
  | @indexed txMany hcall hpaused hrelayer haccepts =>
      exact records_batch Inv hbatch (List.nil_append txMany.elements).symm haccepts hes
  | refused =>
      rw [List.append_nil]
      exact hes
  | governed hcall howner hgoverned =>
      rw [List.append_nil]
      exact hes
  | mock =>
      rw [List.append_nil]
      exact hes
  | registry hdata =>
      rw [List.append_nil]
      exact hsame es _ _ (hdata hw.1) hes

end Records

/-- An element of an accepted batch is accepted in the storage its predecessors left. -/
theorem accepts_of_answer {w : World} {t : Transaction} {txMany : TxMany} {a : Answer}
    {before after : List SignedTx} {e : SignedTx} (hcall : t.call = .indexTxMany txMany)
    (hok : answer P w t = .ok a) (helements : txMany.elements = before ++ e :: after) :
    Oracle.Accepts P t.env (Oracle.indexAll P w before) e := by
  obtain ⟨env, sender, call⟩ := t
  subst hcall
  obtain ⟨b, hmany, -⟩ := answering_eq_ok.mp (exec_eq P hok)
  obtain ⟨-, -, haccepts, -, -⟩ := (Oracle.indexTxMany_eq_ok P env).mp hmany
  rw [helements] at haccepts
  exact ((Oracle.AcceptsAll.append_iff P env).mp haccepts).2.1

/-- What a run logs that ends with an accepted batch. -/
theorem history_append_of_answer {w : World} {ts : List Transaction} {t : Transaction}
    {txMany : TxMany} {a : Answer} (hcall : t.call = .indexTxMany txMany)
    (hok : answer P ((deployment P).run w ts) t = .ok a) :
    (deployment P).history w (ts ++ [t]) = (deployment P).history w ts ++ txMany.elements := by
  have hlog : (deployment P).log ((deployment P).run w ts) t = txMany.elements := by
    show accepted P ((deployment P).run w ts) t = txMany.elements
    unfold accepted
    rw [hcall, hok]
  rw [Machine.history_append, Machine.history_cons, hlog, Machine.history_nil, List.append_nil]

/-! What a batch leaves of the oracle's own storage. -/

theorem indexAll_validators (w : World) (es : List SignedTx) :
    (Oracle.indexAll P w es).oracle.validators = w.oracle.validators := by
  induction es generalizing w with
  | nil => rfl
  | cons e es ih =>
      rw [Oracle.indexAll_cons, ih]
      rfl

theorem indexAll_requiredValidators (w : World) (es : List SignedTx) :
    (Oracle.indexAll P w es).oracle.requiredValidators = w.oracle.requiredValidators := by
  induction es generalizing w with
  | nil => rfl
  | cons e es ih =>
      rw [Oracle.indexAll_cons, ih]
      rfl

theorem indexAll_approvedRelayers (w : World) (es : List SignedTx) :
    (Oracle.indexAll P w es).oracle.approvedRelayers = w.oracle.approvedRelayers := by
  induction es generalizing w with
  | nil => rfl
  | cons e es ih =>
      rw [Oracle.indexAll_cons, ih]
      rfl

end World

/-! ## A small deployment

One guardian and one relayer; the wallets and the guardian's key are those of the
repository's tests.  The signatures on the sample events are real ones, and
`recover` knows them and no others. -/

namespace Sample

/-- The chain of the tests, where nothing is verified as mined. -/
def testnet : Env where
  chainId := 0x80000000
  burnHeaderHash := fun _ => none

def deployer : Principal :=
  .standard ⟨bytesBe 21 0x1a6d78de7b0625dfbfc16c3a8a5735f6dc3dc3f2ce, by decide⟩

def guardian : Principal :=
  .standard ⟨bytesBe 21 0x1a7321b74e2b6a7e949e6c4ad313035b1665095017, by decide⟩

def relayer : Principal :=
  .standard ⟨bytesBe 21 0x1a99e2ec69ac5b6e67b4e26edd0e2c1c1a6b9bbd23, by decide⟩

def guardianKey : Buff 33 :=
  ⟨bytesBe 33 0x03cd2cfdbd2ad9332828a7a13ef62cb999e063421c708e863a7ffed71fb61c88c9, by decide⟩

/-- The calls that open the deployment for indexing. -/
def setup (env : Env) : List Transaction := [
  ⟨env, deployer, .registryV101 (.setPaused false)⟩,
  ⟨env, deployer, .registryV101 (.setContractOwner (.deployed .oracleRegistryV102))⟩,
  ⟨env, deployer, .registryV102 (.setPaused false)⟩,
  ⟨env, deployer, .registryV102 (.approveOperator (.deployed .oracleV106) true)⟩,
  ⟨env, deployer, .oracle (.setPaused false)⟩,
  ⟨env, deployer, .oracle (.addValidator guardianKey guardian)⟩,
  ⟨env, deployer, .oracle (.setRequiredValidators 1)⟩,
  ⟨env, deployer, .oracle (.approveRelayer relayer true)⟩]

/-- A submission of a batch by the relayer. -/
def submit (env : Env) (txMany : TxMany) : Transaction := ⟨env, relayer, .indexTxMany txMany⟩

def alice : Buff 128 := ⟨[0x51], by decide⟩
def bob : Buff 128 := ⟨[0x52], by decide⟩
def carol : Buff 128 := ⟨[0x53], by decide⟩

def bitcoinTxA : Buff 8192 := ⟨0x01 :: 0x00 :: 0x00 :: 0x00 :: 0x01 :: (bytesBe 32
    0x1111111111111111111111111111111111111111111111111111111111111111 ++
  bytesBe 24 0x0000000000ffffffff01e803000000000000015100000000), by decide⟩

def bitcoinTxB : Buff 8192 := ⟨0x01 :: 0x00 :: 0x00 :: 0x00 :: 0x01 :: (bytesBe 32
    0x2222222222222222222222222222222222222222222222222222222222222222 ++
  bytesBe 24 0x0000000000ffffffff01d007000000000000015200000000), by decide⟩

/-- A recoverable signature. -/
def signature (r s : Nat) (recoveryId : UInt8) : Buff 65 :=
  ⟨bytesBe 32 r ++ (bytesBe 32 s ++ [recoveryId]), by simp⟩

/-- A pack of the guardian. -/
def guardianPack (txHash : Nat) (signature : Buff 65) : SignaturePack where
  signer := guardian
  txHash := ⟨bytesBe 32 txHash, by simp⟩
  signature := signature

def signatureAB : Buff 65 :=
  signature 0x239a0f6ddc56e11087b00c378363c763c31cd518c48990fe3cfd460b496f1b07
    0x7bb15a16f38f624aa4a31d86374b084632f59ebb64365eefad374933026b6eb9 1

/-- A transfer of 5 from Alice to Bob. -/
def transferAB : SignedTx where
  tx := ⟨bitcoinTxA, 0, 0, ⟨['o', 'r', 'd', 'i'], by decide⟩, 5, alice, bob, 95, 5, 18⟩
  block := ⟨⟨[], by decide⟩, 100⟩
  proof := ⟨0, [], 0, by decide⟩
  signaturePacks := [guardianPack
    0x1fcec733217d0c4f6ed09f39b929bfbf3e696d864f02cdfebdfc2607a3197233 signatureAB]
  signaturePacks_length := by decide

def signatureBA : Buff 65 :=
  signature 0x24467e6bcdca6023d690527b3b6bc0ab2be60425a00e96c25a92ef57144a3e59
    0x5a2e0213b95a5268eee863d7e4b7287435aa77f6bd713de408adbdbfbe5d8130 1

/-- A transfer of 2 back, one block later. -/
def transferBA : SignedTx where
  tx := ⟨bitcoinTxB, 0, 0, ⟨['o', 'r', 'd', 'i'], by decide⟩, 2, bob, alice, 3, 97, 18⟩
  block := ⟨⟨[], by decide⟩, 101⟩
  proof := ⟨0, [], 0, by decide⟩
  signaturePacks := [guardianPack
    0x5a7dbb3058c7f668e36f6ac45b2954c65bfc507df81637e2df4520ce8699d230 signatureBA]
  signaturePacks_length := by decide

def signatureAC : Buff 65 :=
  signature 0xcde0c25e777ecbd6caad3c9b95d1da0058fe3f36618e6222e2669632918427b6
    0x35f782d09f8bb4db3e02ddc34e80667ebfd55f6d3e7be01b29797230b3165aa9 0

/-- The first transfer with another receiver: a different event under the same key. -/
def transferAC : SignedTx where
  tx := ⟨bitcoinTxA, 0, 0, ⟨['o', 'r', 'd', 'i'], by decide⟩, 5, alice, carol, 95, 5, 18⟩
  block := ⟨⟨[], by decide⟩, 100⟩
  proof := ⟨0, [], 0, by decide⟩
  signaturePacks := [guardianPack
    0x5acd1cc1aa7ceef978e0a94e62ff45f7ddd6390c352bd210b136cee53c8b228a signatureAC]
  signaturePacks_length := by decide

/-! The same on the main chain, in a block of two transactions. -/

/-- The block at height 800000: the transactions `bitcoinTxA` and `bitcoinTxB`. -/
def header : Buff 80 :=
  ⟨bytesBe 4 0x00000020 ++ (bytesBe 32 0 ++
    (bytesBe 32 0x7d3f5dfaec81983d5750eab3f2ee1a68fbd507190f36238c7162845334df328c ++
      bytesBe 12 0x00f15365ffff7f2000000000)), by simp⟩

/-- The main chain, as far as it matters here: of every other height nothing is known. -/
def mainnet : Env where
  chainId := 1
  burnHeaderHash := fun height =>
    if height = 800000 then
      some ⟨bytesBe 32 0x8e6e5c085e6a9522ce473660142070ece4f3261865a051d6cf087e863c775c0f,
        by simp⟩
    else none

/-- The proof of the first transaction of the block. -/
def proofA : ClarityBitcoin.Proof where
  txIndex := 0
  hashes := [⟨bytesBe 32 0x904cca9d22777868c96aeeef7089503d568546aa175885ad2d11b6cb4bd1a420,
    by simp⟩]
  treeDepth := 1
  hashes_length := by decide

def minedSignatureAB : Buff 65 :=
  signature 0xf557b6d7e8222aeb721c4e96deeeac5a567eeb943995b50e0858b7872b56a2b2
    0x45f4b3a3acac23cb6920d37cff24381470f27f3e5fd4370ad21938e2a5f9db06 1

/-- The transfer from Alice to Bob, where it was mined. -/
def minedAB : SignedTx where
  tx := transferAB.tx
  block := ⟨header, 800000⟩
  proof := proofA
  signaturePacks := [guardianPack
    0x1fcec733217d0c4f6ed09f39b929bfbf3e696d864f02cdfebdfc2607a3197233 minedSignatureAB]
  signaturePacks_length := by decide

def misplacedSignatureBA : Buff 65 :=
  signature 0xef3aab4b830d8024d229ce294a02ecebb3e5e79faf0319ca6e95207311c4e0ef
    0x4b1e9a271ef59cf2c0cbbb41ab53cb5b278f003cd220cd78829da372cdc5c50d 0

/-- A transfer back in the same Bitcoin transaction, submitted with no header and no
proof, at a height of the relayer's choice. -/
def misplacedBA : SignedTx where
  tx := ⟨bitcoinTxA, 0, 1, ⟨['o', 'r', 'd', 'i'], by decide⟩, 2, bob, alice, 3, 97, 18⟩
  block := ⟨⟨[], by decide⟩, 900000⟩
  proof := ⟨0, [], 0, by decide⟩
  signaturePacks := [guardianPack
    0xc6f969a21a5d74cab18d66036aa38104a23d477a3a29baf534e85f236fec40bd misplacedSignatureBA]
  signaturePacks_length := by decide

/-- `bitcoinTxA` with marker, flag and a witness of one byte. -/
def segwitTxA (witness : UInt8) : Buff 8192 := ⟨0x01 :: 0x00 :: 0x00 :: 0x00 :: 0x00 :: 0x01 ::
  0x01 :: (bytesBe 32 0x1111111111111111111111111111111111111111111111111111111111111111 ++
    (bytesBe 22 0x0000000000ffffffff01e80300000000000001510101 ++ witness :: bytesBe 4 0)),
  by simp⟩

/-- The transfer from Alice to Bob, with the Bitcoin transaction in segwit form. -/
def segwitAB (witness : UInt8) (txHash : Nat) (signature : Buff 65) : SignedTx where
  tx := { transferAB.tx with bitcoinTx := segwitTxA witness }
  block := ⟨header, 800000⟩
  proof := proofA
  signaturePacks := [guardianPack txHash signature]
  signaturePacks_length := by simp

def witnessedSignatureAB : Buff 65 :=
  signature 0xf35987179137432523c4d6175809c25d8e4ea12d5b31af79caf17f568d246897
    0x07bc5f20e6f9fa4a46391ce0d0cef0f851c89590ece829d6e25a05563484f72c 1

def witnessedAB : SignedTx := segwitAB 0xaa
  0x0a32e95a6f3b5eeb9327a8bcd332fe8459c121a74019c6b37ea88df9fe05aeca witnessedSignatureAB

def malleatedSignatureAB : Buff 65 :=
  signature 0x217d7116a6cd7df8bfbb9e8dbb9e323c4cf2857028919f3f5ddb6e07748d66ee
    0x2650065bf8c36e73a47832af256d1ddc986da3a0b87c21f16b72926a4697d8f8 0

/-- With another witness. -/
def malleatedAB : SignedTx := segwitAB 0xbb
  0x5c3c413973a1b2b86828f50f1248ebe81b10624657e2d3d0bc1e2417ae818399 malleatedSignatureAB

/-- Signature recovery for the messages signed above: the key of the guardian. -/
def recover (message signature : Bytes) : Except Nat Bytes :=
  if (message, signature) ∈ [
      (bytesBe 32 0x515cb3ff1bd26a5adb7bd3f86258e92a49094bbd4f60aed48bf4d0e28782ce58,
        signatureAB.bytes),
      (bytesBe 32 0x519684c9bf7ed098a1ee92504482453802ee8a7836477c0136035a10a027943c,
        signatureBA.bytes),
      (bytesBe 32 0xa67e1540aab3672e391396731e29a3e8c35219fdef317f0bbbe23ef2028cdbba,
        signatureAC.bytes),
      (bytesBe 32 0xbb55f14f1a4505cd1366b8d3b0b92a2dc4bbd89984d681b89e552d997559ba5f,
        minedSignatureAB.bytes),
      (bytesBe 32 0xc43369f3c89dccfe5e73fbc13045f490148304005e8b163511b244a78087d9b2,
        misplacedSignatureBA.bytes),
      (bytesBe 32 0x45582ec5a640fae9eaac433e36c2253bd096f4af6f17ca468952e89177dfb102,
        witnessedSignatureAB.bytes),
      (bytesBe 32 0x7139960b7e6bfa195f618bd94d14fd79fb0d22a3f4ed8f4b68d337ad1aa40c0f,
        malleatedSignatureAB.bytes)] then
    .ok guardianKey.bytes
  else .error 1

def primitives : Primitives := Sha256.primitives recover

open World in
/-- Nothing is indexed before the first batch. -/
theorem history_setup (w : World) (env : Env) :
    (deployment primitives).history w (setup env) = [] := rfl

/-- Both transfers, in one batch. -/
def transfers : List Transaction :=
  setup testnet ++ [submit testnet ⟨[transferAB, transferBA], by decide⟩]

open World in
theorem answer_transfers :
    answer primitives ((deployment primitives).run (deployed deployer) (setup testnet))
      (submit testnet ⟨[transferAB, transferBA], by decide⟩) = .ok (.bool true) := by
  decide +kernel

open World in
theorem history_transfers :
    (deployment primitives).history (deployed deployer) transfers = [transferAB, transferBA] := by
  unfold transfers
  rw [history_append_of_answer primitives rfl answer_transfers, history_setup]
  rfl

/-- Both transfers, the later one first and each in its own batch. -/
def swappedTransfers : List Transaction :=
  setup testnet ++ [submit testnet ⟨[transferBA], by decide⟩,
    submit testnet ⟨[transferAB], by decide⟩]

end Sample
end BitcoinOracle
