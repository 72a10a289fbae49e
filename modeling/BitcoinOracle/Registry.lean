import BitcoinOracle.ClarityData

/-! # The two registries

`oracle-registry-v1-01` holds the balances, the token decimals and the records of
the first oracles; `oracle-registry-v1-02` holds the records made since, for
Bitcoin transactions of up to 8192 bytes, and forwards everything else to the
first registry.  Its getters look into the first registry before its own maps; its
setters for records write its own maps only.

Every public function of either registry has one of two shapes, a guard on the
owner or a guard on the operators and the pause, around its own body.
-/
namespace BitcoinOracle
open Clarity

/-- The contracts of one deployment. -/
inductive ContractName where
  | clarityBitcoinV105
  | oracleRegistryV101
  | oracleRegistryV102
  | oracleV105
  | oracleV106
  deriving DecidableEq

inductive Principal where
  | standard (address : Buff 21)
  /-- A contract of this deployment. -/
  | deployed (name : ContractName)
  /-- Any other contract. -/
  | contract (issuer : Buff 21) (name : Bytes)
  deriving DecidableEq

/-- `(string-utf8 4)`. -/
abbrev Tick := StringUtf8 4

/-- The key of `bitcoin-tx-indexed`; its `tx-hash` is the whole transaction. -/
structure IndexedKey (n : Nat) where
  txHash : Buff n
  output : Uint
  offset : Uint
  deriving DecidableEq

/-- The value of `bitcoin-tx-indexed`; `from` and `to` are users. -/
structure IndexedTx where
  tick : Tick
  amt : Uint
  fromUser : Buff 128
  toUser : Buff 128
  deriving DecidableEq

/-- The key of `user-balance`. -/
structure UserTick where
  user : Buff 128
  tick : Tick
  deriving DecidableEq

/-- The value of `user-balance`. -/
structure UserBalance where
  balance : Uint
  upToBlock : Uint
  deriving DecidableEq

namespace Registry

/-! The error codes of both registries. -/

def errNotAuthorized : Nat := 1000
def errPaused : Nat := 1001
def errTxNotMined : Nat := 1002
def errTxNotIndexed : Nat := 1003

end Registry

open Registry

namespace RegistryV101

structure State where
  contractOwner : Principal
  approvedOperators : DataMap Principal Bool
  isPaused : Bool
  bitcoinTxMined : DataMap (Buff 4096) Uint
  bitcoinTxIndexed : DataMap (IndexedKey 4096) IndexedTx
  userBalance : DataMap UserTick UserBalance
  tickDecimals : DataMap Tick Uint

/-- The state at deployment by `sender`. -/
def State.deployed (sender : Principal) : State where
  contractOwner := sender
  approvedOperators := .empty
  isPaused := true
  bitcoinTxMined := .empty
  bitcoinTxIndexed := .empty
  userBalance := .empty
  tickDecimals := .empty

def getApprovedOperatorOrDefault (s : State) (operator : Principal) : Bool :=
  (s.approvedOperators operator).getD false

def getUserBalanceOrDefault (s : State) (user : Buff 128) (tick : Tick) : UserBalance :=
  (s.userBalance ⟨user, tick⟩).getD ⟨0, 0⟩

def getTickDecimalsOrDefault (s : State) (tick : Tick) : Uint := (s.tickDecimals tick).getD 18

def getBitcoinTxMinedOrFail (s : State) (tx : Buff 4096) : Result Uint :=
  .unwrap (s.bitcoinTxMined tx) errTxNotMined

def getBitcoinTxIndexedOrFail (s : State) (bitcoinTx : Buff 4096) (output offset : Uint) :
    Result IndexedTx :=
  .unwrap (s.bitcoinTxIndexed ⟨bitcoinTx, output, offset⟩) errTxNotIndexed

def checkIsOwner (sender : Principal) : Call State Unit := do
  let s ← Call.view id
  Call.lift (.asserts (s.contractOwner = sender) errNotAuthorized)

def checkIsApproved (sender : Principal) : Call State Unit := do
  let s ← Call.view id
  Call.lift (.asserts (getApprovedOperatorOrDefault s sender = true ∨ s.contractOwner = sender)
    errNotAuthorized)

/-- The shape of the governance functions. -/
def governed (sender : Principal) (f : State → State) : Call State Bool :=
  .transaction do
    checkIsOwner sender
    Call.modify f
    pure true

/-- The shape of the privileged functions. -/
def privileged (sender : Principal) (f : State → State) : Call State Bool :=
  .transaction do
    checkIsApproved sender
    let s ← Call.view id
    Call.lift (.asserts (¬ s.isPaused = true) errPaused)
    Call.modify f
    pure true

def setPaused (sender : Principal) (paused : Bool) : Call State Bool :=
  governed sender fun s => { s with isPaused := paused }

def approveOperator (sender operator : Principal) (approved : Bool) : Call State Bool :=
  governed sender fun s =>
    { s with approvedOperators := s.approvedOperators.set operator approved }

def setContractOwner (sender owner : Principal) : Call State Bool :=
  governed sender fun s => { s with contractOwner := owner }

def setTickDecimals (sender : Principal) (tick : Tick) (decimals : Uint) : Call State Bool :=
  privileged sender fun s => { s with tickDecimals := s.tickDecimals.set tick decimals }

def setUserBalance (sender : Principal) (key : UserTick) (value : UserBalance) :
    Call State Bool :=
  privileged sender fun s => { s with userBalance := s.userBalance.set key value }

def setTxMined (sender : Principal) (key : Buff 4096) (value : Uint) : Call State Bool :=
  privileged sender fun s => { s with bitcoinTxMined := s.bitcoinTxMined.set key value }

def setTxIndexed (sender : Principal) (key : IndexedKey 4096) (value : IndexedTx) :
    Call State Bool :=
  privileged sender fun s => { s with bitcoinTxIndexed := s.bitcoinTxIndexed.set key value }

/-- `sender` may write, and the contract is not paused. -/
def State.MayWrite (s : State) (sender : Principal) : Prop :=
  (getApprovedOperatorOrDefault s sender = true ∨ s.contractOwner = sender) ∧ ¬ s.isPaused = true

instance (s : State) (sender : Principal) : Decidable (s.MayWrite sender) :=
  inferInstanceAs (Decidable (_ ∧ _))

theorem governed_eq_ok {sender : Principal} {f : State → State} {s s' : State} {b : Bool} :
    governed sender f s = (.ok b, s') ↔ s.contractOwner = sender ∧ b = true ∧ s' = f s := by
  simp [governed, checkIsOwner]

theorem privileged_eq_ok {sender : Principal} {f : State → State} {s s' : State} {b : Bool} :
    privileged sender f s = (.ok b, s') ↔ s.MayWrite sender ∧ b = true ∧ s' = f s := by
  simp [privileged, checkIsApproved, State.MayWrite, and_assoc]

end RegistryV101

namespace RegistryV102

structure State where
  contractOwner : Principal
  isPaused : Bool
  bitcoinTxMined : DataMap (Buff 8192) Uint
  bitcoinTxIndexed : DataMap (IndexedKey 8192) IndexedTx

/-- The state at deployment by `sender`. -/
def State.deployed (sender : Principal) : State where
  contractOwner := sender
  isPaused := true
  bitcoinTxMined := .empty
  bitcoinTxIndexed := .empty

end RegistryV102

/-- The storage of both registries: every call on the second may reach the first. -/
structure Registries where
  v101 : RegistryV101.State
  v102 : RegistryV102.State

namespace RegistryV102

/-- A call on the first registry, made by this contract (`as-contract`). -/
def onV101 (c : Principal → Call RegistryV101.State Bool) : Call Registries Bool :=
  .within Registries.v101 (fun t r => { r with v101 := t }) (c (.deployed .oracleRegistryV102))

def getApprovedOperatorOrDefault (r : Registries) (operator : Principal) : Bool :=
  RegistryV101.getApprovedOperatorOrDefault r.v101 operator

def getUserBalanceOrDefault (r : Registries) (user : Buff 128) (tick : Tick) : UserBalance :=
  RegistryV101.getUserBalanceOrDefault r.v101 user tick

def getTickDecimalsOrDefault (r : Registries) (tick : Tick) : Uint :=
  RegistryV101.getTickDecimalsOrDefault r.v101 tick

def getBitcoinTxMinedOrFail (r : Registries) (tx : Buff 8192) : Result Uint :=
  match tx.asMaxLen 4096 with
  | some someValue => do
      let legacy ← (RegistryV101.getBitcoinTxMinedOrFail r.v101 someValue).response
      match legacy with
      | .ok okValue => .ok okValue
      | .error _ => .unwrap (r.v102.bitcoinTxMined tx) errTxNotMined
  | none => .unwrap (r.v102.bitcoinTxMined tx) errTxNotMined

def getBitcoinTxIndexedOrFail (r : Registries) (bitcoinTx : Buff 8192) (output offset : Uint) :
    Result IndexedTx :=
  match bitcoinTx.asMaxLen 4096 with
  | some someValue => do
      let legacy ← (RegistryV101.getBitcoinTxIndexedOrFail r.v101 someValue output offset).response
      match legacy with
      | .ok okValue => .ok okValue
      | .error _ => .unwrap (r.v102.bitcoinTxIndexed ⟨bitcoinTx, output, offset⟩) errTxNotIndexed
  | none => .unwrap (r.v102.bitcoinTxIndexed ⟨bitcoinTx, output, offset⟩) errTxNotIndexed

def checkIsOwner (sender : Principal) : Call Registries Unit := do
  let r ← Call.view id
  Call.lift (.asserts (r.v102.contractOwner = sender) errNotAuthorized)

def checkIsApproved (sender : Principal) : Call Registries Unit := do
  let r ← Call.view id
  Call.lift (.asserts
    (getApprovedOperatorOrDefault r sender = true ∨ r.v102.contractOwner = sender)
    errNotAuthorized)

/-- The shape of the governance functions. -/
def governed (sender : Principal) (body : Call Registries Bool) : Call Registries Bool :=
  .transaction do
    checkIsOwner sender
    body

/-- The shape of the privileged functions. -/
def privileged (sender : Principal) (body : Call Registries Bool) : Call Registries Bool :=
  .transaction do
    checkIsApproved sender
    let r ← Call.view id
    Call.lift (.asserts (¬ r.v102.isPaused = true) errPaused)
    body

/-- `(ok (map-set ...))` or `(ok (var-set ...))` on this contract's own storage. -/
def write (f : State → State) : Call Registries Bool := do
  Call.modify fun r => { r with v102 := f r.v102 }
  pure true

def setPaused (sender : Principal) (paused : Bool) : Call Registries Bool :=
  governed sender (write fun s => { s with isPaused := paused })

def approveOperator (sender operator : Principal) (approved : Bool) : Call Registries Bool :=
  governed sender (onV101 fun self => RegistryV101.approveOperator self operator approved)

def setContractOwner (sender owner : Principal) : Call Registries Bool :=
  governed sender (write fun s => { s with contractOwner := owner })

def setPausedLegacy (sender : Principal) (paused : Bool) : Call Registries Bool :=
  governed sender (onV101 fun self => RegistryV101.setPaused self paused)

def setContractOwnerLegacy (sender owner : Principal) : Call Registries Bool :=
  governed sender (onV101 fun self => RegistryV101.setContractOwner self owner)

def setTickDecimals (sender : Principal) (tick : Tick) (decimals : Uint) : Call Registries Bool :=
  privileged sender (onV101 fun self => RegistryV101.setTickDecimals self tick decimals)

def setUserBalance (sender : Principal) (key : UserTick) (value : UserBalance) :
    Call Registries Bool :=
  privileged sender (onV101 fun self => RegistryV101.setUserBalance self key value)

def setTxMined (sender : Principal) (key : Buff 8192) (value : Uint) : Call Registries Bool :=
  privileged sender (write fun s => { s with bitcoinTxMined := s.bitcoinTxMined.set key value })

def setTxIndexed (sender : Principal) (key : IndexedKey 8192) (value : IndexedTx) :
    Call Registries Bool :=
  privileged sender
    (write fun s => { s with bitcoinTxIndexed := s.bitcoinTxIndexed.set key value })

end RegistryV102

/-! ## What the second registry reads and writes -/

namespace Registries

/-- `sender` may write to the second registry, and it is not paused. -/
def MayWrite (r : Registries) (sender : Principal) : Prop :=
  (RegistryV102.getApprovedOperatorOrDefault r sender = true ∨ r.v102.contractOwner = sender) ∧
    ¬ r.v102.isPaused = true

/-- The second registry may write to the first. -/
def MayForward (r : Registries) : Prop := r.v101.MayWrite (.deployed .oracleRegistryV102)

instance (r : Registries) (sender : Principal) : Decidable (r.MayWrite sender) :=
  inferInstanceAs (Decidable (_ ∧ _))

instance (r : Registries) : Decidable r.MayForward :=
  inferInstanceAs (Decidable (RegistryV101.State.MayWrite _ _))

def setMined (r : Registries) (key : Buff 8192) (value : Uint) : Registries :=
  { r with v102 := { r.v102 with bitcoinTxMined := r.v102.bitcoinTxMined.set key value } }

def setIndexed (r : Registries) (key : IndexedKey 8192) (value : IndexedTx) : Registries :=
  { r with v102 := { r.v102 with bitcoinTxIndexed := r.v102.bitcoinTxIndexed.set key value } }

def setBalance (r : Registries) (key : UserTick) (value : UserBalance) : Registries :=
  { r with v101 := { r.v101 with userBalance := r.v101.userBalance.set key value } }

def setDecimals (r : Registries) (tick : Tick) (decimals : Uint) : Registries :=
  { r with v101 := { r.v101 with tickDecimals := r.v101.tickDecimals.set tick decimals } }

/-- The entry of the first registry for a key of the second, if the key fits. -/
def legacyMined (r : Registries) (tx : Buff 8192) : Option Uint :=
  (tx.asMaxLen 4096).bind r.v101.bitcoinTxMined

/-- The entry of the first registry for a key of the second, if the key fits. -/
def legacyIndexed (r : Registries) (key : IndexedKey 8192) : Option IndexedTx :=
  (key.txHash.asMaxLen 4096).bind fun tx =>
    r.v101.bitcoinTxIndexed ⟨tx, key.output, key.offset⟩

/-- The height the second registry serves for a transaction. -/
def mined (r : Registries) (tx : Buff 8192) : Option Uint :=
  (r.legacyMined tx).or (r.v102.bitcoinTxMined tx)

/-- The record the second registry serves for a key. -/
def indexed (r : Registries) (key : IndexedKey 8192) : Option IndexedTx :=
  (r.legacyIndexed key).or (r.v102.bitcoinTxIndexed key)

end Registries

namespace RegistryV102

theorem getBitcoinTxMinedOrFail_eq (r : Registries) (tx : Buff 8192) :
    getBitcoinTxMinedOrFail r tx = .unwrap (r.mined tx) errTxNotMined := by
  unfold getBitcoinTxMinedOrFail Registries.mined Registries.legacyMined
    RegistryV101.getBitcoinTxMinedOrFail
  cases tx.asMaxLen 4096 with
  | none => rfl
  | some small =>
      cases h : r.v101.bitcoinTxMined small with
      | none => simp [h, Result.unwrap, Result.response]
      | some height => simp [h, Result.unwrap, Result.response]

theorem getBitcoinTxIndexedOrFail_eq (r : Registries) (tx : Buff 8192) (output offset : Uint) :
    getBitcoinTxIndexedOrFail r tx output offset =
      .unwrap (r.indexed ⟨tx, output, offset⟩) errTxNotIndexed := by
  unfold getBitcoinTxIndexedOrFail Registries.indexed Registries.legacyIndexed
    RegistryV101.getBitcoinTxIndexedOrFail
  dsimp only
  cases tx.asMaxLen 4096 with
  | none => rfl
  | some small =>
      cases h : r.v101.bitcoinTxIndexed ⟨small, output, offset⟩ with
      | none => simp [h, Result.unwrap, Result.response]
      | some record => simp [h, Result.unwrap, Result.response]

variable {sender : Principal} {r r' : Registries} {b : Bool}

theorem privileged_eq_ok {body : Call Registries Bool} :
    privileged sender body r = (.ok b, r') ↔ r.MayWrite sender ∧ body r = (.ok b, r') := by
  simp [privileged, checkIsApproved, Registries.MayWrite, and_assoc]

theorem governed_eq_ok {body : Call Registries Bool} :
    governed sender body r = (.ok b, r') ↔
      r.v102.contractOwner = sender ∧ body r = (.ok b, r') := by
  simp [governed, checkIsOwner]

theorem setTxMined_eq_ok {key : Buff 8192} {value : Uint} :
    setTxMined sender key value r = (.ok b, r') ↔
      r.MayWrite sender ∧ b = true ∧ r' = r.setMined key value := by
  simp [setTxMined, write, privileged_eq_ok, Registries.setMined]

theorem setTxIndexed_eq_ok {key : IndexedKey 8192} {value : IndexedTx} :
    setTxIndexed sender key value r = (.ok b, r') ↔
      r.MayWrite sender ∧ b = true ∧ r' = r.setIndexed key value := by
  simp [setTxIndexed, write, privileged_eq_ok, Registries.setIndexed]

theorem setUserBalance_eq_ok {key : UserTick} {value : UserBalance} :
    setUserBalance sender key value r = (.ok b, r') ↔
      r.MayWrite sender ∧ r.MayForward ∧ b = true ∧ r' = r.setBalance key value := by
  simp [setUserBalance, onV101, privileged_eq_ok, RegistryV101.setUserBalance,
    RegistryV101.privileged_eq_ok, Registries.MayForward, Registries.setBalance, and_assoc]

theorem setTickDecimals_eq_ok {tick : Tick} {decimals : Uint} :
    setTickDecimals sender tick decimals r = (.ok b, r') ↔
      r.MayWrite sender ∧ r.MayForward ∧ b = true ∧ r' = r.setDecimals tick decimals := by
  simp [setTickDecimals, onV101, privileged_eq_ok, RegistryV101.setTickDecimals,
    RegistryV101.privileged_eq_ok, Registries.MayForward, Registries.setDecimals, and_assoc]

end RegistryV102
end BitcoinOracle
