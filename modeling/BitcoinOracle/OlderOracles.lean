import BitcoinOracle.World

/-! # The oracles before `oracle-v1-06`

`oracle-v1-01` to `oracle-v1-05` are one text: they differ in the version of the
Bitcoin contract they ask whether a transaction was mined.  That contract is only
read, so a call carries what it answers.  Governance functions, signatures and storage
are those of `oracle-v1-06`; a Bitcoin transaction has at most 4096 bytes, and every
record and balance goes straight to `oracle-registry-v1-01`, under the oracle's own
principal.

`Estate` is the whole deployment, older oracles included.
-/
namespace BitcoinOracle
open Clarity

/-- The versions of the oracle that write to the first registry. -/
inductive OlderOracle where
  | v101
  | v102
  | v103
  | v104
  | v105
  deriving DecidableEq

namespace OlderOracle

/-- The name a version is deployed under. -/
def contractName : OlderOracle → String
  | v101 => "oracle-v1-01"
  | v102 => "oracle-v1-02"
  | v103 => "oracle-v1-03"
  | v104 => "oracle-v1-04"
  | v105 => "oracle-v1-05"

/-- The principal of a version, deployed by the account of address `issuer`. -/
def principal (issuer : Buff 21) : OlderOracle → Principal
  | v105 => .deployed .oracleV105
  | v => .contract issuer (v.contractName.toList.map fun c => UInt8.ofNat c.toNat)

/-- `tx`: a BRC20 event of a Bitcoin transaction of at most 4096 bytes. -/
structure Tx where
  bitcoinTx : Buff 4096
  output : Uint
  offset : Uint
  tick : Tick
  amt : Uint
  fromUser : Buff 128
  toUser : Buff 128
  fromBal : Uint
  toBal : Uint
  decimals : Uint

/-- The same event, with the buffer of `oracle-v1-06`. -/
def Tx.widen (tx : Tx) : BitcoinOracle.Tx where
  bitcoinTx := ⟨tx.bitcoinTx.bytes, le_trans tx.bitcoinTx.length_le (by decide)⟩
  output := tx.output
  offset := tx.offset
  tick := tx.tick
  amt := tx.amt
  fromUser := tx.fromUser
  toUser := tx.toUser
  fromBal := tx.fromBal
  toBal := tx.toBal
  decimals := tx.decimals

/-- `signed-tx`. -/
structure SignedTx where
  tx : Tx
  block : ClarityBitcoin.Block
  proof : ClarityBitcoin.Proof
  signaturePacks : List SignaturePack
  signaturePacks_length : signaturePacks.length ≤ 10

/-- `tx-many`. -/
structure TxMany where
  elements : List SignedTx
  elements_length : elements.length ≤ 25

/-- What `verify-mined` of the version called answers, in the transaction at hand. -/
abbrev VerifyMined := Buff 4096 → ClarityBitcoin.Block → ClarityBitcoin.Proof → Result Bool

/-- The storage an older oracle reads and writes. -/
structure Storage where
  oracle : Oracle.State
  registry : RegistryV101.State

variable (P : Primitives) (env : Env) (self : Principal) (verifyMined : VerifyMined)

/-- The serialization of a buffer does not depend on the bound of its type. -/
def hashTx (tx : Tx) : Buff 32 := Oracle.hashTx P tx.widen

def onOracle {α : Type} (c : Call Oracle.State α) : Call Storage α :=
  .within Storage.oracle (fun s w => { w with oracle := s }) c

/-- `(as-contract (try! (contract-call? .oracle-registry-v1-01 ...)))`. -/
def registryCall (c : Principal → Call RegistryV101.State Bool) : Call Storage Unit := do
  let _ ← Call.within Storage.registry (fun r w => { w with registry := r }) (c self)
  pure ()

def indexTxIter (signedTx : SignedTx) (previousResponse : Except Nat Bool) : Call Storage Bool :=
  match previousResponse with
  | .ok _prevOk => do
      let w ← Call.view id
      let tx := signedTx.tx
      let signaturePacks := signedTx.signaturePacks
      let txHash := hashTx P tx
      let fromBal := RegistryV101.getUserBalanceOrDefault w.registry tx.fromUser tx.tick
      let toBal := RegistryV101.getUserBalanceOrDefault w.registry tx.toUser tx.tick
      let height := signedTx.block.height
      Call.lift (.asserts (w.oracle.requiredValidators.val ≤ signaturePacks.length)
        Oracle.errRequiredValidators)
      let mined ← Call.lift (RegistryV101.getBitcoinTxMinedOrFail w.registry tx.bitcoinTx).response
      Call.whenever (mined.isOk = false) do
        let _ ← Call.lift (verifyMined tx.bitcoinTx signedTx.block signedTx.proof)
        registryCall self fun self =>
          RegistryV101.setTxMined self tx.bitcoinTx signedTx.block.height
      onOracle (Call.modify fun s => { s with txHashToIter := txHash })
      let _ ← onOracle
        (Call.fold (Oracle.validateSignatureIter P env) signaturePacks (.ok true))
      registryCall self fun self => RegistryV101.setTxIndexed self
        ⟨tx.bitcoinTx, tx.output, tx.offset⟩ ⟨tx.tick, tx.amt, tx.fromUser, tx.toUser⟩
      Call.whenever (fromBal.upToBlock.val < height.val) do
        registryCall self fun self => RegistryV101.setUserBalance self
          ⟨tx.fromUser, tx.tick⟩ ⟨tx.fromBal, height⟩
      Call.whenever (toBal.upToBlock.val < height.val) do
        registryCall self fun self => RegistryV101.setUserBalance self
          ⟨tx.toUser, tx.tick⟩ ⟨tx.toBal, height⟩
      registryCall self fun self => RegistryV101.setTickDecimals self tx.tick tx.decimals
      pure true
  | .error prevErr => Call.lift (.err prevErr)

def indexTxMany (sender : Principal) (txMany : TxMany) : Call Storage Bool :=
  .transaction do
    let w ← Call.view id
    Call.lift (.asserts (¬ w.oracle.isPaused = true) Oracle.errPaused)
    Call.lift (.asserts ((w.oracle.approvedRelayers sender).isSome = true)
      Oracle.errUknownRelayer)
    Call.fold (indexTxIter P env self verifyMined) txMany.elements (.ok true)

end OlderOracle

/-! ## What a batch does to the registry -/

/-- Owner, operators and pause flag are those of `s`. -/
def RegistryV101.State.SameRights (s s' : RegistryV101.State) : Prop :=
  s'.contractOwner = s.contractOwner ∧ s'.approvedOperators = s.approvedOperators ∧
    s'.isPaused = s.isPaused

namespace OlderOracle
section Keeps
variable (P : Primitives) (env : Env) (verifyMined : VerifyMined)
variable {self : Principal} {I : RegistryV101.State → Prop}

/-- A batch keeps whatever every privileged function, called by the oracle, keeps of
the registry. -/
theorem indexTxMany_keeps (hI : ∀ f : RegistryV101.State → RegistryV101.State,
      (∀ s : RegistryV101.State, s.SameRights (f s)) →
      (RegistryV101.privileged self f).Keeps I)
    (sender : Principal) (txMany : TxMany) :
    (indexTxMany P env self verifyMined sender txMany).Keeps fun w => I w.registry := by
  have honOracle : ∀ {α : Type} (c : Call Oracle.State α),
      (onOracle c).Keeps fun w => I w.registry := fun c =>
    .within (J := fun _ => True) (fun _ _ => trivial) (fun _ _ => trivial) fun _ _ hw _ => hw
  have hcall : ∀ f : RegistryV101.State → RegistryV101.State,
      (∀ s : RegistryV101.State, s.SameRights (f s)) →
      (registryCall self fun self => RegistryV101.privileged self f).Keeps fun w => I w.registry :=
    fun f hf => .bind (.within (hI f hf) (fun _ hw => hw) fun _ _ _ ht => ht) fun _ => .pure ()
  apply Call.Keeps.transaction
  refine .bind (.view _) fun w => .bind (.lift _) fun _ => .bind (.lift _) fun _ => ?_
  apply Call.Keeps.fold
  intro signedTx r
  cases r with
  | error e => exact .lift _
  | ok b =>
      refine .bind (.view _) fun w => .bind (.lift _) fun _ => .bind (.lift _) fun mined => ?_
      refine .bind (.whenever (.bind (.lift _) fun _ => ?_)) fun _ => ?_
      · exact hcall _ fun _ => ⟨rfl, rfl, rfl⟩
      refine .bind (honOracle _) fun _ => .bind (honOracle _) fun _ => ?_
      refine .bind (hcall _ fun _ => ⟨rfl, rfl, rfl⟩) fun _ => ?_
      refine .bind (.whenever (hcall _ fun _ => ⟨rfl, rfl, rfl⟩)) fun _ => ?_
      refine .bind (.whenever (hcall _ fun _ => ⟨rfl, rfl, rfl⟩)) fun _ => ?_
      exact .bind (hcall _ fun _ => ⟨rfl, rfl, rfl⟩) fun _ => .pure true

end Keeps
end OlderOracle

/-! ## The whole deployment -/

/-- A principal other than the contracts of the deployment, which make no calls but
those of their code. -/
def Principal.Outside (p : Principal) : Prop := ∀ name, p ≠ .deployed name

theorem Principal.standard_outside (address : Buff 21) : (Principal.standard address).Outside :=
  nofun

theorem Principal.deployed_not_outside (name : ContractName) :
    ¬ (Principal.deployed name).Outside := fun h => h name rfl

theorem Principal.contract_outside (issuer : Buff 21) (name : Bytes) :
    (Principal.contract issuer name).Outside := nofun

instance : DecidablePred Principal.Outside
  | .standard address => .isTrue (Principal.standard_outside address)
  | .deployed name => .isFalse (Principal.deployed_not_outside name)
  | .contract issuer name => .isTrue (Principal.contract_outside issuer name)

/-- The storage of all contracts, the older oracles included. -/
structure Estate where
  world : World
  older : OlderOracle → Oracle.State

namespace Estate

inductive PublicCall where
  | current (call : BitcoinOracle.PublicCall)
  | govern (version : OlderOracle) (call : Oracle.GovernanceCall)
  | indexTxMany (version : OlderOracle) (verifyMined : OlderOracle.VerifyMined)
      (txMany : OlderOracle.TxMany)

/-- A call from outside. -/
structure Transaction where
  env : Env
  sender : Principal
  outside : sender.Outside
  call : PublicCall

/-- The storage when all contracts are deployed by `sender`. -/
def deployed (sender : Principal) : Estate where
  world := .deployed sender
  older := fun _ => .deployed sender

/-- A call on an older oracle. -/
def onOlder {α : Type} (version : OlderOracle) (c : Call OlderOracle.Storage α) : Call Estate α :=
  .within (fun e => ⟨e.older version, e.world.registries.v101⟩)
    (fun s e => {
      world := { e.world with registries := { e.world.registries with v101 := s.registry } }
      older := Function.update e.older version s.oracle }) c

variable (P : Primitives) (issuer : Buff 21)

/-- The call of a transaction. -/
def exec (t : Transaction) : Call Estate Answer :=
  match t.call with
  | .current call => .within Estate.world (fun w e => { e with world := w })
      (World.exec P ⟨t.env, t.sender, call⟩)
  | .govern version call => onOlder version
      (.within OlderOracle.Storage.oracle (fun s w => { w with oracle := s })
        (Oracle.govern t.sender call))
  | .indexTxMany version verifyMined txMany => answering .bool (onOlder version
      (OlderOracle.indexTxMany P t.env (version.principal issuer) verifyMined t.sender txMany))

/-- The deployment; nothing is logged. -/
def deployment : Machine Estate Transaction Empty where
  next e t := (exec P issuer t e).2
  log _ _ := []

end Estate
end BitcoinOracle
