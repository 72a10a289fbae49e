import BitcoinOracle.Registry
import BitcoinOracle.BitcoinProof
import BitcoinOracle.ConsensusBuff
import BitcoinOracle.Sha256

/-! # The oracle

`oracle-v1-06`: guardians sign BRC20 events, relayers submit them in batches, and
the contract checks that the Bitcoin transaction was mined and enough registered
validators signed before it writes the event and the balances to the registry.

Every external function is a transaction on the storage of all contracts, since
indexing calls into the registry, under the oracle's own principal.
-/
namespace BitcoinOracle
open Clarity

/-- `tx`: a BRC20 event. -/
structure Tx where
  bitcoinTx : Buff 8192
  output : Uint
  offset : Uint
  tick : Tick
  amt : Uint
  fromUser : Buff 128
  toUser : Buff 128
  fromBal : Uint
  toBal : Uint
  decimals : Uint
  deriving DecidableEq

/-- `signature-pack`. -/
structure SignaturePack where
  signer : Principal
  txHash : Buff 32
  signature : Buff 65
  deriving DecidableEq

/-- `signed-tx`: one element of a batch. -/
structure SignedTx where
  tx : Tx
  block : ClarityBitcoin.Block
  proof : ClarityBitcoin.Proof
  signaturePacks : List SignaturePack
  signaturePacks_length : signaturePacks.length ≤ 10
  deriving DecidableEq

/-- `tx-many`: a batch. -/
structure TxMany where
  elements : List SignedTx
  elements_length : elements.length ≤ 25

namespace Oracle

def errNotAuthorized : Nat := 1000
def errUnknownValidator : Nat := 1001
def errPaused : Nat := 1002
def errUknownRelayer : Nat := 1003
def errRequiredValidators : Nat := 1004
def errValidatorAlreadyRegistered : Nat := 1005
def errDuplicateSignature : Nat := 1006
def errOrderHashMismatch : Nat := 1007
def errInvalidSignature : Nat := 1008
def errBitcoinTxNotMined : Nat := 1009

def maxUint : Uint := ⟨340282366920938463463374607431768211455, by decide⟩
def maxRequiredValidators : Nat := 10

def structuredDataPrefix : Bytes := bytesBe 6 0x534950303138

def messageDomainMainnet : Bytes :=
  bytesBe 32 0x6d11cd301d11961e7cfeabd61e3f4da17f42f3d627362c8878aa9cbb5c532be2

def messageDomainTestnet : Bytes :=
  bytesBe 32 0x84deb9a3b41b870d85819000deefa999f43b1bf2c3d80c3ea19d4b83b7b10fbc

/-- The key of `tx-validated-by`. -/
structure ValidatedBy where
  txHash : Buff 32
  validator : Principal
  deriving DecidableEq

structure State where
  contractOwner : Principal
  approvedRelayers : DataMap Principal Bool
  isPaused : Bool
  validators : DataMap Principal (Buff 33)
  validatorCount : Uint
  requiredValidators : Uint
  txValidatedBy : DataMap ValidatedBy Bool
  txHashToIter : Buff 32

/-- The state at deployment by `sender`. -/
def State.deployed (sender : Principal) : State where
  contractOwner := sender
  approvedRelayers := .empty
  isPaused := true
  validators := .empty
  validatorCount := 0
  requiredValidators := maxUint
  txValidatedBy := .empty
  txHashToIter := ⟨[], by decide⟩

end Oracle

/-- The storage of all contracts of the deployment. -/
structure World where
  oracle : Oracle.State
  registries : Registries
  mockHeaders : ClarityBitcoin.MockHeaders

namespace Oracle
variable (P : Primitives) (env : Env)

/-! ## Governance functions -/

/-- A call on the oracle's own storage. -/
def onOracle {α : Type} (c : Call State α) : Call World α :=
  .within World.oracle (fun s w => { w with oracle := s }) c

def checkIsOwner (sender : Principal) : Call State Unit := do
  let s ← Call.view id
  Call.lift (.asserts (s.contractOwner = sender) errNotAuthorized)

def setPaused (sender : Principal) (paused : Bool) : Call State Bool :=
  .transaction do
    checkIsOwner sender
    Call.modify fun s => { s with isPaused := paused }
    pure true

def addValidator (sender : Principal) (validatorPubkey : Buff 33) (validator : Principal) :
    Call State Uint :=
  .transaction do
    checkIsOwner sender
    let s ← Call.view id
    Call.lift (.asserts (s.validators validator = none) errValidatorAlreadyRegistered)
    Call.modify fun s => { s with validators := s.validators.set validator validatorPubkey }
    let count ← Call.lift (addUint 1 s.validatorCount)
    Call.modify fun s => { s with validatorCount := count }
    pure count

def removeValidator (sender validator : Principal) : Call State Uint :=
  .transaction do
    checkIsOwner sender
    let s ← Call.view id
    Call.lift (.asserts ((s.validators validator).isSome = true) errUnknownValidator)
    Call.modify fun s => { s with validators := s.validators.delete validator }
    let count ← Call.lift (subUint s.validatorCount 1)
    Call.modify fun s => { s with validatorCount := count }
    pure count

def approveRelayer (sender relayer : Principal) (approved : Bool) : Call State Bool :=
  .transaction do
    checkIsOwner sender
    Call.modify fun s => { s with approvedRelayers := s.approvedRelayers.set relayer approved }
    pure true

def setRequiredValidators (sender : Principal) (newRequiredValidators : Uint) :
    Call State Bool :=
  .transaction do
    checkIsOwner sender
    Call.lift (.asserts (newRequiredValidators.val < maxRequiredValidators) errRequiredValidators)
    Call.modify fun s => { s with requiredValidators := newRequiredValidators }
    pure true

def setContractOwner (sender owner : Principal) : Call State Bool :=
  .transaction do
    checkIsOwner sender
    Call.modify fun s => { s with contractOwner := owner }
    pure true

/-! ## Read-only functions -/

def messageDomain : Bytes :=
  if env.chainId = 1 then messageDomainMainnet else messageDomainTestnet

def getValidatorOrFail (s : State) (validator : Principal) : Result (Buff 33) :=
  .unwrap (s.validators validator) errUnknownValidator

/-- `(to-consensus-buff? tx)`, which of an event always is a `some`. -/
def serializeTx (tx : Tx) : Bytes :=
  serializeTuple [
    ("amt".toList, serializeUint tx.amt),
    ("bitcoin-tx".toList, serializeBuff tx.bitcoinTx),
    ("decimals".toList, serializeUint tx.decimals),
    ("from".toList, serializeBuff tx.fromUser),
    ("from-bal".toList, serializeUint tx.fromBal),
    ("offset".toList, serializeUint tx.offset),
    ("output".toList, serializeUint tx.output),
    ("tick".toList, serializeStringUtf8 tx.tick),
    ("to".toList, serializeBuff tx.toUser),
    ("to-bal".toList, serializeUint tx.toBal)]

/-- A digest, as a value of type `(buff 32)`. -/
def digest (m : Bytes) : Buff 32 := ⟨P.sha256 m, le_of_eq (P.sha256_length m)⟩

def hashTx (tx : Tx) : Buff 32 := digest P (serializeTx tx)

/-- The transfer of `oracle_test.ts`, and the hash its validators signed. -/
example : (hashTx (Sha256.primitives fun _ _ => .error 1)
    { bitcoinTx := ⟨
        bytesBe 36 0x020000000001023b60360302413eb08aa015bcc108474eaa2aa4b5fb1e420a4abc5c1704 ++
        bytesBe 36 0x10952e0000000000ffffffffad4836f6077e2a02a2ac0198a70374759f8fece545d2c0e1 ++
        bytesBe 36 0x2b5ba9ca9efc3fc50400000017160014770dea24279344035fbb90eab3a156b43c183dec ++
        bytesBe 36 0xffffffff022202000000000000225120c981bdfa5eaab9d6d0da158144e1c519411e76bf ++
        bytesBe 36 0x11e4c5deba73b358431b53b70a7300000000000017a914fe8b7a0c78c3af44ceea9e2b03 ++
        bytesBe 36 0x3d9220631ecf9e8701401442fa68d11c85791ffd3a7efa5ceedaa4bb51ee280c0b428f4c ++
        bytesBe 36 0xe2c6041261a1bee22084c073efff332d6264db9e84533d8aed41ddaee96cb166fdbb70a6 ++
        bytesBe 36 0x34f802483045022100eedf43522e4fb9c7c8aa1daddf31f2f48aaefb0741a14d5b1dc390 ++
        bytesBe 36 0x420b8bca2c02207718fe6f3dfd1291bc4cafd6ef73c58237df20528737029dd15f35d18d ++
        bytesBe 36 0x611ef6012103f7cefdc7515124973cb02a6f17704e254e08f6025636e68f43ebee86fe3c ++
        bytesBe 6 0x724100000000,
        by decide +kernel⟩
      output := 0
      offset := 0
      tick := ⟨['i', 'g', 'l', 'i'], by decide⟩
      amt := 2000000000000000000000
      fromUser := ⟨0x51 :: 0x20 ::
        bytesBe 32 0x53687745b1a04c2d74da5f1aa12d285df92626384fc5697de94ba6b9b9afee65, by decide⟩
      toUser := ⟨0x51 :: 0x20 ::
        bytesBe 32 0xc981bdfa5eaab9d6d0da158144e1c519411e76bf11e4c5deba73b358431b53b7, by decide⟩
      fromBal := 2000000000000000000000
      toBal := 2000000000000000000000
      decimals := 18 }).bytes =
    bytesBe 32 0xf2b6d8dd4ba6c1b0bc8d23a27e6516bc00ca35f17f60c175726bed2029faf543 := by
  decide +kernel

/-- The message a validator signs for an event. -/
def signedMessage (txHash : Buff 32) : Bytes :=
  P.sha256 (structuredDataPrefix ++ (messageDomain env ++ txHash.bytes))

def validateTx (s : State) (txHash : Buff 32) (signaturePack : SignaturePack) : Result Bool := do
  let validatorPubkey ← getValidatorOrFail s signaturePack.signer
  Result.asserts (s.txValidatedBy ⟨txHash, signaturePack.signer⟩ = none) errDuplicateSignature
  Result.asserts (txHash = signaturePack.txHash) errOrderHashMismatch
  Result.asserts ((P.secp256k1Recover (signedMessage P env txHash)
    signaturePack.signature.bytes).toOption = some validatorPubkey.bytes) errInvalidSignature
  pure true

def verifyMined (mock : ClarityBitcoin.MockHeaders) (tx : Buff 8192) (block : ClarityBitcoin.Block)
    (proof : ClarityBitcoin.Proof) : Result Bool :=
  if env.chainId = 1 then do
    let segwit ← ClarityBitcoin.isSegwitTx tx.bytes
    let response ← (if segwit then
        ClarityBitcoin.wasSegwitTxMined P env mock block tx.bytes proof
      else
        ClarityBitcoin.wasTxMined P env mock block tx.bytes proof).response
    match response with
    | .ok true => .ok true
    | _ => .err errBitcoinTxNotMined
  else
    -- if not mainnet, assume verified
    .ok true

/-! ## External functions -/

/-- `(as-contract (try! (contract-call? .oracle-registry-v1-02 ...)))`. -/
def registryCall (c : Principal → Call Registries Bool) : Call World Unit := do
  let _ ← Call.within World.registries (fun r w => { w with registries := r })
    (c (.deployed .oracleV106))
  pure ()

def validateSignatureIter (signaturePack : SignaturePack)
    (previousResponse : Except Nat Bool) : Call State Bool :=
  match previousResponse with
  | .ok _prevOk => do
      let s ← Call.view id
      let _ ← Call.lift (validateTx P env s s.txHashToIter signaturePack)
      Call.modify fun s => { s with
        txValidatedBy := s.txValidatedBy.set ⟨s.txHashToIter, signaturePack.signer⟩ true }
      pure true
  | .error prevErr => Call.lift (.err prevErr)

def indexTxIter (signedTx : SignedTx) (previousResponse : Except Nat Bool) : Call World Bool :=
  match previousResponse with
  | .ok _prevOk => do
      let w ← Call.view id
      let tx := signedTx.tx
      let signaturePacks := signedTx.signaturePacks
      let txHash := hashTx P tx
      let fromBal := RegistryV102.getUserBalanceOrDefault w.registries tx.fromUser tx.tick
      let toBal := RegistryV102.getUserBalanceOrDefault w.registries tx.toUser tx.tick
      let height := signedTx.block.height
      Call.lift (.asserts (w.oracle.requiredValidators.val ≤ signaturePacks.length)
        errRequiredValidators)
      let mined ← Call.lift
        (RegistryV102.getBitcoinTxMinedOrFail w.registries tx.bitcoinTx).response
      Call.whenever (mined.isOk = false) do
        let _ ← Call.lift
          (verifyMined P env w.mockHeaders tx.bitcoinTx signedTx.block signedTx.proof)
        registryCall fun self => RegistryV102.setTxMined self tx.bitcoinTx signedTx.block.height
      onOracle (Call.modify fun s => { s with txHashToIter := txHash })
      let _ ← onOracle (Call.fold (validateSignatureIter P env) signaturePacks (.ok true))
      registryCall fun self => RegistryV102.setTxIndexed self
        ⟨tx.bitcoinTx, tx.output, tx.offset⟩ ⟨tx.tick, tx.amt, tx.fromUser, tx.toUser⟩
      Call.whenever (fromBal.upToBlock.val < height.val) do
        registryCall fun self => RegistryV102.setUserBalance self
          ⟨tx.fromUser, tx.tick⟩ ⟨tx.fromBal, height⟩
      Call.whenever (toBal.upToBlock.val < height.val) do
        registryCall fun self => RegistryV102.setUserBalance self
          ⟨tx.toUser, tx.tick⟩ ⟨tx.toBal, height⟩
      registryCall fun self => RegistryV102.setTickDecimals self tx.tick tx.decimals
      pure true
  | .error prevErr => Call.lift (.err prevErr)

def indexTxMany (sender : Principal) (txMany : TxMany) : Call World Bool :=
  .transaction do
    let w ← Call.view id
    Call.lift (.asserts (¬ w.oracle.isPaused = true) errPaused)
    Call.lift (.asserts ((w.oracle.approvedRelayers sender).isSome = true) errUknownRelayer)
    Call.fold (indexTxIter P env) txMany.elements (.ok true)

end Oracle
end BitcoinOracle
