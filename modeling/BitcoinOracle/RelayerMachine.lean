import BitcoinOracle.LoggedRun
import BitcoinOracle.RelayerTables

/-! # Relayers at work

Relayers, the tables they share, the node and the chain.  Each relayer goes through
its round on its own: it selects the pending events, assesses them one after the
other in any order, marks what it found, and submits the batches through the loop of
`processOperations`.  In between, validators post, anybody sends transactions, the
node answers what it likes and confirms what it has accepted.

What has become of a broadcast is remembered beside the state of the code: whether
the node rejected it, or threw it out again, or the contract refused the batch.
-/
namespace BitcoinOracle
open Clarity KeyedTable Indexer

namespace Relayer

inductive ConflictingNonceStrategy where
  | increase
  | replace
  deriving DecidableEq

inductive RBFMode where
  | stages
  | estimate
  | function
  | off
  deriving DecidableEq

/-- The account of a relayer, and how it submits. -/
structure Account where
  principal : Principal
  address : Text
  maxTxPerBlock : Nat
  conflictingNonceStrategy : ConflictingNonceStrategy
  rbfMode : RBFMode

def TxManyInput.event (i : TxManyInput) : Event := ⟨i.tx.bitcoinTx, i.tx.output, i.tx.offset⟩

/-! ## A round -/

/-- What the assessed events were found to be. -/
structure Found where
  indexedTxs : List Event
  txErrors : List (Event × Text)
  txManyInputs : List TxManyInput

/-- `processOperations` between two of its calls to the node. -/
structure Session where
  /-- The batches that are still to be submitted. -/
  operations : List (List TxManyInput)
  nonce : Nat
  lastExecutedNonce : Nat
  currentMaxTxPerBlock : Int

inductive Round where
  | idle
  | assessing (c : Config) (todo : List PendingTx) (found : Found)
  | marking (found : Found)
  | processing (s : Session)

def Found.empty : Found := ⟨[], [], []⟩

/-- What the task of an event adds.  Nothing awaits the task, so that an exception in it
ends the process, and with it whatever the round has found. -/
def Found.add (found : Found) (e : Event) : Outcome → Option Found
  | .alreadyIndexed => some { found with indexedTxs := found.indexedTxs ++ [e] }
  | .waits => some found
  | .error text => some { found with txErrors := found.txErrors ++ [(e, text)] }
  | .input i => some { found with txManyInputs := found.txManyInputs ++ [i] }
  | .throws => none

/-- The round after a task. -/
def Round.assessed (c : Config) (todo : List PendingTx) : Option Found → Round
  | some found => .assessing c todo found
  | none => .idle

/-- The loop waits for the chain before it submits the next batch. -/
def Session.Waits (s : Session) : Prop :=
  s.lastExecutedNonce + s.currentMaxTxPerBlock < s.nonce

instance (s : Session) : Decidable s.Waits := inferInstanceAs (Decidable (_ < _))

/-- `message.includes(text)`. -/
def Includes (message text : Text) : Prop := text <:+: message

instance (message text : Text) : Decidable (Includes message text) :=
  inferInstanceAs (Decidable (_ <:+: _))

/-- What the loop does about an exception while it submits `batch`. -/
def Session.catches (account : Account) (s : Session) (batch : List TxManyInput)
    (rest : List (List TxManyInput)) (message : Text) : Round :=
  if Includes message "ContractAlreadyExists".toList then .processing { s with operations := rest }
  else if Includes message "ConflictingNonceInMempool".toList then
    match account.conflictingNonceStrategy with
    | .increase => .processing { s with operations := batch :: rest, nonce := s.nonce + 1 }
    | .replace =>
        -- with a higher fee
        if account.rbfMode = .off ∨ account.rbfMode = .estimate then
          .processing { s with operations := batch :: rest }
        else .idle
  else if message = "TooMuchChaining".toList then
    .processing { s with
      operations := batch :: rest
      currentMaxTxPerBlock := s.currentMaxTxPerBlock - 1 }
  else .processing { s with operations := rest }

/-- What comes of a broadcast. -/
inductive Reply where
  | accepted (txid : Bytes)
  | rejected (error reason : Text) (txid : Option Bytes)
  /-- An exception, whether or not the node has the transaction. -/
  | exception (reached : Bool) (message : Text)

/-- The rows `onBroadcast` stores. -/
def submittedParams (account : Account) (nonce : Nat) (txid : Option Bytes) (error : Option Text)
    (batch : List TxManyInput) : List SubmittedParams :=
  batch.map fun i =>
    { event := TxManyInput.event i
      stacksTxId := txid
      broadcastResultType := if error = none then .ok else .error
      error := error
      submittedBy := some account.address
      submitterNonce := some nonce }

/-- The rows `onSettled` stores. -/
def settledParams (batch : List TxManyInput) : List SubmittedParams :=
  batch.map fun i =>
    { event := TxManyInput.event i
      stacksTxId := none
      broadcastResultType := .settled
      error := none
      submittedBy := none
      submitterNonce := none }

/-! ## The system -/

/-- A batch the node has accepted and the chain has not confirmed. -/
structure Broadcast (ι : Type) where
  relayer : ι
  nonce : Nat
  batch : List TxManyInput

def Broadcast.key {ι : Type} (b : Broadcast ι) : ι × Nat := (b.relayer, b.nonce)

def Broadcast.events {ι : Type} (b : Broadcast ι) : List Event := b.batch.map TxManyInput.event

structure Relaying (ι : Type) where
  db : Database
  world : World
  accountNonce : ι → Nat
  mempool : List (Broadcast ι)
  round : ι → Round
  /-- The events of the broadcasts the node has rejected. -/
  rejected : List Event
  /-- The events of the batches the contract has refused. -/
  failed : List Event
  /-- The events of the batches the node has accepted and thrown out again. -/
  dropped : List Event

inductive Action (ι : Type) where
  | post (tx : TxRequest)
  /-- A transaction that is no broadcast of the relayers. -/
  | transact (t : Transaction)
  | startRound (i : ι) (c : Config)
  /-- The assessment of one of the events left. -/
  | assess (i : ι) (n : Nat)
  | setAlreadyIndexed (i : ι)
  /-- The two nonces are the node's answers before the loop. -/
  | flush (i : ι) (startingNonce lastExecutedNonce : Nat)
  | broadcast (i : ι) (reply : Reply)
  | readNonce (i : ι) (answer : Nat)
  /-- A transaction in the mempool is broadcast again with a higher fee. -/
  | replaceByFee (i : ι) (nonce : Nat) (newTxId : Bytes)
  | finish (i : ι)
  /-- An exception that ends the round, or a restart of the relayer. -/
  | abandon (i : ι)
  /-- The next transaction of the relayer's account is executed. -/
  | confirm (i : ι) (env : Env)
  /-- The node throws a transaction out. -/
  | drop (i : ι) (nonce : Nat)

namespace Relaying
variable {ι : Type} [DecidableEq ι] (P : Primitives) (lib : BitcoinLib)
  (principal : Text → Option Principal) (account : ι → Account) (s : Relaying ι) (i : ι)

def start (w : World) (accountNonce : ι → Nat) : Relaying ι where
  db := .empty
  world := w
  accountNonce := accountNonce
  mempool := []
  round := fun _ => .idle
  rejected := []
  failed := []
  dropped := []

def setRound (r : Round) : Relaying ι := { s with round := Function.update s.round i r }

/-- The node throws out what it has under a nonce. -/
def drop (nonce : Nat) : Relaying ι :=
  { s with
    mempool := s.mempool.filter fun b => b.key ≠ (i, nonce)
    dropped := s.dropped ++ (s.mempool.filter fun b => b.key = (i, nonce)).flatMap Broadcast.events }

/-- The node accepts a batch, in the place of what it has under that nonce. -/
def accept (nonce : Nat) (batch : List TxManyInput) : Relaying ι :=
  { s.drop i nonce with mempool := (s.drop i nonce).mempool ++ [⟨i, nonce, batch⟩] }

/-- The result of a broadcast is stored, and `recorded` is what comes next; if the query
throws, the operation is given up. -/
def record (session : Session) (batch : List TxManyInput) (rest : List (List TxManyInput))
    (txid : Option Bytes) (error : Option Text) (recorded : Round) : Relaying ι :=
  match upsertSubmittedTx (submittedParams (account i) session.nonce txid error batch) s.db with
  | some db => { s with db := db }.setRound i recorded
  | none => s.setRound i (.processing { session with operations := rest })

/-- One turn of the loop. -/
def broadcast (session : Session) (batch : List TxManyInput) (rest : List (List TxManyInput)) :
    Reply → Relaying ι
  | .accepted txid =>
      if s.accountNonce i ≤ session.nonce then
        (s.accept i session.nonce batch).record account i session batch rest (some txid) none
          (.processing { session with operations := rest, nonce := session.nonce + 1 })
      else s
  | .rejected error reason txid =>
      { s with rejected := s.rejected ++ batch.map TxManyInput.event }.record account i session
        batch rest txid (some error) (session.catches (account i) batch rest reason)
  | .exception true message =>
      if s.accountNonce i ≤ session.nonce then
        (s.accept i session.nonce batch).setRound i
          (session.catches (account i) batch rest message)
      else s
  | .exception false message => s.setRound i (session.catches (account i) batch rest message)

/-- The chain executes a batch.  One that is no argument of `index-tx-many` fails like
one the contract refuses. -/
def confirm (env : Env) (b : Broadcast ι) : Relaying ι :=
  let s := { s with
    mempool := s.mempool.filter fun b' => b'.key ≠ b.key
    accountNonce := Function.update s.accountNonce i (b.nonce + 1) }
  match encodeTxMany principal b.batch with
  | none => { s with failed := s.failed ++ b.events }
  | some txMany =>
      let t : Transaction := ⟨env, (account i).principal, .indexTxMany txMany⟩
      let s' := { s with world := ((World.deployment P).next s.world t) }
      match World.answer P s.world t with
      | .ok _ => s'
      | _ => { s' with failed := s'.failed ++ b.events }

/-- An action that is not possible changes nothing. -/
def next : Action ι → Relaying ι
  | .post tx =>
      match postTx P lib s.db tx with
      | .ok db => { s with db := db }
      | .error _ => s
  | .transact t => { s with world := (World.deployment P).next s.world t }
  | .startRound i c =>
      match s.round i with
      | .idle => s.setRound i (.assessing c (getPendingSubmitTx P c s.db) .empty)
      | _ => s
  | .assess i n =>
      match s.round i with
      | .assessing c todo found =>
          match todo[n]? with
          | some tx => s.setRound i (.assessed c (todo.eraseIdx n)
              (found.add tx.row.event (assess P c s.world tx)))
          | none => s
      | _ => s
  | .setAlreadyIndexed i =>
      match s.round i with
      | .assessing _ [] found =>
          { s with db := Relayer.setAlreadyIndexed (account i).address found.indexedTxs s.db
            }.setRound i (.marking found)
      | _ => s
  | .flush i startingNonce lastExecutedNonce =>
      match s.round i with
      | .marking found =>
          { s with db := setTxsWithError found.txErrors s.db }.setRound i
            (if found.txManyInputs = [] then .idle
            else .processing ⟨chunk found.txManyInputs kChunkSize, startingNonce,
              lastExecutedNonce, (account i).maxTxPerBlock⟩)
      | _ => s
  | .broadcast i reply =>
      match s.round i with
      | .processing session =>
          match session.operations with
          | batch :: rest =>
              if session.Waits then s else s.broadcast account i session batch rest reply
          | [] => s
      | _ => s
  | .readNonce i answer =>
      match s.round i with
      | .processing session => s.setRound i (.processing { session with lastExecutedNonce := answer })
      | _ => s
  | .replaceByFee i nonce newTxId =>
      match s.round i with
      | .processing _ => { s with db := onRBFTx nonce newTxId (account i).address s.db }
      | _ => s
  | .finish i =>
      match s.round i with
      | .processing session =>
          if session.operations = [] ∧ session.nonce ≤ session.lastExecutedNonce then
            -- the callbacks of the operations left, and none is left
            { s with db := (upsertSubmittedTx
                (session.operations.flatMap settledParams) s.db).getD s.db }.setRound i .idle
          else s
      | _ => s
  | .abandon i => s.setRound i .idle
  | .confirm i env =>
      match lookup Broadcast.key s.mempool (i, s.accountNonce i) with
      | some b => s.confirm P principal account i env b
      | none => s
  | .drop i nonce => s.drop i nonce

/-- The relayers, the node and the chain, as their actions come. -/
def machine : Machine (Relaying ι) (Action ι) Unit where
  next := next P lib principal account
  log _ _ := []

end Relaying

end Relayer
end BitcoinOracle
