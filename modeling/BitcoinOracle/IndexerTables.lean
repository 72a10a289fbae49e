import BitcoinOracle.CallArguments
import BitcoinOracle.KeyedTable
import BitcoinOracle.World

/-! # The tables of the indexer

Validators post what they saw of an event.  A post leaves a row in `proofs`, and the
first post for an event also leaves the row in `txs` that says in which block the
event is.  `upsertTxWithProof` is one such post from its first statement to its
commit, with nothing else going on; its failures leave the tables as they were.

Rows are what the schemas parse them to.  A `bytea` is its bytes, a `text` its
characters, and an integer column an integer whose range the insert checks.  Hex
strings are compared as the bytes they denote.
-/
namespace BitcoinOracle
open Clarity KeyedTable

namespace Indexer

inductive ValidatorName where
  | bis
  | okx
  | hiro
  | unisat
  | unknown
  deriving DecidableEq

/-! ## Identifiers -/

def hexDigit (n : Nat) : Char :=
  Char.ofNat (if n < 10 then 48 + n else 87 + n)

/-- `buffer.toString('hex')`. -/
def hex (b : Bytes) : Text :=
  b.flatMap fun x => [hexDigit (x.toNat / 16), hexDigit (x.toNat % 16)]

/-- `value.toString(10)`. -/
def decimal (v : Int) : Text :=
  if v < 0 then '-' :: Nat.toDigits 10 v.natAbs else Nat.toDigits 10 v.natAbs

/-- The bytes of a text that is all ASCII. -/
def ascii (t : Text) : Bytes := t.map fun c => UInt8.ofNat c.toNat

/-- Which transfer of which Bitcoin transaction. -/
structure Event where
  txHash : Bytes
  output : Int
  satpoint : Int
  deriving DecidableEq

/-- `computeTxsId`, which every `id` column is generated by. -/
def computeTxsId (P : Primitives) (e : Event) : Bytes :=
  P.sha256 (ascii (hex e.txHash ++ ':' :: (decimal e.output ++ ':' :: decimal e.satpoint)))

/-! ## Rows -/

/-- A row of `indexer.txs`. -/
structure TxRow where
  event : Event
  txId : Bytes
  header : Bytes
  height : Int
  proofHashes : List Bytes
  txIndex : Int
  treeDepth : Int
  error : Option Text
  deriving DecidableEq

/-- A row of `indexer.proofs`. -/
structure ProofRow where
  event : Event
  fromUser : Bytes
  toUser : Bytes
  tick : Text
  amt : Int
  fromBal : Int
  toBal : Int
  decimals : Int
  fromAddress : Text
  toAddress : Text
  txId : Bytes
  type : ValidatorName
  orderHash : Bytes
  signature : Bytes
  signer : Text
  signerPubkey : Bytes
  height : Int
  validated : Bool
  deriving DecidableEq

/-- `unique ("type", "order_hash", "signature", "signer")`. -/
structure ProofKey where
  type : ValidatorName
  orderHash : Bytes
  signature : Bytes
  signer : Text
  deriving DecidableEq

inductive BroadcastResultType where
  | ok
  | error
  | settled
  deriving DecidableEq

/-- A row of `indexer.submitted_tx`. -/
structure SubmittedRow where
  event : Event
  stacksTxId : Option Bytes
  broadcastResultType : BroadcastResultType
  error : Option Text
  submittedBy : Option Text
  submitterNonce : Int
  deriving DecidableEq

/-- A row of `indexer.validated_txs`. -/
structure ValidatedRow where
  event : Event
  orderHash : Bytes
  amt : Int
  bitcoinTx : Bytes
  decimals : Int
  fromUser : Bytes
  fromBal : Int
  tick : Text
  toUser : Bytes
  toBal : Int
  proofHashes : List Bytes
  txIndex : Int
  treeDepth : Int
  txId : Bytes
  height : Int
  signers : List Text
  signerPubkeys : List Bytes
  signerTypes : List ValidatorName
  signatures : List Bytes
  deriving DecidableEq

structure Database where
  txs : List TxRow
  proofs : List ProofRow
  submittedTx : List SubmittedRow
  validatedTxs : List ValidatedRow
  deriving DecidableEq

def Database.empty : Database := ⟨[], [], [], []⟩

variable (P : Primitives)

def TxRow.id (row : TxRow) : Bytes := computeTxsId P row.event

def ProofRow.id (row : ProofRow) : Bytes := computeTxsId P row.event

def SubmittedRow.id (row : SubmittedRow) : Bytes := computeTxsId P row.event

def ProofRow.key (row : ProofRow) : ProofKey := ⟨row.type, row.orderHash, row.signature, row.signer⟩

/-- The unique constraints of `txs` and `proofs`. -/
structure Database.Constrained (db : Database) : Prop where
  txs : Unique (TxRow.id P) db.txs
  proofs : Unique ProofRow.key db.proofs

/-! ## A post -/

/-- The body of `POST /txs`. -/
structure TxRequest where
  type : ValidatorName
  header : Bytes
  height : Int
  txHash : Bytes
  output : Int
  satpoint : Int
  proofHashes : List Bytes
  txIndex : Int
  treeDepth : Int
  fromUser : Bytes
  toUser : Bytes
  tick : Text
  amt : Int
  decimals : Int
  fromBal : Int
  toBal : Int
  orderHash : Bytes
  signature : Bytes
  signer : Text
  signerPubkey : Bytes
  deriving DecidableEq

def TxRequest.event (tx : TxRequest) : Event := ⟨tx.txHash, tx.output, tx.satpoint⟩

def TxRequest.id (tx : TxRequest) : Bytes := computeTxsId P tx.event

def TxRequest.proofKey (tx : TxRequest) : ProofKey :=
  ⟨tx.type, tx.orderHash, tx.signature, tx.signer⟩

/-- The event of a post, as the argument of `hash-tx`. -/
def TxRequest.txArgument (tx : TxRequest) : TxArgument where
  bitcoinTx := tx.txHash
  output := tx.output
  offset := tx.satpoint
  tick := tx.tick
  amt := tx.amt
  fromUser := tx.fromUser
  toUser := tx.toUser
  fromBal := tx.fromBal
  toBal := tx.toBal
  decimals := tx.decimals

inductive UpsertError where
  | indexer (message : Text)
  /-- `hash-tx` cannot be called. -/
  | notEncodable
  /-- `Transaction.fromRaw` throws. -/
  | invalidTx
  /-- A value its column does not hold. -/
  | outOfRange
  | uniqueViolation
  deriving DecidableEq

/-- What `scure-btc-signer` makes of a transaction and of an output script. -/
structure BitcoinLib where
  txId : Bytes → Option Bytes
  /-- The address, or the text of the exception. -/
  address : Bytes → Except Text Text

/-- The check of the service, before the transaction begins. -/
def validateOrderHash (tx : TxRequest) : Except UpsertError Unit :=
  match tx.txArgument.encode with
  | none => .error .notEncodable
  | some arg =>
      let serverOrderHash := (Oracle.hashTx P arg).bytes
      if serverOrderHash ≠ tx.orderHash then
        .error (.indexer ("Order hash mismatch, hash from stacks-node: ".toList ++
          hex serverOrderHash ++ " !== submitted hash: ".toList ++ hex tx.orderHash))
      else .ok ()

/-- What a column of type `integer` holds. -/
def IsInteger (v : Int) : Prop := -2 ^ 31 ≤ v ∧ v < 2 ^ 31

/-- What a column of type `text` holds. -/
def IsText (t : Text) : Prop := Char.ofNat 0 ∉ t

instance (v : Int) : Decidable (IsInteger v) := inferInstanceAs (Decidable (_ ∧ _))

instance (t : Text) : Decidable (IsText t) := inferInstanceAs (Decidable (_ ∉ _))

def encodeAddress (lib : BitcoinLib) (address : Bytes) : Except UpsertError Text :=
  match lib.address address with
  | .ok text => .ok text
  | .error e => .error (.indexer ("Failed to encode address: ".toList ++ hex address ++
      ", ".toList ++ e))

/-- An insert of `row`, whose columns hold its values under `Fits`. -/
def checkColumns {ρ : Type} (Fits : Prop) [Decidable Fits] (row : ρ) : Except UpsertError ρ :=
  if Fits then .ok row else .error .outOfRange

/-- The row the insert into `proofs` stores. -/
def proofRow (lib : BitcoinLib) (tx : TxRequest) : Except UpsertError ProofRow := do
  let txId ← (lib.txId tx.txHash).elim (.error .invalidTx) .ok
  let fromAddress ← encodeAddress lib tx.fromUser
  let toAddress ← encodeAddress lib tx.toUser
  checkColumns
    (IsInteger tx.decimals ∧ IsInteger tx.satpoint ∧ IsInteger tx.output ∧ IsText tx.tick ∧
      IsText tx.signer)
    { event := tx.event
      fromUser := tx.fromUser
      toUser := tx.toUser
      tick := tx.tick
      amt := tx.amt
      fromBal := tx.fromBal
      toBal := tx.toBal
      decimals := tx.decimals
      fromAddress := fromAddress
      toAddress := toAddress
      txId := txId
      type := tx.type
      orderHash := tx.orderHash
      signature := tx.signature
      signer := tx.signer
      signerPubkey := tx.signerPubkey
      height := tx.height
      validated := false }

/-- The row the insert into `txs` stores. -/
def txRow (txId : Bytes) (tx : TxRequest) : Except UpsertError TxRow :=
  checkColumns
    (IsInteger tx.height ∧ IsInteger tx.txIndex ∧ IsInteger tx.treeDepth ∧ IsInteger tx.output ∧
      IsInteger tx.satpoint)
    { event := tx.event
      txId := txId
      header := tx.header
      height := tx.height
      proofHashes := tx.proofHashes
      txIndex := tx.txIndex
      treeDepth := tx.treeDepth
      error := none }

def upsertTxWithProof (lib : BitcoinLib) (db : Database) (tx : TxRequest) :
    Except UpsertError Database := do
  let proof ← proofRow lib tx
  let proofs := insertNew ProofRow.key db.proofs proof
  match lookup (TxRow.id P) db.txs (tx.id P) with
  | some _ => .ok { db with proofs := proofs }
  | none => do
      let row ← txRow proof.txId tx
      .ok { db with txs := db.txs ++ [row], proofs := proofs }

/-- `upsertTxWithProof` of the service. -/
def postTx (lib : BitcoinLib) (db : Database) (tx : TxRequest) : Except UpsertError Database := do
  validateOrderHash P tx
  upsertTxWithProof P lib db tx

/-- Posts one after the other, all of which succeed. -/
def upsertAll (lib : BitcoinLib) (db : Database) (txs : List TxRequest) :
    Except UpsertError Database :=
  txs.foldlM (upsertTxWithProof P lib) db

/-! ## What a post does -/

section Posts
variable {P} {lib : BitcoinLib} {tx : TxRequest} {db db' : Database}

theorem checkColumns_eq_ok {ρ : Type} {Fits : Prop} [Decidable Fits] {row row' : ρ} :
    checkColumns Fits row = .ok row' ↔ Fits ∧ row' = row := by
  unfold checkColumns
  split
  · next h => simp [h, eq_comm]
  · next h => simp [h]

/-- **What a post leaves in `proofs`.** -/
theorem exists_proofRow {proof : ProofRow} (h : proofRow lib tx = .ok proof) :
    ∃ fromAddress toAddress txId, proof = ⟨tx.event, tx.fromUser, tx.toUser, tx.tick, tx.amt,
      tx.fromBal, tx.toBal, tx.decimals, fromAddress, toAddress, txId, tx.type, tx.orderHash,
      tx.signature, tx.signer, tx.signerPubkey, tx.height, false⟩ := by
  unfold proofRow at h
  cases htx : lib.txId tx.txHash with
  | none => simp [htx, bind, Except.bind] at h
  | some txId =>
      cases hfrom : encodeAddress lib tx.fromUser with
      | error e => simp [htx, hfrom, bind, Except.bind] at h
      | ok fromAddress =>
          cases hto : encodeAddress lib tx.toUser with
          | error e => simp [htx, hfrom, hto, bind, Except.bind] at h
          | ok toAddress =>
              simp only [htx, hfrom, hto, bind, Except.bind, Option.elim_some,
                checkColumns_eq_ok] at h
              obtain ⟨-, rfl⟩ := h
              exact ⟨fromAddress, toAddress, txId, rfl⟩

theorem proofRow_eq_ok {proof : ProofRow} (h : proofRow lib tx = .ok proof) :
    proof.event = tx.event ∧ proof.key = tx.proofKey := by
  obtain ⟨_, _, _, rfl⟩ := exists_proofRow h
  exact ⟨rfl, rfl⟩

/-- The block and the branch a row of `txs` keeps. -/
structure Mined where
  header : Bytes
  height : Int
  proofHashes : List Bytes
  txIndex : Int
  treeDepth : Int
  deriving DecidableEq

def TxRow.mined (row : TxRow) : Mined :=
  ⟨row.header, row.height, row.proofHashes, row.txIndex, row.treeDepth⟩

def TxRequest.mined (tx : TxRequest) : Mined :=
  ⟨tx.header, tx.height, tx.proofHashes, tx.txIndex, tx.treeDepth⟩

theorem txRow_eq_ok {txId : Bytes} {row : TxRow} (h : txRow txId tx = .ok row) :
    row.event = tx.event ∧ row.mined = tx.mined ∧ row.error = none := by
  obtain ⟨-, rfl⟩ := checkColumns_eq_ok.mp h
  exact ⟨rfl, rfl, rfl⟩

theorem txRow_id {txId : Bytes} {row : TxRow} (h : txRow txId tx = .ok row) :
    row.id P = tx.id P := by
  unfold TxRow.id TxRequest.id
  rw [(txRow_eq_ok h).1]

/-- **What a post that succeeds does.** -/
theorem upsertTxWithProof_eq_ok :
    upsertTxWithProof P lib db tx = .ok db' ↔ ∃ proof, proofRow lib tx = .ok proof ∧
      (Stored (TxRow.id P) db.txs (tx.id P) ∧
          db' = { db with proofs := insertNew ProofRow.key db.proofs proof } ∨
        ¬ Stored (TxRow.id P) db.txs (tx.id P) ∧ ∃ row, txRow proof.txId tx = .ok row ∧
          db' = { db with
            txs := db.txs ++ [row]
            proofs := insertNew ProofRow.key db.proofs proof }) := by
  unfold upsertTxWithProof Stored
  cases hproof : proofRow lib tx with
  | error e => simp [bind, Except.bind]
  | ok proof =>
      cases hlookup : lookup (TxRow.id P) db.txs (tx.id P) with
      | some old => simp [bind, Except.bind, eq_comm]
      | none =>
          cases hrow : txRow proof.txId tx with
          | error e => simp [hrow, bind, Except.bind]
          | ok row => simp [hrow, bind, Except.bind, eq_comm]

/-- The hash of a post that passes the check is that of its event. -/
theorem validateOrderHash_eq_ok : validateOrderHash P tx = .ok () ↔
    ∃ arg, tx.txArgument.encode = some arg ∧ (Oracle.hashTx P arg).bytes = tx.orderHash := by
  unfold validateOrderHash
  cases tx.txArgument.encode with
  | none => simp
  | some arg =>
      by_cases hhash : (Oracle.hashTx P arg).bytes = tx.orderHash
      · simp [hhash]
      · simp [hhash]

theorem postTx_ok_iff : postTx P lib db tx = .ok db' ↔
    validateOrderHash P tx = .ok () ∧ upsertTxWithProof P lib db tx = .ok db' := by
  unfold postTx
  cases validateOrderHash P tx with
  | error e => exact iff_of_false nofun fun h => nomatch h.1
  | ok u => exact (and_iff_right rfl).symm

theorem postTx_eq_ok (h : postTx P lib db tx = .ok db') :
    upsertTxWithProof P lib db tx = .ok db' :=
  (postTx_ok_iff.mp h).2

/-- The proof of a post is stored, and no other goes or comes. -/
theorem stored_proofs_upsert {key : ProofKey} (h : upsertTxWithProof P lib db tx = .ok db') :
    Stored ProofRow.key db'.proofs key ↔
      Stored ProofRow.key db.proofs key ∨ tx.proofKey = key := by
  obtain ⟨proof, hproof, ⟨-, rfl⟩ | ⟨-, _, -, rfl⟩⟩ := upsertTxWithProof_eq_ok.mp h
  · rw [stored_insertNew_iff, (proofRow_eq_ok hproof).2]
  · rw [stored_insertNew_iff, (proofRow_eq_ok hproof).2]

/-- The block of an event is the one of the post that stored it first. -/
theorem mined_upsert {id : Bytes} (h : upsertTxWithProof P lib db tx = .ok db') :
    (lookup (TxRow.id P) db'.txs id).map TxRow.mined =
      ((lookup (TxRow.id P) db.txs id).map TxRow.mined).or
        (if tx.id P = id then some tx.mined else none) := by
  obtain ⟨proof, -, ⟨hstored, rfl⟩ | ⟨hnew, row, hrow, rfl⟩⟩ := upsertTxWithProof_eq_ok.mp h
  · by_cases hid : tx.id P = id
    · obtain ⟨old, hold⟩ := Option.isSome_iff_exists.mp (hid ▸ hstored)
      rw [show lookup (TxRow.id P) db.txs id = some old from hold]
      rfl
    · rw [if_neg hid, Option.or_none]
  · rw [lookup_append, lookup_cons, txRow_id hrow]
    by_cases hid : tx.id P = id
    · rw [not_stored_iff.mp (hid ▸ hnew), if_pos hid, if_pos hid, Option.none_or, Option.map_none,
        Option.none_or, Option.map_some, (txRow_eq_ok hrow).2.1]
    · rw [if_neg hid, if_neg hid]
      show ((lookup (TxRow.id P) db.txs id).or none).map TxRow.mined = _
      rw [Option.or_none, Option.or_none]

theorem unique_txs_upsert (hdb : Unique (TxRow.id P) db.txs)
    (h : upsertTxWithProof P lib db tx = .ok db') : Unique (TxRow.id P) db'.txs := by
  obtain ⟨proof, -, ⟨-, rfl⟩ | ⟨hnew, row, hrow, rfl⟩⟩ := upsertTxWithProof_eq_ok.mp h
  · exact hdb
  · apply hdb.append_singleton
    rwa [txRow_id hrow]

theorem Database.Constrained.upsert (hdb : db.Constrained P)
    (h : upsertTxWithProof P lib db tx = .ok db') : db'.Constrained P := by
  refine ⟨unique_txs_upsert hdb.txs h, ?_⟩
  obtain ⟨proof, -, ⟨-, rfl⟩ | ⟨-, _, -, rfl⟩⟩ := upsertTxWithProof_eq_ok.mp h
  · exact hdb.proofs.insertNew proof
  · exact hdb.proofs.insertNew proof

theorem upsertAll_cons {txs : List TxRequest} :
    upsertAll P lib db (tx :: txs) = .ok db' ↔
      ∃ db₁, upsertTxWithProof P lib db tx = .ok db₁ ∧ upsertAll P lib db₁ txs = .ok db' := by
  unfold upsertAll
  rw [List.foldlM_cons]
  cases h : upsertTxWithProof P lib db tx with
  | error e => simp [bind, Except.bind]
  | ok db₁ => simp [bind, Except.bind]

theorem upsertAll_append {txs txs' : List TxRequest} :
    upsertAll P lib db (txs ++ txs') = .ok db' ↔
      ∃ db₁, upsertAll P lib db txs = .ok db₁ ∧ upsertAll P lib db₁ txs' = .ok db' := by
  unfold upsertAll
  rw [List.foldlM_append]
  cases h : txs.foldlM (upsertTxWithProof P lib) db with
  | error e => simp [bind, Except.bind]
  | ok db₁ => simp [bind, Except.bind]

theorem upsertAll_singleton :
    upsertAll P lib db [tx] = .ok db' ↔ upsertTxWithProof P lib db tx = .ok db' := by
  rw [upsertAll_cons]
  simp [upsertAll, pure, Except.pure]

theorem stored_proofs_upsertAll {txs : List TxRequest} {key : ProofKey}
    (h : upsertAll P lib db txs = .ok db') :
    Stored ProofRow.key db'.proofs key ↔
      Stored ProofRow.key db.proofs key ∨ ∃ tx ∈ txs, tx.proofKey = key := by
  induction txs generalizing db with
  | nil =>
      cases h
      simp
  | cons tx txs ih =>
      obtain ⟨db₁, htx, htxs⟩ := upsertAll_cons.mp h
      simp only [ih htxs, stored_proofs_upsert htx, List.mem_cons, exists_eq_or_imp, or_assoc]

/-- **Of several posts for one event, the block of the first is kept.** -/
theorem mined_upsertAll {txs : List TxRequest} {id : Bytes}
    (h : upsertAll P lib db txs = .ok db') :
    (lookup (TxRow.id P) db'.txs id).map TxRow.mined =
      ((lookup (TxRow.id P) db.txs id).map TxRow.mined).or
        ((lookup (TxRequest.id P) txs id).map TxRequest.mined) := by
  induction txs generalizing db with
  | nil =>
      cases h
      exact (Option.or_none ..).symm
  | cons tx txs ih =>
      obtain ⟨db₁, htx, htxs⟩ := upsertAll_cons.mp h
      rw [ih htxs, mined_upsert htx, Option.or_assoc, lookup_cons]
      by_cases hid : tx.id P = id
      · rw [if_pos hid, if_pos hid]
        rfl
      · rw [if_neg hid, if_neg hid, Option.none_or]

theorem Database.Constrained.upsertAll {txs : List TxRequest} (hdb : db.Constrained P)
    (h : upsertAll P lib db txs = .ok db') : db'.Constrained P := by
  induction txs generalizing db with
  | nil =>
      cases h
      exact hdb
  | cons tx txs ih =>
      obtain ⟨db₁, htx, htxs⟩ := upsertAll_cons.mp h
      exact ih (hdb.upsert htx) htxs

end Posts

end Indexer

/-! ## Two validators

A transfer between two taproot addresses, in `bitcoinTxA` with a witness: of a
transaction without any, the library computes no id.  It is posted by two validators
whose keys are those of the tests; the signatures are real ones. -/

namespace Sample
open Indexer

def aliceScript : Bytes := 0x51 :: 0x20 ::
  bytesBe 32 0x53687745b1a04c2d74da5f1aa12d285df92626384fc5697de94ba6b9b9afee65

def bobScript : Bytes := 0x51 :: 0x20 ::
  bytesBe 32 0xc981bdfa5eaab9d6d0da158144e1c519411e76bf11e4c5deba73b358431b53b7

/-- The Bitcoin transaction of the transfer. -/
def witnessedTxA : Buff 8192 := segwitTxA 0xaa

/-- The library, on the transaction and the scripts of the sample. -/
def bitcoinLib : BitcoinLib where
  txId tx := if tx = witnessedTxA.bytes then
      some (bytesBe 32 0x99296a9c40f5e307530147cc99133f35ae866b280d362d7c487bfd30ea1d72d8)
    else none
  address script :=
    if script = aliceScript then
      .ok "bc1p2d58w3d35pxz6ax6tud2ztfgthujvf3cflzkjl0ffwntnwd0aejsp622kp".toList
    else if script = bobScript then
      .ok "bc1pexqmm7j742uad5x6zkq5fcw9r9q3ua4lz8jvth46wwe4sscm2wms2hpmgh".toList
    else .error "Error: Unknown script".toList

/-- The hash of the transfer. -/
def orderHash : Bytes :=
  bytesBe 32 0x19618d64ebd6da985bea00beb69be9a14e453cc294c415b9151e17341cd6c849

/-- A post of the transfer by a validator. -/
def post (type : ValidatorName) (signature signerPubkey : Bytes) (signer : Text) : TxRequest where
  type := type
  header := header.bytes
  height := 800000
  txHash := witnessedTxA.bytes
  output := 0
  satpoint := 0
  proofHashes := proofA.hashes.map Buff.bytes
  txIndex := 0
  treeDepth := 1
  fromUser := aliceScript
  toUser := bobScript
  tick := ['O', 'R', 'D', 'I']
  amt := 5
  decimals := 18
  fromBal := 95
  toBal := 5
  orderHash := orderHash
  signature := signature
  signer := signer
  signerPubkey := signerPubkey

/-- The guardian's signature of the transfer, for the main chain. -/
def guardianSignature : Buff 65 :=
  signature 0x58a161afe0e3e8e7cae97717288d7df9ae2185fcf6deb7bfedbc8b8aed81490f
    0x4acc5a51e5c4b40835dd88662e869392999116959a29dbd02ba81cda38683413 1

/-- The signature of a second validator. -/
def secondSignature : Buff 65 :=
  signature 0xf64adc07cf0570275a18d1401c48169cfda8ff4ae147937f94181037f34c6931
    0x108e8daeed156e9f5f4d2e2b92ee9fd207110e67a86625156e3fda4aa5b57b5e 0

def guardianAddress : Text := "ST1SJ3DTE5DN7X54YDH5D64R3BCB6A2AG2ZQ8YPD5".toList

def secondAddress : Text := "ST2JHG361ZXG51QTKY2NQCVBPPRRE2KZB1HR05NNC".toList

def secondKey : Buff 33 :=
  ⟨bytesBe 33 0x02c4b5eacb71a27be633ed970dcbc41c00440364bc04ba38ae4683ac24e708bf33, by decide⟩

/-- The guardian runs a validator on the data of `bis`. -/
def bisPost : TxRequest := post .bis guardianSignature.bytes guardianKey.bytes guardianAddress

/-- The second validator runs on the data of `unisat`. -/
def unisatPost : TxRequest := post .unisat secondSignature.bytes secondKey.bytes secondAddress

end Sample
end BitcoinOracle
