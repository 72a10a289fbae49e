import BitcoinOracle.HonestProof
import BitcoinOracle.OrderSigning
import BitcoinOracle.RelayingRules
import BitcoinOracle.SignedAmounts
import BitcoinOracle.Threshold
import BitcoinOracle.Verdicts

/-! # From the validators to the chain

Validators that run `submitIndexerTx` on true data of blocks fill the tables with posts
that hash to their event and are signed by their own account.  Whatever happens then,
every batch the relayers broadcast is one the contract takes, unless an event of it is
indexed already: its inputs come from one round, their events are distinct, and the signers
of each input are distinct accounts.

The contract refuses a principal it has counted for a hash.  It counts for the hashes of the
elements it accepts, and each of these is indexed; so of an event that is not indexed no
signer has been counted, provided that no two of the hashed events collide.
-/
namespace BitcoinOracle
open Clarity KeyedTable Indexer

/-! ## What the validators post -/

namespace Validator
open Signing

/-- The account of a validator, whose secret `signWithKey` is called with. -/
structure ValidatorAccount where
  type : ValidatorName
  address : Text
  pubkey : Bytes
  signWithKey : Text → Text

/-- A transfer on a block, with its balances and its Bitcoin transaction. -/
structure IndexerTx where
  amount : Int
  decimals : Int
  fromScript : Bytes
  toScript : Bytes
  fromBal : Int
  toBal : Int
  tick : Text
  vout : Int
  satpoint : Int
  data : BitcoinTxData

/-- The argument of `generateOrderHash`. -/
def IndexerTx.order (tx : IndexerTx) : TxArgument where
  bitcoinTx := tx.data.tx
  output := tx.vout
  offset := tx.satpoint
  tick := tx.tick
  amt := tx.amount
  fromUser := tx.fromScript
  toUser := tx.toScript
  fromBal := tx.fromBal
  toBal := tx.toBal
  decimals := tx.decimals

variable (P : Primitives)

/-- The post of a transfer, or `none` for an exception. -/
def submission (type : ValidatorName) (account : ValidatorAccount) (tx : IndexerTx) :
    Option TxRequest :=
  (generateOrderHash P tx.order).map fun orderHash =>
    { type := type
      header := tx.data.header
      height := tx.data.height
      txHash := tx.data.tx
      output := tx.vout
      satpoint := tx.satpoint
      proofHashes := tx.data.proof.hashes
      txIndex := tx.data.proof.txIndex
      treeDepth := tx.data.proof.treeDepth
      fromUser := tx.fromScript
      toUser := tx.toScript
      tick := tx.tick
      amt := tx.amount
      decimals := tx.decimals
      fromBal := tx.fromBal
      toBal := tx.toBal
      orderHash := orderHash
      signature := signOrderHash P account.signWithKey orderHash
      signer := account.address
      signerPubkey := account.pubkey }

/-- `submitIndexerTx` on the data of `bis`, which skips what `Transaction.fromRaw` does not
parse. -/
def Bis.submitIndexerTx (lib : BitcoinLib) (account : ValidatorAccount) (tx : IndexerTx) :
    Option TxRequest := do
  let post ← submission P .bis account tx
  let _ ← lib.txId tx.data.tx
  some post

def Hiro.submitIndexerTx (account : ValidatorAccount) (tx : IndexerTx) : Option TxRequest :=
  submission P .hiro account tx

/-- A transfer on the data of `unisat`, whose amounts are texts. -/
structure UnisatTx where
  amount : Text
  decimals : Nat
  fromScript : Bytes
  toScript : Bytes
  fromBal : Text
  toBal : Text
  ticker : Text
  vout : Int
  offset : Int
  data : BitcoinTxData

def UnisatTx.indexerTx (parseUnits : Text → Nat → Int) (tx : UnisatTx) : IndexerTx :=
  let signed := SignedAmounts.unisatSigned parseUnits tx.decimals tx.amount tx.fromBal tx.toBal
  { amount := signed.amt
    decimals := tx.decimals
    fromScript := tx.fromScript
    toScript := tx.toScript
    fromBal := signed.fromBal
    toBal := signed.toBal
    tick := tx.ticker
    vout := tx.vout
    satpoint := tx.offset
    data := tx.data }

def Unisat.submitIndexerTx (parseUnits : Text → Nat → Int) (account : ValidatorAccount)
    (tx : UnisatTx) : Option TxRequest :=
  submission P .unisat account (tx.indexerTx parseUnits)

/-- A post of one of the three validators. -/
inductive Submits (lib : BitcoinLib) (parseUnits : Text → Nat → Int) (account : ValidatorAccount)
    (post : TxRequest) : Prop
  | bis {tx : IndexerTx} (htype : account.type = .bis)
      (h : Bis.submitIndexerTx P lib account tx = some post)
  | hiro {tx : IndexerTx} (htype : account.type = .hiro)
      (h : Hiro.submitIndexerTx P account tx = some post)
  | unisat {tx : UnisatTx} (htype : account.type = .unisat)
      (h : Unisat.submitIndexerTx P parseUnits account tx = some post)

/-- `signWithKey` answers with the recovery id and a signature from which the key is
recovered. -/
def ValidatorAccount.Signs (account : ValidatorAccount) (pubkey orderHash : Bytes) : Prop :=
  ∃ (recoveryId : UInt8) (rs : Bytes),
    account.signWithKey (hex (signingInput P orderHash)) = hex (recoveryId :: rs) ∧
      rs.length = 64 ∧
      P.secp256k1Recover (signingInput P orderHash) (rs ++ [recoveryId]) = .ok pubkey

section Posts
variable {P} {lib : BitcoinLib} {parseUnits : Text → Nat → Int} {account : ValidatorAccount}
  {post : TxRequest}

/-- **A post hashes to its own event, and is signed by its account.** -/
theorem submission_eq_some {type : ValidatorName} {tx : IndexerTx}
    (h : submission P type account tx = some post) : post.type = type ∧
      generateOrderHash P post.txArgument = some post.orderHash ∧
      post.signer = account.address ∧ post.signerPubkey = account.pubkey ∧
      post.signature = signOrderHash P account.signWithKey post.orderHash := by
  obtain ⟨orderHash, hhash, rfl⟩ := Option.map_eq_some_iff.mp h
  exact ⟨rfl, hhash, rfl, rfl, rfl⟩

theorem bis_eq_some {tx : IndexerTx} : Bis.submitIndexerTx P lib account tx = some post ↔
    submission P .bis account tx = some post ∧ (lib.txId tx.data.tx).isSome = true := by
  unfold Bis.submitIndexerTx
  cases submission P .bis account tx with
  | none => simp
  | some post' =>
      cases lib.txId tx.data.tx with
      | none => simp
      | some txId => simp

theorem Submits.exists_submission (h : Submits P lib parseUnits account post) :
    ∃ tx, submission P account.type account tx = some post := by
  cases h with
  | bis htype h =>
      rw [htype]
      exact ⟨_, (bis_eq_some.mp h).1⟩
  | hiro htype h =>
      rw [htype]
      exact ⟨_, h⟩
  | unisat htype h =>
      rw [htype]
      exact ⟨_, h⟩

/-- The server computes the hash the validator has computed, if it can compute one. -/
theorem Submits.validateOrderHash_iff (h : Submits P lib parseUnits account post) :
    validateOrderHash P post = .ok () ↔ ∃ arg, post.txArgument.encode = some arg := by
  obtain ⟨tx, htx⟩ := h.exists_submission
  obtain ⟨-, hhash, -⟩ := submission_eq_some htx
  rw [validateOrderHash_eq_ok]
  refine exists_congr fun arg => and_iff_left_of_imp fun harg => ?_
  exact Option.some.inj ((generateOrderHash_of_encode harg).symm.trans hhash)

/-- What `bis` skips, the server would refuse. -/
theorem bis_skips {tx : IndexerTx} {db : Database}
    (hpost : submission P .bis account tx = some post)
    (hskipped : Bis.submitIndexerTx P lib account tx = none) (db' : Database) :
    postTx P lib db post ≠ .ok db' := by
  intro hok
  obtain ⟨proof, hproof, -⟩ := upsertTxWithProof_eq_ok.mp (postTx_eq_ok hok)
  have htxId : lib.txId post.txHash = none := by
    obtain ⟨orderHash, -, rfl⟩ := Option.map_eq_some_iff.mp hpost
    by_contra hsome
    have hnot := bis_eq_some.mpr ⟨hpost, Option.isSome_iff_ne_none.mpr hsome⟩
    rw [hskipped] at hnot
    cases hnot
  unfold proofRow at hproof
  rw [htxId] at hproof
  cases hproof

/-- On the main chain the signature of a post recovers the key of its account. -/
theorem ValidatorAccount.Signs.recovers {env : Env}
    (hdomain : getDomainHash P = Oracle.messageDomainMainnet) (hchain : env.chainId = 1)
    {pubkey orderHash : Bytes} (h : account.Signs P pubkey orderHash) :
    ∃ signature, Buff.ofBytes 65 (signOrderHash P account.signWithKey orderHash) = some signature ∧
      ∀ txHash : Buff 32, txHash.bytes = orderHash →
        P.secp256k1Recover (Oracle.signedMessage P env txHash) signature.bytes = .ok pubkey := by
  obtain ⟨recoveryId, rs, hdata, hlength, hrecover⟩ := h
  have hsignature := signOrderHash_eq hdata
  refine ⟨⟨rs ++ [recoveryId], by simp [hlength]⟩, ?_, fun txHash htxHash => ?_⟩
  · rw [hsignature]
    exact Buff.ofBytes_eq_some.mpr rfl
  · rw [signedMessage_eq hdomain hchain, htxHash]
    exact hrecover

end Posts
end Validator

/-! ## Who is counted -/

namespace World
open Oracle
variable {P : Primitives}

/-- A principal is counted for the hash of one of the elements, and these are indexed. -/
structure CountedFor (P : Primitives) (es : List SignedTx) (w : World) : Prop where
  counted : ∀ k, w.oracle.txValidatedBy k ≠ none → ∃ e ∈ es, hashTx P e.tx = k.txHash
  indexed : ∀ e ∈ es, (w.registries.indexed e.tx.key).isSome = true

theorem counted_indexAll {es : List SignedTx} {w : World} {k : ValidatedBy}
    (h : (indexAll P w es).oracle.txValidatedBy k ≠ none) :
    w.oracle.txValidatedBy k ≠ none ∨ ∃ e ∈ es, hashTx P e.tx = k.txHash := by
  induction es generalizing w with
  | nil => exact Or.inl h
  | cons e es ih =>
      rcases ih h with hfirst | ⟨e', he', hhash⟩
      · by_cases hk : k ∈ countedKeys P e
        · exact Or.inr ⟨e, List.mem_cons_self, (mem_countedKeys.mp hk).1.symm⟩
        · exact Or.inl fun hnone => hfirst (index_txValidatedBy_eq_none.mpr ⟨hk, hnone⟩)
      · exact Or.inr ⟨e', List.mem_cons_of_mem e he', hhash⟩

theorem CountedFor.next {es : List SignedTx} {w : World} (h : CountedFor P es w)
    (t : Transaction) :
    CountedFor P (es ++ (deployment P).log w t) ((deployment P).next w t) := by
  have hkept : ∀ e ∈ es, (((deployment P).next w t).registries.indexed e.tx.key).isSome = true :=
    fun e he => isSome_indexed_next P (h.indexed e he)
  have hstep := step_next P w t
  generalize (deployment P).next w t = w', (deployment P).log w t = new at hstep hkept ⊢
  cases hstep with
  | @indexed txMany hcall hpaused hrelayer haccepts =>
      constructor
      · intro k hk
        rcases counted_indexAll hk with hold | ⟨e, he, hhash⟩
        · obtain ⟨e, he, hhash⟩ := h.counted k hold
          exact ⟨e, List.mem_append_left _ he, hhash⟩
        · exact ⟨e, List.mem_append_right _ he, hhash⟩
      · intro e he
        rcases List.mem_append.mp he with hold | hnew
        · exact hkept e hold
        · exact (isSome_indexed_indexAll P).mpr (Or.inl ⟨e, hnew, rfl⟩)
  | governed hcall howner hgoverned =>
      rw [List.append_nil]
      refine ⟨fun k hk => h.counted k ?_, hkept⟩
      rwa [governed_txValidatedBy hgoverned] at hk
  | refused | registry _ | mock =>
      rw [List.append_nil]
      exact ⟨h.counted, hkept⟩

end World

/-! ## Honest tables -/

namespace Relayer
open Oracle Validator Signing

section Honest
variable (P : Primitives) (lib : BitcoinLib) (parseUnits : Text → Nat → Int) (env : Env)
  (principal : Text → Option Principal) (accounts : List ValidatorAccount) (w : World)

/-- An account whose principal is registered under its key, for a hash it signs. -/
structure RegisteredFor (account : ValidatorAccount) (orderHash : Bytes) : Prop where
  mem : account ∈ accounts
  registered : ∃ validator pubkey, principal account.address = some validator ∧
    w.oracle.validators validator = some pubkey ∧ account.Signs P pubkey.bytes orderHash

/-- A post of a registered validator, with a valid proof of its Bitcoin transaction. -/
structure HonestPost (post : TxRequest) : Prop where
  submitted : ∃ account, RegisteredFor P principal accounts w account post.orderHash ∧
    Submits P lib parseUnits account post
  mined : ∃ tx block proof, Buff.ofBytes 8192 post.txHash = some tx ∧
    (⟨post.header, post.height⟩ : BlockArgument).encode = some block ∧
    (⟨post.txIndex, post.proofHashes, post.treeDepth⟩ : ProofArgument).encode = some proof ∧
      verifyMined P env w.mockHeaders tx block proof = .ok true

/-- A proof of a registered validator. -/
structure HonestProofRow (p : ProofRow) : Prop where
  orderHash : ∃ tx, (ProofRow.txArgument p).encode = some tx ∧ (hashTx P tx).bytes = p.orderHash
  account : ∃ account, RegisteredFor P principal accounts w account p.orderHash ∧
    p.key = ⟨account.type, p.orderHash, signOrderHash P account.signWithKey p.orderHash,
      account.address⟩

/-- A row with a valid proof of its Bitcoin transaction. -/
def HonestTxRow (row : TxRow) : Prop :=
  ∃ tx block proof, Buff.ofBytes 8192 row.event.txHash = some tx ∧
    (TxRow.block row).encode = some block ∧ (TxRow.proof row).encode = some proof ∧
      verifyMined P env w.mockHeaders tx block proof = .ok true

/-- What posts of registered validators leave in the tables. -/
structure HonestRows (db : Database) : Prop where
  constrained : db.Constrained P
  proofs : ∀ p ∈ db.proofs, HonestProofRow P principal accounts w p
  txs : ∀ row ∈ db.txs, HonestTxRow P env w row

variable {P lib parseUnits env principal accounts w} {db db' : Database}

theorem honestRows_empty : HonestRows P env principal accounts w .empty where
  constrained := ⟨List.nodup_nil, List.nodup_nil⟩
  proofs _ hp := nomatch hp
  txs _ hrow := nomatch hrow

theorem HonestPost.proofRow {post : TxRequest} {proof : ProofRow}
    (h : HonestPost P lib parseUnits env principal accounts w post)
    (hvalid : validateOrderHash P post = .ok ()) (hproof : Indexer.proofRow lib post = .ok proof) :
    HonestProofRow P principal accounts w proof := by
  obtain ⟨account, hregistered, hsubmits⟩ := h.submitted
  obtain ⟨tx, htx⟩ := hsubmits.exists_submission
  obtain ⟨htype, -, hsigner, -, hsignature⟩ := submission_eq_some htx
  obtain ⟨_, _, _, rfl⟩ := exists_proofRow hproof
  refine ⟨validateOrderHash_eq_ok.mp hvalid, account, hregistered, ?_⟩
  rw [← htype, ← hsigner, ← hsignature]
  rfl

/-- **A post of a registered validator keeps the tables honest.** -/
theorem HonestRows.post (h : HonestRows P env principal accounts w db) {post : TxRequest}
    (hpost : HonestPost P lib parseUnits env principal accounts w post)
    (hstored : postTx P lib db post = .ok db') : HonestRows P env principal accounts w db' := by
  obtain ⟨hvalid, hupsert⟩ := postTx_ok_iff.mp hstored
  have htxs := unique_txs_upsert h.constrained.txs hupsert
  obtain ⟨proof, hproof, hdb⟩ := upsertTxWithProof_eq_ok.mp hupsert
  have hproofs : ∀ p ∈ insertNew ProofRow.key db.proofs proof,
      HonestProofRow P principal accounts w p := by
    intro p hp
    rcases mem_of_mem_insertNew hp with hold | rfl
    · exact h.proofs p hold
    · exact hpost.proofRow hvalid hproof
  have hunique : Unique ProofRow.key (insertNew ProofRow.key db.proofs proof) :=
    h.constrained.proofs.insertNew proof
  rcases hdb with ⟨-, rfl⟩ | ⟨-, row, hrow, rfl⟩
  · exact ⟨⟨htxs, hunique⟩, hproofs, h.txs⟩
  · refine ⟨⟨htxs, hunique⟩, hproofs, fun row' hrow' => ?_⟩
    rcases List.mem_append.mp hrow' with hold | hnew
    · exact h.txs row' hold
    · obtain rfl := List.mem_singleton.mp hnew
      obtain ⟨-, rfl⟩ := checkColumns_eq_ok.mp hrow
      exact hpost.mined

/-- Rows that keep their events and their blocks stay honest. -/
theorem HonestRows.map (h : HonestRows P env principal accounts w db)
    (hproofs : db'.proofs = db.proofs) {f : TxRow → TxRow}
    (hf : ∀ row, (f row).event = row.event ∧ (f row).mined = row.mined)
    (htxs : db'.txs = db.txs.map f) : HonestRows P env principal accounts w db' := by
  refine ⟨⟨?_, ?_⟩, ?_, ?_⟩
  · rw [htxs, KeyedTable.Unique, List.map_map]
    have hid : TxRow.id P ∘ f = TxRow.id P := funext fun row =>
      congrArg (computeTxsId P) (hf row).1
    rw [hid]
    exact h.constrained.txs
  · rw [hproofs]
    exact h.constrained.proofs
  · rw [hproofs]
    exact h.proofs
  · rw [htxs]
    intro row' hrow'
    obtain ⟨row, hrow, rfl⟩ := List.mem_map.mp hrow'
    obtain ⟨tx, block, proof, htx, hblock, hproof, hmined⟩ := h.txs row hrow
    obtain ⟨hevent, hsame⟩ := hf row
    simp only [TxRow.mined, Mined.mk.injEq] at hsame
    obtain ⟨hheader, hheight, hproofHashes, htxIndex, htreeDepth⟩ := hsame
    refine ⟨tx, block, proof, ?_, ?_, ?_, hmined⟩
    · rw [hevent]
      exact htx
    · rw [TxRow.block, hheader, hheight]
      exact hblock
    · rw [TxRow.proof, htxIndex, hproofHashes, htreeDepth]
      exact hproof

theorem HonestRows.tables (h : HonestRows P env principal accounts w db)
    (hdomain : getDomainHash P = messageDomainMainnet) (hchain : env.chainId = 1) :
    HonestTables P env principal db w where
  orderHash p hp := (h.proofs p hp).orderHash
  signature p hp := by
    obtain ⟨account, hregistered, hkey⟩ := (h.proofs p hp).account
    obtain ⟨validator, pubkey, hprincipal, hpubkey, hsigns⟩ := hregistered.registered
    obtain ⟨signature, hsignature, hrecover⟩ := hsigns.recovers hdomain hchain
    rw [ProofRow.key, ProofKey.mk.injEq] at hkey
    obtain ⟨-, -, hsigned, hsigner⟩ := hkey
    refine ⟨validator, pubkey, signature, ?_, hpubkey, ?_, hrecover⟩
    · rw [hsigner]
      exact hprincipal
    · rw [hsigned]
      exact hsignature
  mined := h.txs

/-! ## Honest batches -/

variable (P env principal w) in
/-- Inputs of one round: each is honest and counts nobody twice, and each is of another
event. -/
structure HonestInputs (c : Config) (inputs : List TxManyInput) : Prop where
  enough : w.oracle.requiredValidators.val ≤ c.minimalAgreementCount
  honest : ∀ i ∈ inputs, HonestInput P env principal c w i ∧ (signedBy principal i).Nodup
  distinct : (inputs.map TxManyInput.event).Nodup

variable (P env principal w) in
/-- What may be left to assess: whatever comes of it, and each for another event. -/
structure HonestPending (c : Config) (todo : List PendingTx) (found : Found) : Prop where
  inputs : HonestInputs P env principal w c found.txManyInputs
  assess : ∀ tx ∈ todo, ∀ w' i, Relayer.assess P c w' tx = .input i →
    HonestInput P env principal c w i ∧ (signedBy principal i).Nodup
  distinct : (todo.map (fun tx => tx.row.event) ++
    found.txManyInputs.map TxManyInput.event).Nodup

variable (P env principal w) in
/-- The inputs of a batch, which has room for them. -/
def HonestBatch (batch : List TxManyInput) : Prop :=
  (∃ c, HonestInputs P env principal w c batch) ∧ batch.length ≤ kChunkSize

variable (P env principal w) in
def HonestFound (found : Found) : Prop :=
  ∃ c, HonestInputs P env principal w c found.txManyInputs

/-- The signers of an input are distinct, since each account signs a hash in one way. -/
theorem HonestRows.nodup_signedBy (h : HonestRows P env principal accounts w db)
    (haccounts : (accounts.map fun account => principal account.address).Nodup)
    {c : Config} {tx : PendingTx} {w' : World} {i : TxManyInput}
    (htx : tx ∈ getPendingSubmitTx P c db) (hi : assess P c w' tx = .input i) :
    (signedBy principal i).Nodup := by
  obtain ⟨-, -, -, -, -, hproofs⟩ := mem_getPendingSubmitTx.mp htx
  obtain ⟨firstProof, hash, rfl, -⟩ := assess_eq_input hi
  have hsublist : (tx.proofs.filter fun p => p.orderHash = hash).Sublist db.proofs := by
    rw [hproofs]
    exact List.filter_sublist.trans List.filter_sublist
  have hkeys : ((tx.proofs.filter fun p => p.orderHash = hash).map ProofRow.key).Nodup :=
    h.constrained.proofs.sublist (hsublist.map _)
  rw [List.Nodup, List.pairwise_map] at hkeys
  show ((List.map signaturePack _).map _).Nodup
  rw [List.map_map, List.Nodup, List.pairwise_map]
  refine hkeys.imp_of_mem fun {p q} hp hq hne heq => hne ?_
  -- one hash and one principal are one account, which has one key for the hash
  obtain ⟨hhash, hsigner⟩ := Prod.mk.injEq .. |>.mp heq
  obtain ⟨a, ha, hpkey⟩ := (h.proofs p (hsublist.subset hp)).account
  obtain ⟨b, hb, hqkey⟩ := (h.proofs q (hsublist.subset hq)).account
  have hsame : p.orderHash = q.orderHash := hhash
  have hpsigner : p.signer = a.address := congrArg ProofKey.signer hpkey
  have hqsigner : q.signer = b.address := congrArg ProofKey.signer hqkey
  have hprincipal : principal p.signer = principal q.signer := hsigner
  rw [hpsigner, hqsigner] at hprincipal
  obtain rfl := List.inj_on_of_nodup_map haccounts ha.mem hb.mem hprincipal
  rw [hpkey, hqkey, hsame]

theorem HonestRows.pending (h : HonestRows P env principal accounts w db)
    (hdomain : getDomainHash P = messageDomainMainnet) (hchain : env.chainId = 1)
    (haccounts : (accounts.map fun account => principal account.address).Nodup) {c : Config}
    (henough : w.oracle.requiredValidators.val ≤ c.minimalAgreementCount) :
    HonestPending P env principal w c (getPendingSubmitTx P c db) .empty where
  inputs := ⟨henough, fun _ hi => (List.not_mem_nil hi).elim, List.nodup_nil⟩
  assess tx htx w' i hi := ⟨(h.tables hdomain hchain).input htx hi,
    h.nodup_signedBy haccounts htx hi⟩
  distinct := by
    show (_ ++ []).Nodup
    rw [List.append_nil]
    exact nodup_getPendingSubmitTx h.constrained.txs

/-- What an assessment adds to what was found. -/
theorem HonestPending.assessed {c : Config} {todo : List PendingTx} {found found' : Found}
    {n : Nat} {tx : PendingTx} (w' : World) (h : HonestPending P env principal w c todo found)
    (htx : todo[n]? = some tx)
    (hadd : found.add tx.row.event (Relayer.assess P c w' tx) = some found') :
    HonestPending P env principal w c (todo.eraseIdx n) found' := by
  have hmem : tx ∈ todo := List.mem_of_getElem? htx
  have hleft : ∀ tx' ∈ todo.eraseIdx n, ∀ w' i, Relayer.assess P c w' tx' = .input i →
      HonestInput P env principal c w i ∧ (signedBy principal i).Nodup := fun tx' htx' =>
    h.assess tx' (List.mem_of_mem_eraseIdx htx')
  have hsublist : ((todo.eraseIdx n).map (fun tx => tx.row.event) ++
      found.txManyInputs.map TxManyInput.event).Nodup :=
    h.distinct.sublist (((List.eraseIdx_sublist todo n).map _).append_right _)
  cases houtcome : Relayer.assess P c w' tx with
  | throws =>
      rw [houtcome] at hadd
      cases hadd
  | alreadyIndexed | waits | error text =>
      rw [houtcome] at hadd
      cases hadd
      exact ⟨h.inputs, hleft, hsublist⟩
  | input i =>
      rw [houtcome] at hadd
      cases hadd
      have hevent := event_of_assess houtcome
      have hlt := (List.getElem?_eq_some_iff.mp htx).1
      have hcons := List.getElem_cons_eraseIdx_perm hlt
      rw [(List.getElem?_eq_some_iff.mp htx).2] at hcons
      -- the event changes sides
      have hmoved : ((todo.eraseIdx n).map (fun tx => tx.row.event) ++
          (found.txManyInputs ++ [i]).map TxManyInput.event).Nodup := by
        have hperm := (hcons.map fun tx => tx.row.event).append_right
          (found.txManyInputs.map TxManyInput.event)
        have hnodup := hperm.nodup_iff.mpr h.distinct
        rw [List.map_append, List.map_singleton, hevent, ← List.append_assoc]
        exact (List.perm_append_singleton _ _).nodup_iff.mpr hnodup
      refine ⟨⟨h.inputs.enough, fun i' hi' => ?_, ?_⟩, hleft, hmoved⟩
      · rcases List.mem_append.mp hi' with hold | hnew
        · exact h.inputs.honest i' hold
        · rw [List.mem_singleton.mp hnew]
          exact h.assess tx hmem w' i houtcome
      · exact hmoved.sublist (List.sublist_append_right _ _)

theorem honestRule : BatchRule P (HonestPending P env principal w)
    (HonestFound P env principal w) (HonestBatch P env principal w) where
  assess w' h htx hadd := h.assessed w' htx hadd
  mark h := ⟨_, h.inputs⟩
  cut := by
    intro found ⟨c, h⟩ batch hbatch
    have hsublist : batch.Sublist found.txManyInputs := by
      have hflatten := List.sublist_flatten_of_mem hbatch
      rwa [flatten_chunk (by decide)] at hflatten
    exact ⟨⟨c, h.enough, fun i hi => h.honest i (hsublist.subset hi),
      h.distinct.sublist (hsublist.map _)⟩, length_le_of_mem_chunk hbatch⟩

/-! ## Acceptance -/

theorem isIndexed_of_encode {i : TxManyInput} {tx : Tx} (h : i.tx.encode = some tx)
    (hindexed : (w.registries.indexed tx.key).isSome = true) : IsIndexed w (TxManyInput.event i) :=
  isIndexed_iff.mpr ⟨tx.key, TxArgument.encodeKey_of_encode h, hindexed⟩

/-- The elements of an honest batch. -/
theorem HonestBatch.exists_txMany {batch : List TxManyInput}
    (h : HonestBatch P env principal w batch) (hten : AtMostTen w) : ∃ txMany : TxMany,
      List.Forall₂ (fun i e => TxManyInput.encode principal i = some e) batch txMany.elements := by
  obtain ⟨⟨c, hinputs⟩, hlength⟩ := h
  obtain ⟨elements, hencode⟩ := exists_encodeList fun i hi =>
    (hinputs.honest i hi).1.encodes_of_nodup hten (hinputs.honest i hi).2
  have hencode := encodeList_eq_some.mp hencode
  exact ⟨⟨elements, by rw [← hencode.length_eq]; exact hlength⟩, hencode⟩

/-- The events of the elements are those of the inputs. -/
theorem map_argument_of_encode {batch : List TxManyInput} {elements : List SignedTx}
    (h : List.Forall₂ (fun i e => TxManyInput.encode principal i = some e) batch elements) :
    elements.map (fun e => e.tx.argument) = batch.map TxManyInput.tx := by
  induction h with
  | nil => rfl
  | cons hie _ ih =>
      rw [List.map_cons, List.map_cons, ih,
        TxArgument.encode_eq_some.mp (TxManyInput.encode_eq_some.mp hie).1]

/-- **An honest batch is accepted if none of its events is indexed.**  One hash is one event,
so the batch counts nobody twice, and who has been counted before was counted for an event
that is indexed. -/
theorem HonestBatch.accepted {batch : List TxManyInput} (h : HonestBatch P env principal w batch)
    (hten : AtMostTen w) (hunpaused : w.oracle.isPaused = false) {relayer : Principal}
    (hrelayer : (w.oracle.approvedRelayers relayer).isSome = true) (hwritable : Writable w)
    {es : List SignedTx} (hcounted : World.CountedFor P es w)
    (hfree : ∀ tx ∈ batch.filterMap (fun i => i.tx.encode), ∀ tx' ∈
      batch.filterMap (fun i => i.tx.encode) ++ es.map SignedTx.tx,
        hashTx P tx = hashTx P tx' → tx = tx')
    (hnew : ∀ i ∈ batch, ¬ IsIndexed w (TxManyInput.event i)) :
    ∃ txMany, encodeTxMany principal batch = some txMany ∧
      (indexTxMany P env relayer txMany w).1 = .ok true := by
  obtain ⟨txMany, hencode⟩ := h.exists_txMany hten
  obtain ⟨⟨c, hinputs⟩, -⟩ := h
  have hhonest := fun i hi => (hinputs.honest i hi).1
  -- each element is the encoding of an input
  have hinput : ∀ e ∈ txMany.elements, ∃ i ∈ batch, TxManyInput.encode principal i = some e :=
    fun e he => exists_of_forall₂ hencode he
  have htx : ∀ e ∈ txMany.elements, e.tx ∈ batch.filterMap fun i => i.tx.encode := by
    intro e he
    obtain ⟨i, hi, hie⟩ := hinput e he
    exact List.mem_filterMap.mpr ⟨i, hi, (TxManyInput.encode_eq_some.mp hie).1⟩
  have hfresh : ∀ k ∈ txMany.elements.flatMap (Oracle.countedKeys P),
      w.oracle.txValidatedBy k = none := by
    intro k hk
    obtain ⟨e, he, hk⟩ := List.mem_flatMap.mp hk
    obtain ⟨i, hi, hie⟩ := hinput e he
    by_contra hsome
    obtain ⟨e', he', hhash⟩ := hcounted.counted k hsome
    have hsame := hfree e.tx (htx e he) e'.tx
      (List.mem_append_right _ (List.mem_map_of_mem he'))
      ((mem_countedKeys.mp hk).1.symm.trans hhash.symm)
    have hindexed := hcounted.indexed e' he'
    rw [← hsame] at hindexed
    exact hnew i hi (isIndexed_of_encode (TxManyInput.encode_eq_some.mp hie).1 hindexed)
  have hevents : txMany.elements.Pairwise fun e e' => e.tx ≠ e'.tx := by
    have hpairwise : batch.Pairwise fun i i' => i.tx ≠ i'.tx := by
      refine (List.pairwise_map.mp hinputs.distinct).imp fun hne heq => hne ?_
      rw [TxManyInput.event, TxManyInput.event, heq]
    have hnodup : (txMany.elements.map fun e => e.tx.argument).Pairwise (· ≠ ·) := by
      rw [map_argument_of_encode hencode, List.pairwise_map]
      exact hpairwise
    exact (List.pairwise_map.mp hnodup).imp fun hne heq => hne (congrArg Tx.argument heq)
  have hnodup : (txMany.elements.flatMap (Oracle.countedKeys P)).Nodup := by
    refine List.nodup_flatMap.mpr ⟨fun e he => ?_, ?_⟩
    · obtain ⟨i, hi, hie⟩ := hinput e he
      have hsigned := (hinputs.honest i hi).2
      rw [← (hhonest i hi).countedKeys hie] at hsigned
      exact hsigned.of_map _
    · refine hevents.imp_of_mem fun {e e'} he he' hne k hk hk' => hne ?_
      exact hfree e.tx (htx e he) e'.tx (List.mem_append_left _ (htx e' he'))
        ((mem_countedKeys.mp hk).1.symm.trans (mem_countedKeys.mp hk').1)
  have hsound : ∀ e ∈ txMany.elements, SoundElement P env w e := by
    intro e he
    obtain ⟨i, hi, hie⟩ := hinput e he
    exact (hhonest i hi).sound hinputs.enough hie
  have haccepts := (acceptsAll_iff hsound).mpr ⟨hnodup, hfresh, fun _ => hwritable⟩
  exact ⟨txMany, encodeTxMany_eq_some.mpr hencode, congrArg Prod.fst
    ((indexTxMany_eq_ok P env).mpr ⟨hunpaused, hrelayer, haccepts, rfl, rfl⟩)⟩

/-! ## Runs -/

variable {ι : Type}

variable (P env principal accounts w) in
/-- What posts of registered validators make of the system. -/
structure HonestState (s : Relaying ι) : Prop where
  rows : HonestRows P env principal accounts w s.db
  batches : s.Keeps (HonestPending P env principal w) (HonestFound P env principal w)
    (HonestBatch P env principal w)

variable (P lib parseUnits env principal accounts w) in
/-- Posts come from registered validators, and relayers ask for enough signatures. -/
def HonestAction : Action ι → Prop
  | .post tx => HonestPost P lib parseUnits env principal accounts w tx
  | .startRound _ c => w.oracle.requiredValidators.val ≤ c.minimalAgreementCount
  | _ => True

variable [DecidableEq ι] {account : ι → Account}

theorem HonestState.next {s : Relaying ι} (h : HonestState P env principal accounts w s)
    (hdomain : getDomainHash P = messageDomainMainnet) (hchain : env.chainId = 1)
    (haccounts : (accounts.map fun account => principal account.address).Nodup) {a : Action ι}
    (ha : HonestAction P lib parseUnits env principal accounts w a) :
    HonestState P env principal accounts w (s.next P lib principal account a) := by
  refine ⟨?_, Relaying.keeps_next honestRule ?_ h.batches⟩
  · have hstep : Relaying.TablesStep P lib s.db a (s.next P lib principal account a).db :=
      Relaying.tables_next a
    generalize (s.next P lib principal account a).db = db' at hstep ⊢
    cases hstep with
    | posted hpost => exact h.rows.post ha hpost
    | marked hproofs f hrows htxs => exact h.rows.map hproofs hrows htxs
  · rintro i c rfl
    exact h.rows.pending hdomain hchain haccounts ha

theorem honestState_run (hdomain : getDomainHash P = messageDomainMainnet)
    (hchain : env.chainId = 1)
    (haccounts : (accounts.map fun account => principal account.address).Nodup) (w₀ : World)
    (accountNonce : ι → Nat) {actions : List (Action ι)}
    (hactions : ∀ a ∈ actions, HonestAction P lib parseUnits env principal accounts w a) :
    HonestState P env principal accounts w
      ((Relaying.machine P lib principal account).run (Relaying.start w₀ accountNonce) actions) :=
  Machine.run_invariant _ (fun _ _ ha h => h.next hdomain hchain haccounts ha)
    (Machine.along_of_forall fun a ha _ => hactions a ha)
    ⟨honestRows_empty, Relaying.keeps_start w₀ accountNonce⟩

variable (principal) in
/-- Who is counted after a run was counted for an element that is indexed. -/
theorem countedFor_run (lib : BitcoinLib) (account : ι → Account) {w₀ : World}
    (hstart : ∀ k, w₀.oracle.txValidatedBy k = none) (accountNonce : ι → Nat)
    (actions : List (Action ι)) : World.CountedFor P
      ((Relaying.chain P lib principal account).history (Relaying.start w₀ accountNonce) actions)
      ((Relaying.machine P lib principal account).run
        (Relaying.start w₀ accountNonce) actions).world := by
  refine (Relaying.chain P lib principal account).history_of_step
    (fun es s => World.CountedFor P es s.world) ?_
    (s := Relaying.start w₀ accountNonce) ⟨fun k hk => absurd (hstart k) hk, nofun⟩ actions
  intro es s a h
  have hworld : (s.next P lib principal account a).world =
      (s.executed principal account a).elim s.world ((World.deployment P).next s.world) :=
    Relaying.world_executed a
  show World.CountedFor P (es ++ (s.executed principal account a).elim [] _)
    (s.next P lib principal account a).world
  rw [hworld]
  cases s.executed principal account a with
  | none =>
      dsimp only [Option.elim_none]
      rw [List.append_nil]
      exact h
  | some t => exact h.next t

end Honest

/-- **What honest validators post and the relayers broadcast, the chain takes.**  In any run
of relayers, node and chain whose posts come from registered validators, the batch that
`confirm` executes is not refused, and all its events are indexed, unless one of them was
indexed before; whatever the node has rejected or thrown out, and whoever has sent what
meanwhile. -/
theorem honest_batch_confirmed {ι : Type} [DecidableEq ι] (P : Primitives) (lib : BitcoinLib)
    (parseUnits : Text → Nat → Int) (principal : Text → Option Principal)
    (account : ι → Account) (accounts : List ValidatorAccount)
    (hdomain : getDomainHash P = messageDomainMainnet)
    (haccounts : (accounts.map fun account => principal account.address).Nodup)
    {w₀ : World} (hstart : ∀ k, w₀.oracle.txValidatedBy k = none) {accountNonce : ι → Nat}
    {actions : List (Action ι)} {s : Relaying ι}
    (hs : (Relaying.machine P lib principal account).run (Relaying.start w₀ accountNonce) actions =
      s) {env : Env} (hchain : env.chainId = 1)
    (hactions : ∀ a ∈ actions, HonestAction P lib parseUnits env principal accounts s.world a)
    (hten : AtMostTen s.world) (hunpaused : s.world.oracle.isPaused = false)
    (hwritable : Writable s.world) {i : ι}
    (hrelayer : (s.world.oracle.approvedRelayers (account i).principal).isSome = true)
    {b : Broadcast ι} (hb : lookup Broadcast.key s.mempool (i, s.accountNonce i) = some b)
    (hnew : ∀ e ∈ b.events, ¬ IsIndexed s.world e)
    (hfree : ClarityBitcoin.CollisionFree P ((b.batch.filterMap (fun i => i.tx.encode) ++
      ((Relaying.chain P lib principal account).history (Relaying.start w₀ accountNonce)
        actions).map SignedTx.tx).map serializeTx)) :
    (s.next P lib principal account (.confirm i env)).failed = s.failed ∧
      ∀ e ∈ b.events, IsIndexed (s.next P lib principal account (.confirm i env)).world e := by
  have hhonest : HonestState P env principal accounts s.world
      ((Relaying.machine P lib principal account).run (Relaying.start w₀ accountNonce) actions) :=
    honestState_run hdomain hchain haccounts w₀ accountNonce hactions
  have hcounted : World.CountedFor P _ _ :=
    countedFor_run principal lib account hstart accountNonce actions
  rw [hs] at hhonest hcounted
  have hbatch := hhonest.batches.mempool b (lookup_eq_some hb).1
  obtain ⟨txMany, hencode, hok⟩ := hbatch.accepted hten hunpaused hrelayer hwritable hcounted
    (fun tx htx tx' htx' hhash => serializeTx_inj (hfree _
      (List.mem_append_left _ (List.mem_map_of_mem (List.mem_append_left _ htx))) _
      (List.mem_append_left _ (List.mem_map_of_mem htx')) (congrArg Buff.bytes hhash)))
    (fun i hi => hnew _ (List.mem_map_of_mem hi))
  have hanswer : World.answer P s.world ⟨env, (account i).principal, .indexTxMany txMany⟩ =
      .ok (.bool true) := congrArg Prod.fst
    (World.answering_eq_ok.mpr ⟨true, Prod.ext hok rfl, rfl⟩)
  have hconfirm : s.next P lib principal account (.confirm i env) =
      s.confirm P principal account i env b := by
    dsimp only [Relaying.next]
    rw [hb]
  rw [hconfirm]
  unfold Relaying.confirm
  dsimp only
  rw [hencode]
  dsimp only
  rw [hanswer]
  refine ⟨rfl, fun e he => ?_⟩
  obtain ⟨i', hi', rfl⟩ := List.mem_map.mp he
  exact isIndexed_of_answer hencode hanswer hi'

end Relayer

/-! ## A transfer from two validators to the chain -/

namespace Sample
open Oracle Relayer Validator Signing World

/-- An account whose key signs the transfer, and nothing else. -/
def transferAccount (type : ValidatorName) (address : Text) (pubkey : Buff 33)
    (signature : Buff 65) : ValidatorAccount where
  type := type
  address := address
  pubkey := pubkey.bytes
  signWithKey message :=
    if message = hex (signingInput relayPrimitives orderHash) then
      hex (signature.bytes.drop 64 ++ signature.bytes.take 64)
    else []

def bisAccount : ValidatorAccount :=
  transferAccount .bis guardianAddress guardianKey guardianSignature

def unisatAccount : ValidatorAccount :=
  transferAccount .unisat secondAddress secondKey secondSignature

def transferData : BitcoinTxData where
  tx := witnessedTxA.bytes
  header := header.bytes
  height := 800000
  proof := ⟨0, proofA.hashes.map Buff.bytes, 1⟩

def bisTransfer : IndexerTx where
  amount := 5
  decimals := 18
  fromScript := aliceScript
  toScript := bobScript
  fromBal := 95
  toBal := 5
  tick := ['O', 'R', 'D', 'I']
  vout := 0
  satpoint := 0
  data := transferData

def unisatTransfer : UnisatTx where
  amount := "0.000000000000000005".toList
  decimals := 18
  fromScript := aliceScript
  toScript := bobScript
  fromBal := "0.000000000000000095".toList
  toBal := "0.000000000000000005".toList
  ticker := ['O', 'R', 'D', 'I']
  vout := 0
  offset := 0
  data := transferData

theorem submitted_bis :
    Bis.submitIndexerTx relayPrimitives bitcoinLib bisAccount bisTransfer = some bisPost := by
  decide +kernel

theorem submitted_unisat :
    Unisat.submitIndexerTx relayPrimitives SignedAmounts.units unisatAccount unisatTransfer =
      some unisatPost := by
  decide +kernel

def transferAccounts : List ValidatorAccount := [bisAccount, unisatAccount]

/-- What the loop has broadcast: the transfer, with both signatures. -/
def broadcastActions : List (Action Unit) :=
  upToLoop [bisPost, unisatPost] ++ [.broadcast () (.accepted [])]

/-- None of this executes a transaction. -/
theorem idle_broadcastActions : ∀ a ∈ broadcastActions, ∀ s : Relaying Unit,
    s.executed principal (fun _ => relayerAccount) a = none := by
  simp [broadcastActions, upToLoop, Relaying.executed]

theorem world_relayed_broadcast : (relayed broadcastActions).world = relayWorld ∧
    (Relaying.chain relayPrimitives bitcoinLib principal fun _ => relayerAccount).history
      (Relaying.start relayWorld fun _ => 0) broadcastActions = [] :=
  Relaying.world_run_of_none idle_broadcastActions (Relaying.start relayWorld fun _ => 0)

theorem signs_transfer {type : ValidatorName} {address : Text} {pubkey : Buff 33}
    {signature : Buff 65} (recoveryId : UInt8) (hid : signature.bytes.drop 64 = [recoveryId])
    (hlength : signature.bytes.length = 65) {txHash : Buff 32} (hhash : txHash.bytes = orderHash)
    (hrecover : relayPrimitives.secp256k1Recover (signedMessage relayPrimitives mainnet txHash)
      signature.bytes = .ok pubkey.bytes) :
    (transferAccount type address pubkey signature).Signs relayPrimitives pubkey.bytes
      orderHash := by
  refine ⟨recoveryId, signature.bytes.take 64, ?_, by rw [List.length_take, hlength]; rfl, ?_⟩
  · unfold transferAccount
    dsimp only
    rw [if_pos rfl, hid, List.singleton_append]
  · rw [← hid, List.take_append_drop]
    rwa [signedMessage_eq getDomainHash_relay rfl, hhash] at hrecover

theorem registered_bis : RegisteredFor relayPrimitives principal transferAccounts relayWorld
    bisAccount orderHash := by
  refine ⟨List.mem_cons_self, guardian, guardianKey, rfl, ?_,
    signs_transfer 1 (by decide) (by decide) rfl recover_guardian⟩
  rw [validators_relayWorld]
  decide

theorem registered_unisat : RegisteredFor relayPrimitives principal transferAccounts relayWorld
    unisatAccount orderHash := by
  refine ⟨List.mem_cons_of_mem _ (List.mem_singleton_self _), second, secondKey, rfl, ?_,
    signs_transfer 0 (by decide) (by decide) rfl recover_second⟩
  rw [validators_relayWorld]
  exact DataMap.set_self ..

theorem mined_transfer : ∃ tx block proof, Buff.ofBytes 8192 witnessedTxA.bytes = some tx ∧
    (⟨header.bytes, 800000⟩ : BlockArgument).encode = some block ∧
    (⟨0, proofA.hashes.map Buff.bytes, 1⟩ : ProofArgument).encode = some proof ∧
      verifyMined relayPrimitives mainnet relayWorld.mockHeaders tx block proof = .ok true :=
  ⟨witnessedTxA, ⟨header, 800000⟩, proofA, Buff.ofBytes_eq_some.mpr rfl, by decide +kernel,
    by decide +kernel, by decide +kernel⟩

theorem honest_broadcastActions : ∀ a ∈ broadcastActions, HonestAction relayPrimitives bitcoinLib
    SignedAmounts.units mainnet principal transferAccounts relayWorld a := by
  have hbis : HonestPost relayPrimitives bitcoinLib SignedAmounts.units mainnet principal
      transferAccounts relayWorld bisPost :=
    ⟨⟨bisAccount, registered_bis, .bis rfl submitted_bis⟩, mined_transfer⟩
  have hunisat : HonestPost relayPrimitives bitcoinLib SignedAmounts.units mainnet principal
      transferAccounts relayWorld unisatPost :=
    ⟨⟨unisatAccount, registered_unisat, .unisat rfl submitted_unisat⟩, mined_transfer⟩
  intro a ha
  simp only [broadcastActions, upToLoop, List.map_cons, List.map_nil, List.cons_append,
    List.nil_append, List.mem_cons, List.not_mem_nil, or_false] at ha
  rcases ha with rfl | rfl | rfl | rfl | rfl | rfl | rfl | rfl
  · exact hbis
  · exact hunisat
  · show relayWorld.oracle.requiredValidators.val ≤ relayerConfig.minimalAgreementCount
    decide +kernel
  all_goals trivial

def agreedInput : TxManyInput where
  tx := transfer.argument
  block := ⟨header.bytes, 800000⟩
  proof := ⟨0, proofA.hashes.map Buff.bytes, 1⟩
  signaturePacks := [⟨guardianAddress, orderHash, guardianSignature.bytes⟩,
    ⟨secondAddress, orderHash, secondSignature.bytes⟩]

theorem mempool_broadcast : (lookup Broadcast.key (relayed broadcastActions).mempool
    ((), (relayed broadcastActions).accountNonce ())).map Broadcast.batch = some [agreedInput] := by
  decide +kernel

theorem confirmed_transfer : ∃ b,
    lookup Broadcast.key (relayed broadcastActions).mempool
      ((), (relayed broadcastActions).accountNonce ()) = some b ∧ b.events = [bisPost.event] ∧
    ((relayed broadcastActions).next relayPrimitives bitcoinLib principal (fun _ => relayerAccount)
      (.confirm () mainnet)).failed = (relayed broadcastActions).failed ∧
    ∀ e ∈ b.events, IsIndexed ((relayed broadcastActions).next relayPrimitives bitcoinLib principal
      (fun _ => relayerAccount) (.confirm () mainnet)).world e := by
  obtain ⟨b, hb, hbatch⟩ := Option.map_eq_some_iff.mp mempool_broadcast
  obtain ⟨hworld, hhistory⟩ := world_relayed_broadcast
  have hevents : b.events = [bisPost.event] := by rw [Broadcast.events, hbatch]; rfl
  refine ⟨b, hb, hevents, honest_batch_confirmed relayPrimitives bitcoinLib SignedAmounts.units
    principal (fun _ => relayerAccount) transferAccounts getDomainHash_relay (by decide)
    (fun _ => rfl) (rfl : _ = relayed broadcastActions) rfl ?_ ?_ ?_ ?_ ?_ hb
    ?_ ?_⟩
  · rw [hworld]
    exact honest_broadcastActions
  · rw [hworld]
    exact atMostTen_relayWorld
  · rw [hworld]
    rfl
  · rw [hworld]
    decide +kernel
  · rw [hworld]
    rfl
  · rw [hworld, hevents]
    decide +kernel
  · rw [hhistory, hbatch]
    have hencode : agreedInput.tx.encode = some transfer := TxArgument.encode_eq_some.mpr rfl
    have hfilter : [agreedInput].filterMap (fun i => i.tx.encode) = [transfer] :=
      List.filterMap_cons_some hencode
    rw [hfilter]
    exact collisionFree_mono collisionFree_transfer (by simp [eventMessages])

end Sample
end BitcoinOracle
