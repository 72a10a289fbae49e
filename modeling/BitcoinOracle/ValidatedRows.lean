import BitcoinOracle.Attestations

/-! # What a validated row says

`AuthGuard` lets every known service post, and `validateOrderHash` compares the hash
with the event.  Nobody checks a signature before the contract does: a validated row
carries the signatures of its posts, as they came (`validated_backed`).

The columns of a row are those its hash is of, all but one.  `bitcoin_tx` is the
header of the block (`recomputes_iff`).
-/
namespace BitcoinOracle
open Clarity KeyedTable Relayer

/-! ## The guard -/

namespace Api

inductive ServiceType where
  | relayer
  | validator
  | indexer
  deriving DecidableEq

def ServiceType.safeParse (t : Text) : Option ServiceType :=
  if t = "relayer".toList then some .relayer
  else if t = "validator".toList then some .validator
  else if t = "indexer".toList then some .indexer
  else none

/-- `AUTH_VERSION_MAP`. -/
def authVersion : ServiceType → Text
  | .relayer => "0.0.1".toList
  | .validator => "0.0.1".toList
  | .indexer => "0.0.1".toList

structure Headers where
  authorization : Option Text
  xVersion : Option Text
  deriving DecidableEq

/-- The environment, and `verifyAsync`: the service type of the payload, if it has one. -/
structure AuthGuard where
  disableAuth : Bool
  verify : Text → Option (Option Text)

def extractTokenFromHeader (headers : Headers) : Option Text :=
  match headers.authorization.elim [] (List.splitOn ' ') with
  | type :: token :: _ => if type = "Bearer".toList then some token else none
  | _ => none

inductive AuthError where
  | unauthorized
  deriving DecidableEq

def AuthGuard.canActivate (G : AuthGuard) (headers : Headers) : Except AuthError Bool :=
  if G.disableAuth = true then .ok true
  else match extractTokenFromHeader headers with
    | none => .error .unauthorized
    | some token =>
        if token = [] then .error .unauthorized
        else match (G.verify token).bind fun payload => payload.bind ServiceType.safeParse with
          | none => .error .unauthorized
          | some serviceType => .ok (decide (headers.xVersion = some (authVersion serviceType)))

end Api

namespace Indexer
open Api
variable (P : Primitives) (lib : BitcoinLib)

/-- What goes on at the API server: requests, and the worker. -/
inductive ServerAction where
  | request (headers : Headers) (tx : TxRequest)
  | process (minimalProofs size : Nat) (rows : List ProofRow)

/-- What becomes of it at the tables. -/
def ServerAction.exec (G : AuthGuard) : ServerAction → List TableAction
  | .request headers tx => if G.canActivate headers = .ok true then [.post tx] else []
  | .process minimalProofs size rows => [.processPendingProofs minimalProofs size rows]

def ServerAction.AtLeast (minimalProofs : Nat) : ServerAction → Prop
  | .process minimalProofs' _ _ => minimalProofs ≤ minimalProofs'
  | .request _ _ => True

/-- The actions at the tables. -/
def served (G : AuthGuard) (actions : List ServerAction) : List TableAction :=
  actions.flatMap (ServerAction.exec G)

/-- The posts that the guard lets pass, and that are stored. -/
def accepted (G : AuthGuard) (actions : List ServerAction) : Set TxRequest :=
  {tx | tx ∈ (tables P lib).history .empty (served G actions) ∧
    ∃ headers, ServerAction.request headers tx ∈ actions ∧ G.canActivate headers = .ok true}

/-- Every signature of the row is one of its hash by its signer, as `Verified` has it. -/
def ValidatedRow.Signed (v : ValidatedRow)
    (Verified : Bytes → Bytes → Bytes → Text → Prop) : Prop :=
  ∀ (i : Nat) (signature signerPubkey : Bytes) (signer : Text),
    v.signatures[i]? = some signature → v.signerPubkeys[i]? = some signerPubkey →
      v.signers[i]? = some signer → Verified v.orderHash signature signerPubkey signer

/-- The columns of a row, as the argument of `hash-tx`. -/
def ValidatedRow.txArgument (v : ValidatedRow) : TxArgument :=
  { v.transfer with bitcoinTx := v.bitcoinTx }

/-- `hash-tx` of the columns is the hash. -/
def ValidatedRow.Recomputes (v : ValidatedRow) : Prop :=
  v.txArgument.encode.map (fun arg => (Oracle.hashTx P arg).bytes) = some v.orderHash

instance (v : ValidatedRow) : Decidable (v.Recomputes P) := inferInstanceAs (Decidable (_ = _))

/-- The row, as it would be hashed, does not collide with the post. -/
def NoCollision (tx : TxRequest) (v : ValidatedRow) : Prop :=
  ∀ arg arg', tx.txArgument.encode = some arg → v.txArgument.encode = some arg' →
    Oracle.hashTx P arg = Oracle.hashTx P arg' → arg = arg'

variable {P lib} {posts : Set TxRequest} {minimalProofs : Nat}

/-! ## Signatures -/

/-- A row is as good as its posts. -/
theorem ValidatedRow.Backed.signed_iff {v : ValidatedRow} {requests : List TxRequest}
    (h : v.Backed posts minimalProofs requests)
    (Verified : Bytes → Bytes → Bytes → Text → Prop) :
    v.Signed Verified ↔
      ∀ tx ∈ requests, Verified tx.orderHash tx.signature tx.signerPubkey tx.signer := by
  unfold ValidatedRow.Signed
  rw [h.signatures, h.signerPubkeys, h.signers]
  constructor
  · intro hsigned tx htx
    obtain ⟨i, hi⟩ := List.mem_iff_getElem?.mp htx
    rw [(h.posted tx htx).2]
    exact hsigned i tx.signature tx.signerPubkey tx.signer (by rw [List.getElem?_map, hi]; rfl)
      (by rw [List.getElem?_map, hi]; rfl) (by rw [List.getElem?_map, hi]; rfl)
  · intro hverified i signature signerPubkey signer hsignature hpubkey hsigner
    rw [List.getElem?_map, Option.map_eq_some_iff] at hsignature hpubkey hsigner
    obtain ⟨tx, hi, rfl⟩ := hsignature
    obtain ⟨_, hi', rfl⟩ := hpubkey
    obtain ⟨_, hi'', rfl⟩ := hsigner
    obtain rfl := Option.some.inj (hi.symm.trans hi')
    obtain rfl := Option.some.inj (hi.symm.trans hi'')
    have htx := List.mem_of_getElem? hi
    rw [← (h.posted tx htx).2]
    exact hverified tx htx

/-- What is stored was posted. -/
theorem mem_actions_of_mem_history {start : Database} {actions : List TableAction}
    {tx : TxRequest} (h : tx ∈ (tables P lib).history start actions) : .post tx ∈ actions := by
  induction actions generalizing start with
  | nil => exact nomatch h
  | cons a actions ih =>
      rcases List.mem_append.mp h with hfirst | hlater
      · change tx ∈ if (a.exec P lib start).isSome = true then a.posted else [] at hfirst
        split at hfirst
        · cases a with
          | post tx' =>
              rw [List.mem_singleton.mp hfirst]
              exact List.mem_cons_self
          | _ => exact nomatch hfirst
        · exact nomatch hfirst
      · exact List.mem_cons_of_mem a (ih hlater)

theorem post_mem_served {G : AuthGuard} {actions : List ServerAction} {tx : TxRequest}
    (h : .post tx ∈ served G actions) :
    ∃ headers, ServerAction.request headers tx ∈ actions ∧ G.canActivate headers = .ok true := by
  obtain ⟨action, haction, htx⟩ := List.mem_flatMap.mp h
  cases action with
  | request headers tx' =>
      rw [ServerAction.exec] at htx
      split at htx
      · next hguard =>
          cases List.mem_singleton.mp htx
          exact ⟨headers, haction, hguard⟩
      · exact nomatch htx
  | process minimalProofs size rows => exact nomatch List.mem_singleton.mp htx

theorem atLeast_served {G : AuthGuard} {actions : List ServerAction}
    (h : ∀ action ∈ actions, action.AtLeast minimalProofs) :
    ∀ a ∈ served G actions, a.AtLeast minimalProofs := by
  intro a ha
  obtain ⟨action, haction, ha⟩ := List.mem_flatMap.mp ha
  have hle := h action haction
  cases action with
  | request headers tx =>
      rw [ServerAction.exec] at ha
      split at ha
      · rw [List.mem_singleton.mp ha]
        trivial
      · exact nomatch ha
  | process minimalProofs' size rows =>
      rw [List.mem_singleton.mp ha]
      exact hle

theorem ValidatedRow.Backed.mono {posts' : Set TxRequest} {v : ValidatedRow}
    {requests : List TxRequest} (h : v.Backed posts minimalProofs requests)
    (hposts : ∀ tx ∈ posts, tx ∈ posts') : v.Backed posts' minimalProofs requests :=
  { h with posted := fun tx htx => ⟨hposts tx (h.posted tx htx).1, (h.posted tx htx).2⟩ }

variable (P lib) in
/-- **A validated row is backed by accepted requests, and by no more.**  It lists enough
distinct signers, and what it lists of each of them is what one accepted request said:
the row verifies exactly if all of these do. -/
theorem validated_backed (G : AuthGuard) {actions : List ServerAction}
    (hactions : ∀ action ∈ actions, action.AtLeast minimalProofs) :
    ∀ v ∈ ((tables P lib).run .empty (served G actions)).validatedTxs,
      minimalProofs ≤ v.signers.eraseDups.length ∧
      v.signerPubkeys.length = v.signers.length ∧ v.signerTypes.length = v.signers.length ∧
      v.signatures.length = v.signers.length ∧
      ∃ requests, v.Backed (accepted P lib G actions) minimalProofs requests ∧
        ∀ Verified, v.Signed Verified ↔
          ∀ tx ∈ requests, Verified tx.orderHash tx.signature tx.signerPubkey tx.signer := by
  intro v hv
  have hrecorded := recorded_run P lib (atLeast_served (G := G) hactions)
  obtain ⟨requests, hbacked⟩ := hrecorded.backed v hv
  have haccepted : v.Backed (accepted P lib G actions) minimalProofs requests :=
    hbacked.mono fun tx htx => ⟨htx, post_mem_served (mem_actions_of_mem_history htx)⟩
  refine ⟨?_, ?_, ?_, ?_, requests, haccepted, haccepted.signed_iff⟩
  · rw [hbacked.signers]
    exact hbacked.enough
  · rw [hbacked.signerPubkeys, hbacked.signers, List.length_map, List.length_map]
  · rw [hbacked.signerTypes, hbacked.signers, List.length_map, List.length_map]
  · rw [hbacked.signatures, hbacked.signers, List.length_map, List.length_map]

/-! ## Hashes -/

/-- **Columns that hash to the hash are those of the post.** -/
theorem recomputes_iff_of_post {tx : TxRequest} {v : ValidatedRow} {arg : Tx}
    (hcollision : NoCollision P tx v) (harg : tx.txArgument.encode = some arg)
    (hhash : (Oracle.hashTx P arg).bytes = v.orderHash) (htransfer : v.transfer = tx.txArgument) :
    v.Recomputes P ↔ v.bitcoinTx = v.event.txHash := by
  have hcolumns : v.txArgument.bitcoinTx = v.bitcoinTx := rfl
  have hhashed : tx.txArgument.bitcoinTx = v.event.txHash := by
    rw [← htransfer]
    rfl
  constructor
  · intro hrecomputes
    obtain ⟨arg', harg', hhash'⟩ := Option.map_eq_some_iff.mp hrecomputes
    have hsame := hcollision arg arg' harg harg' (Buff.ext (hhash.trans hhash'.symm))
    rw [← hcolumns, ← hhashed, ← TxArgument.encode_eq_some.mp harg,
      ← TxArgument.encode_eq_some.mp harg', hsame]
  · intro hsame
    have htx : v.txArgument = tx.txArgument := by
      rw [ValidatedRow.txArgument, hsame, ← htransfer]
      rfl
    rw [ValidatedRow.Recomputes, htx, harg, ← hhash]
    rfl

variable (P lib) in
/-- **A row recomputes to its hash exactly if the first post of the event has the
transaction for a header.** -/
theorem recomputes_iff {actions : List TableAction}
    (hcollision : ∀ tx ∈ (tables P lib).history .empty actions,
      ∀ v ∈ ((tables P lib).run .empty actions).validatedTxs, NoCollision P tx v) :
    ∀ v ∈ ((tables P lib).run .empty actions).validatedTxs,
      v.Recomputes P ↔ ∃ first,
        lookup (TxRequest.id P) ((tables P lib).history .empty actions) (v.id P) = some first ∧
          first.header = v.event.txHash := by
  intro v hv
  have hempty : Unique (TxRow.id P) Database.empty.txs := List.nodup_nil
  have hfirst := firstPosted_run P lib hempty actions
  have hrecorded : Recorded {tx | tx ∈ (tables P lib).history .empty actions} 0
      ((tables P lib).run .empty actions) := by
    refine recorded_run P lib fun a _ => ?_
    cases a with
    | processPendingProofs minimalProofs size rows => exact Nat.zero_le minimalProofs
    | _ => trivial
  obtain ⟨requests, hbacked⟩ := hrecorded.backed v hv
  obtain ⟨tx, htx, htransfer⟩ := hbacked.transfer
  obtain ⟨hposted, hhash⟩ := hbacked.posted tx htx
  obtain ⟨arg, harg, hserver⟩ := hashed_history P lib _ _ tx hposted
  rw [recomputes_iff_of_post (hcollision tx hposted v hv) harg (hserver.trans hhash) htransfer]
  -- the column is the header of the row of `txs`, which is that of the first post
  have hmined := hfirst.mined (v.id P)
  rw [(hfirst.validated v hv).resolve_left (fun h => nomatch h)] at hmined
  change _ = Option.map TxRequest.mined _ at hmined
  obtain ⟨first, hlookup, hblock⟩ := Option.map_eq_some_iff.mp hmined.symm
  have hheader : first.header = v.bitcoinTx := congrArg Mined.header hblock
  rw [hlookup]
  constructor
  · intro hsame
    exact ⟨first, rfl, hheader.trans hsame⟩
  · rintro ⟨_, heq, hsame⟩
    rw [← hheader, Option.some.inj heq]
    exact hsame

/-- Requests that the guard lets pass are posts. -/
theorem served_requests {G : AuthGuard} {headers : Headers}
    (hguard : G.canActivate headers = .ok true) (posts : List TxRequest)
    (actions : List ServerAction) :
    served G (posts.map (.request headers) ++ actions) = posts.map .post ++ served G actions := by
  induction posts with
  | nil => rfl
  | cons tx posts ih =>
      show (if G.canActivate headers = .ok true then [.post tx] else []) ++
        served G (posts.map (.request headers) ++ actions) = _
      rw [if_pos hguard, ih]
      rfl

end Indexer

namespace Sample
open Indexer Relayer Api Oracle

/-- The server knows one token, that of a validator. -/
def authGuard : AuthGuard where
  disableAuth := false
  verify token := if token = "token".toList then some (some "validator".toList) else none

def headers : Headers := ⟨some "Bearer token".toList, some "0.0.1".toList⟩

/-- A validator without the token, or without a recent version, is turned away. -/
example : authGuard.canActivate ⟨some "Bearer".toList, some "0.0.1".toList⟩ =
      .error .unauthorized ∧
    authGuard.canActivate ⟨some "Bearer token".toList, none⟩ = .ok false := by
  decide

def requestsAfter (posts : List TxRequest) : List ServerAction :=
  posts.map (.request headers) ++ [.process 2 1000 (posted posts).proofs]

theorem canActivate_headers : authGuard.canActivate headers = .ok true := by decide

theorem served_requestsAfter (posts : List TxRequest) :
    served authGuard (requestsAfter posts) = processAfter posts :=
  served_requests canActivate_headers posts _

theorem atLeast_requestsAfter (posts : List TxRequest) :
    ∀ action ∈ requestsAfter posts, action.AtLeast 2 := by
  intro action haction
  rcases List.mem_append.mp haction with hrequest | hprocess
  · obtain ⟨tx, -, rfl⟩ := List.mem_map.mp hrequest
    trivial
  · rw [List.mem_singleton.mp hprocess]
    exact le_rfl

/-- The signature is one of the hash, on the main chain, by the key. -/
def Verified (hash signature signerPubkey : Bytes) : Prop :=
  ∃ txHash : Buff 32, txHash.bytes = hash ∧
    relayPrimitives.secp256k1Recover (signedMessage relayPrimitives mainnet txHash) signature =
      .ok signerPubkey

/-- Two validators sign, and so the row verifies. -/
theorem signed_agreed : ((tables relayPrimitives bitcoinLib).run .empty
      (served authGuard (requestsAfter [bisPost, unisatPost]))).validatedTxs ≠ [] ∧
    ∀ v ∈ ((tables relayPrimitives bitcoinLib).run .empty
      (served authGuard (requestsAfter [bisPost, unisatPost]))).validatedTxs,
      v.Signed fun hash signature signerPubkey _ => Verified hash signature signerPubkey := by
  obtain ⟨hhistory, -, -, hrow⟩ := processAfter_agreed
  constructor
  · rw [served_requestsAfter]
    exact hrow
  intro v hv
  obtain ⟨-, -, -, -, requests, hbacked, hsigned⟩ := validated_backed relayPrimitives bitcoinLib
    authGuard (atLeast_requestsAfter [bisPost, unisatPost]) v hv
  refine (hsigned _).mpr fun tx htx => ?_
  have hmem := (hbacked.posted tx htx).1.1
  rw [served_requestsAfter, hhistory] at hmem
  rcases List.mem_pair.mp hmem with rfl | rfl
  · exact ⟨⟨orderHash, by decide⟩, rfl, recover_guardian⟩
  · exact ⟨⟨orderHash, by decide⟩, rfl, recover_second⟩

/-- Two posts of the transfer in the names of the validators, with made-up signatures. -/
def forgedPosts : List TxRequest :=
  [{ bisPost with signature := List.replicate 65 0 },
    { unisatPost with signature := List.replicate 64 0 ++ [1] }]

theorem forged_row : (∃ v ∈ (tablesAfter forgedPosts).validatedTxs, v.orderHash = orderHash ∧
      v.signatures[0]? = some (List.replicate 65 0) ∧
      v.signerPubkeys[0]? = some guardianKey.bytes ∧ v.signers[0]? = some guardianAddress) ∧
    relayPrimitives.secp256k1Recover (signedMessage relayPrimitives mainnet
      ⟨orderHash, by decide⟩) (List.replicate 65 0) ≠ .ok guardianKey.bytes := by
  decide +kernel

/-- **Two accepted requests with made-up signatures are validated.** -/
theorem forged_validated : (∀ action ∈ requestsAfter forgedPosts, action.AtLeast 2) ∧
    ∃ v ∈ ((tables relayPrimitives bitcoinLib).run .empty
      (served authGuard (requestsAfter forgedPosts))).validatedTxs,
      ∀ IsKeyOf : Bytes → Text → Prop, ¬ v.Signed fun hash signature signerPubkey signer =>
        Verified hash signature signerPubkey ∧ IsKeyOf signerPubkey signer := by
  refine ⟨atLeast_requestsAfter forgedPosts, ?_⟩
  rw [served_requestsAfter]
  obtain ⟨⟨v, hv, hhash, hsignature, hpubkey, hsigner⟩, hforged⟩ := forged_row
  refine ⟨v, hv, fun IsKeyOf hsigned => ?_⟩
  obtain ⟨⟨txHash, htxHash, hrecover⟩, -⟩ := hsigned 0 _ _ _ hsignature hpubkey hsigner
  obtain rfl : txHash = ⟨orderHash, by decide⟩ := Buff.ext (htxHash.trans hhash)
  exact hforged hrecover

/-- The posts of two validators that take the transaction for the header. -/
def rawPosts : List TxRequest :=
  [bisPost, unisatPost].map fun tx => { tx with header := tx.txHash }

theorem rawPosts_processed :
    (tables relayPrimitives bitcoinLib).history .empty (processAfter rawPosts) = rawPosts ∧
      (tablesAfter rawPosts).validatedTxs ≠ [] ∧
      ∀ v ∈ (tablesAfter rawPosts).validatedTxs,
        v.txArgument = transfer.argument ∧ v.event = bisPost.event := by
  decide +kernel

/-- Their row recomputes to its hash. -/
theorem recomputes_raw : (tablesAfter rawPosts).validatedTxs ≠ [] ∧
    ∀ v ∈ (tablesAfter rawPosts).validatedTxs, v.Recomputes relayPrimitives := by
  obtain ⟨hhistory, hrow, hrows⟩ := rawPosts_processed
  refine ⟨hrow, fun v hv => ?_⟩
  change v ∈ ((tables relayPrimitives bitcoinLib).run .empty (processAfter rawPosts)).validatedTxs
    at hv
  refine (recomputes_iff relayPrimitives bitcoinLib
    (fun tx htx w hw arg arg' harg harg' _ => ?_) v hv).mpr ?_
  · rw [hhistory] at htx
    obtain ⟨tx', htx', rfl⟩ := List.mem_map.mp htx
    have hsame : ∀ tx ∈ [bisPost, unisatPost], tx.txArgument = transfer.argument := by decide
    rw [(hrows w hw).1, ← hsame tx' htx'] at harg'
    exact Option.some.inj (harg.symm.trans harg')
  · have hid : TxRequest.id relayPrimitives { bisPost with header := bisPost.txHash } =
        v.id relayPrimitives := congrArg (computeTxsId relayPrimitives) (hrows v hv).2.symm
    rw [hhistory]
    refine ⟨{ bisPost with header := bisPost.txHash }, ?_, ?_⟩
    · exact (lookup_cons ..).trans (if_pos hid)
    · rw [(hrows v hv).2]
      rfl

/-- **What honest validators post does not recompute: the header is in the place of the
transaction.** -/
theorem header_not_recomputed :
    (tables relayPrimitives bitcoinLib).history .empty (processAfter [bisPost, unisatPost]) =
        [bisPost, unisatPost] ∧
      ∃ v ∈ (tablesAfter [bisPost, unisatPost]).validatedTxs,
        v.bitcoinTx = bisPost.header ∧ ¬ v.Recomputes relayPrimitives := by
  decide +kernel

end Sample
end BitcoinOracle
