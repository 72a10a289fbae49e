import BitcoinOracle.ConsensusValues
import BitcoinOracle.MinedCheck
import BitcoinOracle.RelayedBatches
import BitcoinOracle.SubmittedIds

/-! # What a signature stands for

A validator encodes an order as the tuple `hash-tx` takes, hashes its serialization, and
signs the digest of that hash behind a prefix and a domain.  The contract computes the
same message from the event of a batch, and neither step loses anything: a serialization
is read in one way, the prefix and the domain have fixed lengths.  So unless two of the
messages collide, a signature counts for the event it was made for and for no other, and
on no chain but the main one (`argument_of_signedMessage`).

What an honest validator has signed is a parameter: a signature of its that the contract
takes was made by `signOrderHash`.
-/
namespace BitcoinOracle
open Clarity

/-! ## The code of the validators -/

namespace Signing
variable (P : Primitives)

def structuredDataHash (structuredData : Value) : Bytes := P.sha256 structuredData.serialize

/-- The domain of `sign-tx-hash`, which signs for either network. -/
def domainHash (chainId : Nat) : Bytes :=
  structuredDataHash P (.tuple [
    ("chain-id".toList, .uint chainId),
    ("name".toList, .stringAscii "ALEX BRC20 Indexer".toList),
    ("version".toList, .stringAscii "0.0.1".toList)])

def getDomainHash : Bytes := domainHash P 1

def kStructuredDataPrefix : Bytes := [0x53, 0x49, 0x50, 0x30, 0x31, 0x38]

/-- `uintCV`. -/
def uintCV (v : Int) : Option Value := if 0 ≤ v ∧ v < 2 ^ 128 then some (.uint v.toNat) else none

/-- `bufferCV`. -/
def bufferCV (b : Bytes) : Option Value := if b.length ≤ 1000000 then some (.buffer b) else none

/-- `stringUtf8CV`.  No string of JavaScript is so long that its length does not fit. -/
def stringUtf8CV (s : Text) : Option Value :=
  if (utf8 s).length < 2 ^ 32 then some (.stringUtf8 s) else none

/-- The encoder of the argument of `hash-tx`, or `none` for an exception. -/
def encodeOrder (order : TxArgument) : Option Value := do
  let amt ← uintCV order.amt
  let bitcoinTx ← bufferCV order.bitcoinTx
  let decimals ← uintCV order.decimals
  let fromUser ← bufferCV order.fromUser
  let fromBal ← uintCV order.fromBal
  let offset ← uintCV order.offset
  let output ← uintCV order.output
  let tick ← stringUtf8CV order.tick
  let toUser ← bufferCV order.toUser
  let toBal ← uintCV order.toBal
  some (.tuple [
    ("amt".toList, amt),
    ("bitcoin-tx".toList, bitcoinTx),
    ("decimals".toList, decimals),
    ("from".toList, fromUser),
    ("from-bal".toList, fromBal),
    ("offset".toList, offset),
    ("output".toList, output),
    ("tick".toList, tick),
    ("to".toList, toUser),
    ("to-bal".toList, toBal)])

def generateOrderHash (order : TxArgument) : Option Bytes :=
  (encodeOrder order).map (structuredDataHash P)

/-- What `signOrderHash` signs. -/
def signingInput (orderHash : Bytes) : Bytes :=
  P.sha256 (kStructuredDataPrefix ++ (getDomainHash P ++ orderHash))

/-- `signOrderHash` with the key `signWithKey` signs by.  It answers the recovery id before
the signature, and the contract wants it behind. -/
def signOrderHash (signWithKey : Text → Text) (orderHash : Bytes) : Bytes :=
  let data := signWithKey (Indexer.hex (signingInput P orderHash))
  bufferFromHex (data.drop 2 ++ data.take 2)

end Signing

/-! ## Encodings -/

namespace Signing

/-- What the encoders ask of an order. -/
structure Encodable (order : TxArgument) : Prop where
  amt : 0 ≤ order.amt ∧ order.amt < 2 ^ 128
  bitcoinTx : order.bitcoinTx.length ≤ 1000000
  decimals : 0 ≤ order.decimals ∧ order.decimals < 2 ^ 128
  fromUser : order.fromUser.length ≤ 1000000
  fromBal : 0 ≤ order.fromBal ∧ order.fromBal < 2 ^ 128
  offset : 0 ≤ order.offset ∧ order.offset < 2 ^ 128
  output : 0 ≤ order.output ∧ order.output < 2 ^ 128
  tick : (utf8 order.tick).length < 2 ^ 32
  toUser : order.toUser.length ≤ 1000000
  toBal : 0 ≤ order.toBal ∧ order.toBal < 2 ^ 128

/-- The tuple of an order whose integers are natural numbers. -/
def orderValue (order : TxArgument) : Value :=
  .tuple [
    ("amt".toList, .uint order.amt.toNat),
    ("bitcoin-tx".toList, .buffer order.bitcoinTx),
    ("decimals".toList, .uint order.decimals.toNat),
    ("from".toList, .buffer order.fromUser),
    ("from-bal".toList, .uint order.fromBal.toNat),
    ("offset".toList, .uint order.offset.toNat),
    ("output".toList, .uint order.output.toNat),
    ("tick".toList, .stringUtf8 order.tick),
    ("to".toList, .buffer order.toUser),
    ("to-bal".toList, .uint order.toBal.toNat)]

theorem encodeOrder_eq_some {order : TxArgument} {v : Value} :
    encodeOrder order = some v ↔ Encodable order ∧ orderValue order = v := by
  simp only [encodeOrder, uintCV, bufferCV, stringUtf8CV, Option.bind_eq_bind,
    Option.bind_eq_some_iff, Option.ite_none_right_eq_some, Option.some.injEq]
  constructor
  · rintro ⟨_, ⟨hamt, rfl⟩, _, ⟨hbitcoinTx, rfl⟩, _, ⟨hdecimals, rfl⟩, _, ⟨hfromUser, rfl⟩,
      _, ⟨hfromBal, rfl⟩, _, ⟨hoffset, rfl⟩, _, ⟨houtput, rfl⟩, _, ⟨htick, rfl⟩, _, ⟨htoUser, rfl⟩,
      _, ⟨htoBal, rfl⟩, rfl⟩
    exact ⟨⟨hamt, hbitcoinTx, hdecimals, hfromUser, hfromBal, hoffset, houtput, htick, htoUser,
      htoBal⟩, rfl⟩
  · rintro ⟨h, rfl⟩
    exact ⟨_, ⟨h.amt, rfl⟩, _, ⟨h.bitcoinTx, rfl⟩, _, ⟨h.decimals, rfl⟩, _, ⟨h.fromUser, rfl⟩,
      _, ⟨h.fromBal, rfl⟩, _, ⟨h.offset, rfl⟩, _, ⟨h.output, rfl⟩, _, ⟨h.tick, rfl⟩,
      _, ⟨h.toUser, rfl⟩, _, ⟨h.toBal, rfl⟩, rfl⟩

/-- The tuple of an order tells the order. -/
theorem orderValue_inj {order order' : TxArgument} (h : Encodable order) (h' : Encodable order')
    (hvalue : orderValue order = orderValue order') : order = order' := by
  have hint : ∀ {x y : Int}, 0 ≤ x → 0 ≤ y → x.toNat = y.toNat → x = y := by omega
  simp only [orderValue, Value.tuple.injEq, List.cons.injEq, Prod.mk.injEq, Value.uint.injEq,
    Value.buffer.injEq, Value.stringUtf8.injEq, true_and, and_true] at hvalue
  obtain ⟨hamt, hbitcoinTx, hdecimals, hfromUser, hfromBal, hoffset, houtput, htick, htoUser,
    htoBal⟩ := hvalue
  cases order
  cases order'
  rw [TxArgument.mk.injEq]
  exact ⟨hbitcoinTx, hint h.output.1 h'.output.1 houtput, hint h.offset.1 h'.offset.1 hoffset,
    htick, hint h.amt.1 h'.amt.1 hamt, hfromUser, htoUser, hint h.fromBal.1 h'.fromBal.1 hfromBal,
    hint h.toBal.1 h'.toBal.1 htoBal, hint h.decimals.1 h'.decimals.1 hdecimals⟩

/-- The names of the tuple, whatever its values. -/
theorem isName_names : Value.IsName "amt".toList ∧ Value.IsName "bitcoin-tx".toList ∧
    Value.IsName "decimals".toList ∧ Value.IsName "from".toList ∧
    Value.IsName "from-bal".toList ∧ Value.IsName "offset".toList ∧
    Value.IsName "output".toList ∧ Value.IsName "tick".toList ∧ Value.IsName "to".toList ∧
    Value.IsName "to-bal".toList := by
  decide +kernel

theorem Encodable.fits {order : TxArgument} (h : Encodable order) : (orderValue order).Fits := by
  obtain ⟨n0, n1, n2, n3, n4, n5, n6, n7, n8, n9⟩ := isName_names
  have huint : ∀ {v : Int}, 0 ≤ v ∧ v < 2 ^ 128 → v.toNat < 2 ^ 128 := by omega
  have hbuffer : ∀ {b : Bytes}, b.length ≤ 1000000 → b.length < 2 ^ 32 := by omega
  exact ⟨by simp, n0, huint h.amt, n1, hbuffer h.bitcoinTx, n2, huint h.decimals,
    n3, hbuffer h.fromUser, n4, huint h.fromBal, n5, huint h.offset, n6, huint h.output,
    n7, h.tick, n8, hbuffer h.toUser, n9, huint h.toBal, trivial⟩

/-! ## Events -/

theorem length_utf8_le (cs : List Char) : (utf8 cs).length ≤ 4 * cs.length := by
  induction cs with
  | nil => exact Nat.le_refl 0
  | cons c cs ih =>
      have hchar : (String.utf8EncodeChar c).length ≤ 4 := by
        rw [String.length_utf8EncodeChar]
        exact c.utf8Size_le_four
      rw [utf8, List.flatMap_cons, List.length_append, List.length_cons]
      have hrest : (cs.flatMap String.utf8EncodeChar).length ≤ 4 * cs.length := ih
      omega

theorem encodable_argument (tx : Tx) : Encodable tx.argument := by
  have huint : ∀ u : Uint, 0 ≤ (u.val : Int) ∧ (u.val : Int) < 2 ^ 128 := by
    intro u
    have := u.isLt
    omega
  have htick := (length_utf8_le tx.tick.chars).trans
    (Nat.mul_le_mul_left 4 tx.tick.length_le)
  exact ⟨huint _, tx.bitcoinTx.length_le.trans (by decide), huint _,
    tx.fromUser.length_le.trans (by decide), huint _, huint _, huint _,
    Nat.lt_of_le_of_lt htick (by decide), tx.toUser.length_le.trans (by decide), huint _⟩

/-- The contract serializes the tuple the validators serialize. -/
theorem serialize_argument (tx : Tx) :
    (orderValue tx.argument).serialize = Oracle.serializeTx tx := by
  simp [orderValue, Tx.argument, Value.serialize, Value.serializeEntries, Oracle.serializeTx,
    serializeTuple, serializeUint, serializeBuff, serializeStringUtf8]

section Events
variable {P : Primitives} {tx : Tx} {order : TxArgument}

/-- **The hash of an order is the one the contract computes**, where it is called. -/
theorem generateOrderHash_of_encode (h : order.encode = some tx) :
    generateOrderHash P order = some (Oracle.hashTx P tx).bytes := by
  rw [TxArgument.encode_eq_some] at h
  subst h
  rw [generateOrderHash, encodeOrder_eq_some.mpr ⟨encodable_argument tx, rfl⟩, Option.map_some,
    structuredDataHash, serialize_argument]
  rfl

/-- An order that is serialized like an event is that event. -/
theorem argument_of_serialize {v : Value} (hv : encodeOrder order = some v)
    (h : v.serialize = Oracle.serializeTx tx) : order = tx.argument := by
  obtain ⟨horder, rfl⟩ := encodeOrder_eq_some.mp hv
  have htx := encodable_argument tx
  rw [← serialize_argument] at h
  exact orderValue_inj horder htx (Value.serialize_inj horder.fits htx.fits h)

/-- No two events are serialized alike. -/
theorem serializeTx_inj {tx' : Tx} (h : Oracle.serializeTx tx = Oracle.serializeTx tx') :
    tx = tx' := by
  have hsame := argument_of_serialize
    (encodeOrder_eq_some.mpr ⟨encodable_argument tx, rfl⟩) ((serialize_argument tx).trans h)
  exact Option.some.inj ((TxArgument.encode_eq_some.mpr rfl).symm.trans
    (TxArgument.encode_eq_some.mpr hsame.symm))

end Events

/-! ## Signatures -/

/-- **A signature reaches the contract as it recovers its key**: the answer of `signWithKey`
begins with the recovery id, and `signOrderHash` puts it behind. -/
theorem signOrderHash_eq {P : Primitives} {signWithKey : Text → Text} {orderHash rs : Bytes}
    {recoveryId : UInt8} (hdata : signWithKey (Indexer.hex (signingInput P orderHash)) =
      Indexer.hex (recoveryId :: rs)) :
    signOrderHash P signWithKey orderHash = rs ++ [recoveryId] := by
  have hrotated : ((Indexer.hex (recoveryId :: rs)).drop 2 ++
      (Indexer.hex (recoveryId :: rs)).take 2) = Indexer.hex (rs ++ [recoveryId]) := by
    simp [Indexer.hex]
  rw [signOrderHash, hdata, hrotated, bufferFromHex_hex]

/-- What is hashed on the way from an order to a signature. -/
def orderMessages (P : Primitives) (order : TxArgument) : List Bytes :=
  (encodeOrder order).toList.flatMap fun v =>
    [v.serialize, kStructuredDataPrefix ++ (getDomainHash P ++ structuredDataHash P v)]

/-- What the contract hashes to check a signature of an event. -/
def eventMessages (P : Primitives) (env : Env) (tx : Tx) : List Bytes :=
  [Oracle.serializeTx tx,
    Oracle.structuredDataPrefix ++ (Oracle.messageDomain env ++ (Oracle.hashTx P tx).bytes)]

section MainChain
variable {P : Primitives} {env : Env} (hdomain : getDomainHash P = Oracle.messageDomainMainnet)
include hdomain

/-- On the main chain the contract checks what the validators sign. -/
theorem signedMessage_eq (hchain : env.chainId = 1) (hash : Buff 32) :
    Oracle.signedMessage P env hash = signingInput P hash.bytes := by
  have hpre : Oracle.structuredDataPrefix = kStructuredDataPrefix := by decide
  rw [Oracle.signedMessage, Oracle.messageDomain, if_pos hchain, hpre, ← hdomain, signingInput]

theorem orderMessages_argument (hchain : env.chainId = 1) (tx : Tx) :
    orderMessages P tx.argument = eventMessages P env tx := by
  have hpre : kStructuredDataPrefix = Oracle.structuredDataPrefix := by decide
  rw [orderMessages, encodeOrder_eq_some.mpr ⟨encodable_argument tx, rfl⟩, Option.toList_some,
    List.flatMap_singleton, structuredDataHash, serialize_argument, hdomain, hpre,
    eventMessages, Oracle.messageDomain, if_pos hchain]
  rfl

end MainChain

open ClarityBitcoin in
theorem collisionFree_mono {P : Primitives} {ms ms' : List Bytes} (h : CollisionFree P ms')
    (hsub : ms ⊆ ms') : CollisionFree P ms := by
  have hall : ms ++ ms.map P.sha256 ⊆ ms' ++ ms'.map P.sha256 := fun m hm => by
    rcases List.mem_append.mp hm with hm | hm
    · exact List.mem_append_left _ (hsub hm)
    · exact List.mem_append_right _ (List.map_subset _ hsub hm)
  exact fun m hm m' hm' heq => h m (hall hm) m' (hall hm') heq

open ClarityBitcoin in
/-- **The message of an event is the message of no other order**, and of none on another
chain. -/
theorem argument_of_signedMessage {P : Primitives} {env : Env} {tx : Tx} {order : TxArgument}
    {hash : Bytes} (hdomain : getDomainHash P = Oracle.messageDomainMainnet)
    (hfree : CollisionFree P (eventMessages P env tx ++ orderMessages P order))
    (hhash : generateOrderHash P order = some hash)
    (h : Oracle.signedMessage P env (Oracle.hashTx P tx) = signingInput P hash) :
    env.chainId = 1 ∧ order = tx.argument := by
  obtain ⟨v, hv, rfl⟩ := Option.map_eq_some_iff.mp hhash
  have hmem : ∀ m ∈ eventMessages P env tx ++ orderMessages P order,
      ∀ m' ∈ eventMessages P env tx ++ orderMessages P order,
        P.sha256 m = P.sha256 m' → m = m' := fun m hm m' hm' =>
    hfree m (List.mem_append_left _ hm) m' (List.mem_append_left _ hm')
  have horder : orderMessages P order =
      [v.serialize, kStructuredDataPrefix ++ (getDomainHash P ++ structuredDataHash P v)] := by
    rw [orderMessages, hv]
    rfl
  rw [horder] at hmem
  have hinput := hmem _ (by simp [eventMessages]) _ (by simp) h
  -- the prefix and the domain have the same lengths on either side
  have hpre : Oracle.structuredDataPrefix = kStructuredDataPrefix := by decide
  rw [hpre, hdomain] at hinput
  have hinput := List.append_cancel_left hinput
  have hlength : ∀ env, (Oracle.messageDomain env).length = Oracle.messageDomainMainnet.length := by
    intro env
    unfold Oracle.messageDomain
    split
    · rfl
    · decide
  obtain ⟨hchain, hdigest⟩ := List.append_inj hinput (hlength env)
  constructor
  · unfold Oracle.messageDomain at hchain
    by_contra hother
    rw [if_neg hother] at hchain
    exact absurd hchain (by decide)
  · exact argument_of_serialize hv (hmem _ (by simp) _ (by simp [eventMessages]) hdigest.symm)

end Signing

/-! ## Accepted events -/

namespace World
open Oracle Signing
open ClarityBitcoin (CollisionFree)
variable (P : Primitives)

section Honest
variable (faulty : List Principal) (signed : Principal → Set TxArgument)

/-- The signatures of an event that are taken from validators that are not faulty were made
by them, each for an order. -/
def Unforged (env : Env) (validators : DataMap Principal (Buff 33)) (e : SignedTx) : Prop :=
  ∀ pack ∈ e.signaturePacks, pack.signer ∉ faulty →
    ∀ pubkey, validators pack.signer = some pubkey →
      P.secp256k1Recover (signedMessage P env (hashTx P e.tx)) pack.signature.bytes =
        .ok pubkey.bytes →
      ∃ order ∈ signed pack.signer, ∃ hash, generateOrderHash P order = some hash ∧
        signedMessage P env (hashTx P e.tx) = signingInput P hash

/-- The messages of an event do not collide with those of the orders of its signers. -/
def Collisionless (env : Env) (e : SignedTx) : Prop :=
  ∀ signer ∈ e.signers, ∀ order ∈ signed signer,
    CollisionFree P (eventMessages P env e.tx ++ orderMessages P order)

variable {P faulty signed}

/-- An event that is accepted was signed by one validator at least that is not faulty, and
each of them signed the very event. -/
theorem signed_of_accepts {w : World} {env : Env} {e : SignedTx} (h : Accepts P env w e)
    (hdomain : getDomainHash P = messageDomainMainnet)
    (hfaulty : faulty.length < w.oracle.requiredValidators.val)
    (hmade : Unforged P faulty signed env w.oracle.validators e)
    (hfree : Collisionless P signed env e) : env.chainId = 1 ∧
      (∃ signer ∈ e.signers, signer ∉ faulty) ∧
      ∀ signer ∈ e.signers, (w.oracle.validators signer).isSome = true ∧
        (signer ∉ faulty → e.tx.argument ∈ signed signer) := by
  -- what one honest signature says
  have hsigned : ∀ pack ∈ e.signaturePacks, (w.oracle.validators pack.signer).isSome = true ∧
      (pack.signer ∉ faulty → env.chainId = 1 ∧ e.tx.argument ∈ signed pack.signer) := by
    intro pack hpack
    obtain ⟨⟨pubkey, hkey, hrecover⟩, -, -⟩ := h.valid pack hpack
    refine ⟨by rw [hkey]; rfl, fun hhonest => ?_⟩
    obtain ⟨order, horder, hash, hhash, hmessage⟩ :=
      hmade pack hpack hhonest pubkey hkey (toOption_eq_some.mp hrecover)
    have hcollision := hfree pack.signer (List.mem_map_of_mem hpack) order horder
    obtain ⟨hchain, rfl⟩ := argument_of_signedMessage hdomain hcollision hhash hmessage
    exact ⟨hchain, horder⟩
  -- there are more signers than faulty validators, and they are distinct
  have hhonest : ∃ signer ∈ e.signers, signer ∉ faulty := by
    by_contra hnone
    have hsubset : e.signers ⊆ faulty := fun signer hsigner =>
      by_contra fun hnot => hnone ⟨signer, hsigner, hnot⟩
    have hcount := (List.subperm_of_subset h.distinct hsubset).length_le
    have hthreshold := h.threshold
    rw [SignedTx.signers, List.length_map] at hcount
    omega
  refine ⟨?_, hhonest, fun signer hsigner => ?_⟩
  · obtain ⟨signer, hsigner, hnot⟩ := hhonest
    obtain ⟨pack, hpack, rfl⟩ := List.mem_map.mp hsigner
    exact ((hsigned pack hpack).2 hnot).1
  · obtain ⟨pack, hpack, rfl⟩ := List.mem_map.mp hsigner
    exact ⟨(hsigned pack hpack).1, fun hnot => ((hsigned pack hpack).2 hnot).2⟩

end Honest

/-- **With fewer faulty validators than signatures are required, no event is indexed that
no honest validator has signed.**  In whatever state a batch is accepted, each of its
events was signed, field for field, by every honest validator among its signers, one of
them is honest, and the chain is the main one. -/
theorem accepted_signed {w : World} {t : Transaction} {txMany : TxMany} {a : Answer}
    (hcall : t.call = .indexTxMany txMany) (hok : answer P w t = .ok a)
    (hdomain : getDomainHash P = messageDomainMainnet) {faulty : List Principal}
    (hfaulty : faulty.length < w.oracle.requiredValidators.val)
    {signed : Principal → Set TxArgument}
    (hmade : ∀ e ∈ txMany.elements, ∀ pack ∈ e.signaturePacks, pack.signer ∉ faulty →
      ∀ pubkey, w.oracle.validators pack.signer = some pubkey →
        P.secp256k1Recover (signedMessage P t.env (hashTx P e.tx)) pack.signature.bytes =
          .ok pubkey.bytes →
        ∃ order ∈ signed pack.signer, ∃ hash, generateOrderHash P order = some hash ∧
          signedMessage P t.env (hashTx P e.tx) = signingInput P hash)
    (hfree : ∀ e ∈ txMany.elements, ∀ signer ∈ e.signers, ∀ order ∈ signed signer,
      CollisionFree P (eventMessages P t.env e.tx ++ orderMessages P order)) :
    ∀ e ∈ txMany.elements, t.env.chainId = 1 ∧
      (∃ signer ∈ e.signers, signer ∉ faulty) ∧
      ∀ signer ∈ e.signers, (w.oracle.validators signer).isSome = true ∧
        (signer ∉ faulty → e.tx.argument ∈ signed signer) := by
  intro e he
  obtain ⟨before, after, helements⟩ := List.append_of_mem he
  have haccepts := accepts_of_answer P hcall hok helements
  have hvalidators := indexAll_validators P w before
  rw [← hvalidators]
  refine signed_of_accepts haccepts hdomain ?_ ?_ (hfree e he)
  · rwa [indexAll_requiredValidators]
  · rw [hvalidators]
    exact hmade e he

end World

/-! ## A transfer signed by two -/

namespace Sample
open Oracle Signing World Relayer

theorem getDomainHash_relay : getDomainHash relayPrimitives = messageDomainMainnet := by
  decide +kernel

/-- The script that signs for the test chain has the domain of the test chain. -/
example : domainHash relayPrimitives 0x80000000 = messageDomainTestnet := by
  decide +kernel

/-- Both validators have to sign. -/
def strictWorld : World :=
  (deployment relayPrimitives).next relayWorld
    ⟨mainnet, deployer, .oracle (.setRequiredValidators 2)⟩

def agreedTransfer : SignedTx where
  tx := transfer
  block := ⟨header, 800000⟩
  proof := proofA
  signaturePacks := [⟨guardian, hashTx relayPrimitives transfer, guardianSignature⟩,
    ⟨second, hashTx relayPrimitives transfer, secondSignature⟩]
  signaturePacks_length := by decide

def agreedMany : TxMany := ⟨[agreedTransfer], by decide⟩

theorem answer_agreedMany :
    answer relayPrimitives strictWorld (submit mainnet agreedMany) = .ok (.bool true) := by
  decide +kernel

theorem collisionFree_transfer : ClarityBitcoin.CollisionFree relayPrimitives
    (eventMessages relayPrimitives mainnet transfer) := by
  decide +kernel

/-- The second validator may be faulty: the guardian has signed the transfer. -/
theorem accepted_signed_transfer : mainnet.chainId = 1 ∧
    (∃ signer ∈ agreedTransfer.signers, signer ∉ [second]) ∧
    ∀ signer ∈ agreedTransfer.signers, (strictWorld.oracle.validators signer).isSome = true ∧
      (signer ∉ [second] →
        agreedTransfer.tx.argument ∈ ({transfer.argument} : Set TxArgument)) := by
  refine World.accepted_signed relayPrimitives (t := submit mainnet agreedMany) rfl
    answer_agreedMany getDomainHash_relay
    (show [second].length < strictWorld.oracle.requiredValidators.val from by decide) ?_ ?_
    agreedTransfer (List.mem_singleton_self agreedTransfer)
  · intro e he pack _ _ _ _ _
    obtain rfl := List.mem_singleton.mp he
    exact ⟨_, rfl, _, generateOrderHash_of_encode (TxArgument.encode_eq_some.mpr rfl),
      signedMessage_eq getDomainHash_relay rfl _⟩
  · intro e he signer _ order horder
    obtain rfl := List.mem_singleton.mp he
    obtain rfl : order = transfer.argument := horder
    rw [orderMessages_argument getDomainHash_relay (show (submit mainnet agreedMany).env.chainId = 1
      from rfl)]
    exact collisionFree_mono collisionFree_transfer
      (List.append_subset.mpr ⟨List.Subset.refl _, List.Subset.refl _⟩)

end Sample
end BitcoinOracle
