import BitcoinOracle.Indexing
import BitcoinOracle.RelayerRound

/-! # What the relayer builds, and what the contract accepts

The relayer counts the proofs of a hash; the contract counts the principals that
signed it, and no principal twice.  So over honest rows a chunk is accepted unless a
principal would be counted twice for one hash (`chunk_accepted_iff`).
-/
namespace BitcoinOracle
open Clarity KeyedTable Indexer

/-! ## Batches of sound elements -/

namespace Oracle
variable (P : Primitives) (env : Env)

/-- Everything an element is checked for but the bookkeeping of its signers and the
right to write. -/
structure SoundElement (w : World) (e : SignedTx) : Prop where
  threshold : w.oracle.requiredValidators.val ≤ e.signaturePacks.length
  mined : (w.registries.mined e.tx.bitcoinTx).isSome = true ∨
    verifyMined P env w.mockHeaders e.tx.bitcoinTx e.block e.proof = .ok true
  registered : ∀ pack ∈ e.signaturePacks, ∃ pubkey,
    w.oracle.validators pack.signer = some pubkey ∧
      (P.secp256k1Recover (signedMessage P env (hashTx P e.tx)) pack.signature.bytes).toOption =
        some pubkey.bytes
  sameHash : ∀ pack ∈ e.signaturePacks, pack.txHash = hashTx P e.tx

/-- The keys under which the signers of an element are counted. -/
def countedKeys (e : SignedTx) : List ValidatedBy :=
  e.signers.map fun signer => ⟨hashTx P e.tx, signer⟩

/-- The oracle may write to both registries. -/
def Writable (w : World) : Prop :=
  w.registries.MayWrite (.deployed .oracleV106) ∧ w.registries.MayForward

instance (w : World) : Decidable (Writable w) := inferInstanceAs (Decidable (_ ∧ _))

variable {P env} {w : World} {e e' : SignedTx}

theorem SoundElement.index (h : SoundElement P env w e) : SoundElement P env (index P w e') e where
  threshold := h.threshold
  mined := h.mined.imp_left fun hmined => (Registries.isSome_mined_index ..).mpr (Or.inr hmined)
  registered := h.registered
  sameHash := h.sameHash

theorem mem_countedKeys {k : ValidatedBy} :
    k ∈ countedKeys P e ↔ k.txHash = hashTx P e.tx ∧ k.validator ∈ e.signers := by
  rw [countedKeys, List.mem_map]
  constructor
  · intro ⟨signer, hsigner, hk⟩
    rw [← hk]
    exact ⟨rfl, hsigner⟩
  · intro ⟨hhash, hsigner⟩
    refine ⟨k.validator, hsigner, ?_⟩
    rw [← hhash]

theorem nodup_countedKeys : (countedKeys P e).Nodup ↔ e.signers.Nodup :=
  List.nodup_map_iff fun _ _ h => congrArg ValidatedBy.validator h

/-- **A sound element is accepted when none of its signers is counted twice.** -/
theorem SoundElement.accepts_iff (h : SoundElement P env w e) :
    Accepts P env w e ↔ (countedKeys P e).Nodup ∧
      (∀ k ∈ countedKeys P e, w.oracle.txValidatedBy k = none) ∧ Writable w := by
  rw [nodup_countedKeys]
  constructor
  · intro ⟨_, _, hvalid, hdistinct, hmay, hforward⟩
    refine ⟨hdistinct, fun k hk => ?_, hmay, hforward⟩
    obtain ⟨hhash, hsigner⟩ := mem_countedKeys.mp hk
    obtain ⟨pack, hpack, hsame⟩ := List.mem_map.mp hsigner
    have hfresh := (hvalid pack hpack).fresh
    rwa [hsame, ← hhash] at hfresh
  · intro ⟨hdistinct, hfresh, hmay, hforward⟩
    refine ⟨h.threshold, h.mined, fun pack hpack => ⟨h.registered pack hpack, ?_,
      h.sameHash pack hpack⟩, hdistinct, hmay, hforward⟩
    exact hfresh _ (mem_countedKeys.mpr ⟨rfl, List.mem_map_of_mem hpack⟩)

/-- The keys of an accepted element are counted, and no others. -/
theorem index_txValidatedBy_eq_none {k : ValidatedBy} :
    (index P w e).oracle.txValidatedBy k = none ↔
      k ∉ countedKeys P e ∧ w.oracle.txValidatedBy k = none := by
  show countSigners w.oracle.txValidatedBy (hashTx P e.tx) e.signaturePacks k = none ↔ _
  rw [countSigners_apply, mem_countedKeys]
  split
  · next hk => exact iff_of_false nofun fun h => h.1 hk
  · next hk => exact (and_iff_right hk).symm

theorem mayWrite_index {r : Registries} {sender : Principal} :
    (r.index e).MayWrite sender ↔ r.MayWrite sender := by
  have hdecimals : ∀ (r : Registries) tick decimals,
      (r.setDecimals tick decimals).MayWrite sender ↔ r.MayWrite sender := fun _ _ _ => Iff.rfl
  rw [Registries.index, hdecimals]
  simp

theorem mayForward_index {r : Registries} : (r.index e).MayForward ↔ r.MayForward := by
  have hdecimals : ∀ (r : Registries) tick decimals,
      (r.setDecimals tick decimals).MayForward ↔ r.MayForward := fun _ _ _ => Iff.rfl
  rw [Registries.index, hdecimals]
  simp

theorem writable_index : Writable (index P w e) ↔ Writable w :=
  and_congr mayWrite_index mayForward_index

/-- **A batch of sound elements is accepted when no signer is counted twice for one
hash, in the batch or before it.**  Induction on the batch, over the storage: the
keys of the first element are what the rest must not repeat. -/
theorem acceptsAll_iff {es : List SignedTx} (h : ∀ e ∈ es, SoundElement P env w e) :
    AcceptsAll P env w es ↔ (es.flatMap (countedKeys P)).Nodup ∧
      (∀ k ∈ es.flatMap (countedKeys P), w.oracle.txValidatedBy k = none) ∧
      (es ≠ [] → Writable w) := by
  induction es generalizing w with
  | nil => simp [AcceptsAll]
  | cons e es ih =>
      obtain ⟨he, hes⟩ := List.forall_mem_cons.mp h
      rw [AcceptsAll, he.accepts_iff, ih fun e' he' => (hes e' he').index, List.flatMap_cons,
        List.nodup_append, writable_index]
      simp only [index_txValidatedBy_eq_none, List.mem_append, or_imp, forall_and]
      constructor
      · rintro ⟨⟨hfirst, hfresh, hwritable⟩, hrest, ⟨hnew, hfresh'⟩, -⟩
        refine ⟨⟨hfirst, hrest, fun k hk k' hk' heq => ?_⟩, ⟨hfresh, hfresh'⟩, fun _ => hwritable⟩
        exact hnew k' hk' (heq ▸ hk)
      · rintro ⟨⟨hfirst, hrest, hapart⟩, ⟨hfresh, hfresh'⟩, hwritable⟩
        have hw := hwritable (List.cons_ne_nil e es)
        refine ⟨⟨hfirst, hfresh, hw⟩, hrest, ⟨fun k hk hk' => ?_, hfresh'⟩, fun _ => hw⟩
        exact hapart k hk' k hk rfl

end Oracle

/-! ## Honest tables -/

namespace Relayer
open Oracle
variable (P : Primitives) (env : Env) (principal : Text → Option Principal) (c : Config)

def TxRow.block (row : TxRow) : BlockArgument := ⟨row.header, row.height⟩

def TxRow.proof (row : TxRow) : ProofArgument := ⟨row.txIndex, row.proofHashes, row.treeDepth⟩

/-- The event of a proof, as the argument of `hash-tx`. -/
def ProofRow.txArgument (proof : ProofRow) : TxArgument where
  bitcoinTx := proof.event.txHash
  output := proof.event.output
  offset := proof.event.satpoint
  tick := proof.tick
  amt := proof.amt
  fromUser := proof.fromUser
  toUser := proof.toUser
  fromBal := proof.fromBal
  toBal := proof.toBal
  decimals := proof.decimals

/-- Each proof's hash is the one of its event and each signature recovers to the
registered key of its signer; each row of `txs` has a valid proof. -/
structure HonestTables (db : Database) (w : World) : Prop where
  orderHash : ∀ p ∈ db.proofs, ∃ tx, (ProofRow.txArgument p).encode = some tx ∧
    (hashTx P tx).bytes = p.orderHash
  signature : ∀ p ∈ db.proofs, ∃ validator pubkey signature,
    principal p.signer = some validator ∧ w.oracle.validators validator = some pubkey ∧
      Buff.ofBytes 65 p.signature = some signature ∧
      ∀ txHash : Buff 32, txHash.bytes = p.orderHash →
        P.secp256k1Recover (signedMessage P env txHash) signature.bytes = .ok pubkey.bytes
  mined : ∀ row ∈ db.txs, ∃ tx block proof, Buff.ofBytes 8192 row.event.txHash = some tx ∧
    (TxRow.block row).encode = some block ∧ (TxRow.proof row).encode = some proof ∧
      verifyMined P env w.mockHeaders tx block proof = .ok true

/-- There are at most ten registered validators. -/
def AtMostTen (w : World) : Prop :=
  ∃ validators : List Principal, validators.length ≤ 10 ∧
    ∀ v, (w.oracle.validators v).isSome = true → v ∈ validators

/-- The inputs of a round: of some of the pending events, in any order, each assessed on
the chain of its moment. -/
def Assembled (db : Database) (inputs : List TxManyInput) : Prop :=
  ∃ order : List PendingTx, order.Subperm (getPendingSubmitTx P c db) ∧
    List.Forall₂ (fun tx i => ∃ w, assess P c w tx = .input i) order inputs

theorem Outcome.eq_input {o : Outcome} {i : TxManyInput} (h : o.input? = some i) : o = .input i := by
  cases o with
  | input i' => exact congrArg Outcome.input (Option.some.inj h)
  | alreadyIndexed => cases h
  | waits => cases h
  | error text => cases h
  | throws => cases h

/-- A round in which nothing happens meanwhile. -/
theorem assembled_filterMap (db : Database) (w : World) : Assembled P c db
    ((getPendingSubmitTx P c db).filterMap fun tx => (assess P c w tx).input?) := by
  have hsublist : ∀ txs : List PendingTx, ∃ order : List PendingTx, order.Sublist txs ∧
      List.Forall₂ (fun tx i => ∃ w, assess P c w tx = .input i) order
        (txs.filterMap fun tx => (assess P c w tx).input?) := by
    intro txs
    induction txs with
    | nil => exact ⟨[], .slnil, .nil⟩
    | cons tx txs ih =>
        obtain ⟨order, hsub, hall⟩ := ih
        cases h : (assess P c w tx).input? with
        | none =>
            simp only [List.filterMap_cons, h]
            exact ⟨order, hsub.cons tx, hall⟩
        | some i =>
            simp only [List.filterMap_cons, h]
            exact ⟨tx :: order, hsub.cons_cons tx, .cons ⟨w, Outcome.eq_input h⟩ hall⟩
  obtain ⟨order, hsub, hall⟩ := hsublist (getPendingSubmitTx P c db)
  exact ⟨order, hsub.subperm, hall⟩

/-- What the contract can be told of an input from honest tables. -/
structure HonestInput (w : World) (i : TxManyInput) : Prop where
  threshold : c.minimalAgreementCount ≤ i.signaturePacks.length
  encodes : ∃ tx block proof, i.tx.encode = some tx ∧ i.block.encode = some block ∧
    i.proof.encode = some proof ∧
    verifyMined P env w.mockHeaders tx.bitcoinTx block proof = .ok true ∧
    ∀ p ∈ i.signaturePacks, ∃ pack pubkey, p.encode principal = some pack ∧
      pack.txHash = hashTx P tx ∧ w.oracle.validators pack.signer = some pubkey ∧
      P.secp256k1Recover (signedMessage P env (hashTx P tx)) pack.signature.bytes =
        .ok pubkey.bytes

/-- Who is to be counted for which hash. -/
def signedBy (i : TxManyInput) : List (Bytes × Option Principal) :=
  i.signaturePacks.map fun p => (p.txHash, principal p.signer)

/-- No principal is counted twice for one hash: neither in the chunk nor before it. -/
def CountedOnce (w : World) (inputs : List TxManyInput) : Prop :=
  (inputs.flatMap (signedBy principal)).Nodup ∧
    ∀ (txHash : Buff 32) (v : Principal),
      (txHash.bytes, some v) ∈ inputs.flatMap (signedBy principal) →
        w.oracle.txValidatedBy ⟨txHash, v⟩ = none

variable {P env principal c} {db : Database} {w : World} {i : TxManyInput}

/-- **An input from honest tables is honest.**  The hash the contract computes is the
one of the majority, since the relayer has asked for it. -/
theorem HonestTables.input (h : HonestTables P env principal db w) {tx : PendingTx} {w' : World}
    (htx : tx ∈ getPendingSubmitTx P c db) (hi : assess P c w' tx = .input i) :
    HonestInput P env principal c w i := by
  obtain ⟨hrow, -, -, -, -, hproofs⟩ := mem_getPendingSubmitTx.mp htx
  obtain ⟨firstProof, hash, rfl, -, -, henough, -, arg, harg, hhash⟩ := assess_eq_input hi
  obtain ⟨bitcoinTx, block, proof, hbitcoinTx, hblock, hproof, hmined⟩ := h.mined _ hrow
  have hsame : arg.bitcoinTx = bitcoinTx := by
    rw [TxArgument.encode_eq_some] at harg
    rw [Buff.ofBytes_eq_some] at hbitcoinTx
    exact Buff.ext ((congrArg TxArgument.bitcoinTx harg).trans hbitcoinTx.symm)
  refine ⟨?_, arg, block, proof, harg, hblock, hproof, hsame ▸ hmined, fun p hp => ?_⟩
  · show c.minimalAgreementCount ≤ (List.map signaturePack _).length
    rwa [List.length_map]
  · obtain ⟨row, hmem, rfl⟩ := List.mem_map.mp hp
    obtain ⟨hmem, hrowHash⟩ := List.mem_filter.mp hmem
    have hrowHash := of_decide_eq_true hrowHash
    rw [hproofs] at hmem
    obtain ⟨validator, pubkey, signature, hsigner, hkey, hsignature, hrecover⟩ :=
      h.signature row (List.mem_filter.mp hmem).1
    refine ⟨⟨validator, hashTx P arg, signature⟩, pubkey, ?_, rfl, hkey, ?_⟩
    · exact SignaturePackArgument.encode_eq_some.mpr
        ⟨hsigner, hhash.trans hrowHash.symm, Buff.ofBytes_eq_some.mp hsignature⟩
    · exact hrecover _ (hhash.trans hrowHash.symm)

theorem HonestTables.inputs (h : HonestTables P env principal db w) {inputs : List TxManyInput}
    (hinputs : Assembled P c db inputs) : ∀ i ∈ inputs, HonestInput P env principal c w i := by
  obtain ⟨order, hpending, hassess⟩ := hinputs
  intro i hi
  obtain ⟨tx, htx, w', hinput⟩ := exists_of_forall₂ hassess hi
  exact h.input (hpending.subset htx) hinput

/-! ## What the contract makes of an input -/

/-- A signer, as the relayer sees it counted. -/
def keyOf (k : ValidatedBy) : Bytes × Option Principal := (k.txHash.bytes, some k.validator)

theorem keyOf_injective : Function.Injective keyOf := by
  intro k k' h
  obtain ⟨hhash, hvalidator⟩ := Prod.ext_iff.mp h
  cases k
  cases k'
  rw [ValidatedBy.mk.injEq]
  exact ⟨Buff.ext hhash, Option.some.inj hvalidator⟩

/-- What an honest input says of its signatures, once it is encoded. -/
theorem HonestInput.packs (h : HonestInput P env principal c w i) {e : SignedTx}
    (he : i.encode principal = some e) : ∀ pack ∈ e.signaturePacks,
      pack.txHash = hashTx P e.tx ∧ ∃ pubkey, w.oracle.validators pack.signer = some pubkey ∧
        P.secp256k1Recover (signedMessage P env (hashTx P e.tx)) pack.signature.bytes =
          .ok pubkey.bytes := by
  obtain ⟨tx, -, -, htx, -, -, -, hpacks⟩ := h.encodes
  obtain ⟨htx', -, -, hencode⟩ := TxManyInput.encode_eq_some.mp he
  obtain rfl := Option.some.inj (htx'.symm.trans htx)
  intro pack hpack
  obtain ⟨p, hp, hpack'⟩ := exists_of_forall₂ hencode hpack
  obtain ⟨pack', pubkey, hpack'', hhash, hkey, hrecover⟩ := hpacks p hp
  obtain rfl := Option.some.inj (hpack'.symm.trans hpack'')
  exact ⟨hhash, pubkey, hkey, hrecover⟩

theorem HonestInput.sound (h : HonestInput P env principal c w i)
    (hrequired : w.oracle.requiredValidators.val ≤ c.minimalAgreementCount) {e : SignedTx}
    (he : i.encode principal = some e) : SoundElement P env w e := by
  obtain ⟨tx, block, proof, htx, hblock, hproof, hmined, -⟩ := h.encodes
  obtain ⟨htx', hblock', hproof', hencode⟩ := TxManyInput.encode_eq_some.mp he
  obtain rfl := Option.some.inj (htx'.symm.trans htx)
  obtain rfl := Option.some.inj (hblock'.symm.trans hblock)
  obtain rfl := Option.some.inj (hproof'.symm.trans hproof)
  refine ⟨?_, Or.inr hmined, fun pack hpack => ?_, fun pack hpack => (h.packs he pack hpack).1⟩
  · rw [← hencode.length_eq]
    exact Nat.le_trans hrequired h.threshold
  · obtain ⟨-, pubkey, hkey, hrecover⟩ := h.packs he pack hpack
    exact ⟨pubkey, hkey, toOption_eq_some.mpr hrecover⟩

theorem map_keyOf_signers {txHash : Buff 32} {ps : List SignaturePackArgument}
    {packs : List SignaturePack}
    (h : List.Forall₂ (fun p pack => p.encode principal = some pack) ps packs)
    (hhash : ∀ pack ∈ packs, pack.txHash = txHash) :
    packs.map (fun pack => keyOf ⟨txHash, pack.signer⟩) =
      ps.map fun p => (p.txHash, principal p.signer) := by
  induction h with
  | nil => rfl
  | @cons p pack _ _ hpack _ ih =>
      obtain ⟨hfirst, hrest⟩ := List.forall_mem_cons.mp hhash
      obtain ⟨hsigner, hbytes, -⟩ := SignaturePackArgument.encode_eq_some.mp hpack
      rw [List.map_cons, List.map_cons, ih hrest, ← hbytes, hsigner, hfirst]
      rfl

/-- The contract counts whom the relayer sees counted. -/
theorem HonestInput.countedKeys (h : HonestInput P env principal c w i) {e : SignedTx}
    (he : i.encode principal = some e) :
    (Oracle.countedKeys P e).map keyOf = signedBy principal i := by
  obtain ⟨-, -, -, hencode⟩ := TxManyInput.encode_eq_some.mp he
  unfold Oracle.countedKeys SignedTx.signers signedBy
  rw [List.map_map, List.map_map]
  exact map_keyOf_signers hencode fun pack hpack => (h.packs he pack hpack).1

/-- An input that counts no principal twice has at most ten signatures. -/
theorem HonestInput.encodes_of_nodup (h : HonestInput P env principal c w i) (hten : AtMostTen w)
    (hnodup : (signedBy principal i).Nodup) : ∃ e, i.encode principal = some e := by
  obtain ⟨tx, block, proof, htx, hblock, hproof, -, hpacks⟩ := h.encodes
  obtain ⟨packs, hencode⟩ := exists_encodeList fun p hp =>
    (hpacks p hp).imp fun pack hpack => hpack.choose_spec.1
  have hencode := encodeList_eq_some.mp hencode
  obtain ⟨validators, hlength, hvalidators⟩ := hten
  -- the signers are as many as the signatures, and all of them are registered
  have hsubset : signedBy principal i ⊆
      validators.map fun v => ((hashTx P tx).bytes, some v) := by
    intro k hk
    obtain ⟨p, hp, rfl⟩ := List.mem_map.mp hk
    obtain ⟨pack, pubkey, hpack, hhash, hkey, -⟩ := hpacks p hp
    obtain ⟨hsigner, hbytes, -⟩ := SignaturePackArgument.encode_eq_some.mp hpack
    refine List.mem_map.mpr ⟨pack.signer, hvalidators _ (by rw [hkey]; rfl), ?_⟩
    rw [← hbytes, hhash, hsigner]
  have hle : packs.length ≤ 10 := by
    have hcount := (List.subperm_of_subset hnodup hsubset).length_le
    rw [signedBy, List.length_map, List.length_map, hencode.length_eq] at hcount
    exact Nat.le_trans hcount hlength
  exact ⟨⟨tx, block, proof, packs, hle⟩,
    TxManyInput.encode_eq_some.mpr ⟨htx, hblock, hproof, hencode⟩⟩

theorem flatMap_countedKeys {inputs : List TxManyInput} {elements : List SignedTx}
    (hencode : List.Forall₂ (fun i e => i.encode principal = some e) inputs elements)
    (hhonest : ∀ i ∈ inputs, HonestInput P env principal c w i) :
    (elements.flatMap (Oracle.countedKeys P)).map keyOf = inputs.flatMap (signedBy principal) := by
  induction hencode with
  | nil => rfl
  | @cons i e _ _ hi _ ih =>
      obtain ⟨hfirst, hrest⟩ := List.forall_mem_cons.mp hhonest
      rw [List.flatMap_cons, List.map_append, hfirst.countedKeys hi, ih hrest, List.flatMap_cons]

/-- Counted once off chain is counted once on chain. -/
theorem countedOnce_iff {inputs : List TxManyInput} {elements : List SignedTx}
    (hencode : List.Forall₂ (fun i e => i.encode principal = some e) inputs elements)
    (hhonest : ∀ i ∈ inputs, HonestInput P env principal c w i) :
    CountedOnce principal w inputs ↔ (elements.flatMap (Oracle.countedKeys P)).Nodup ∧
      ∀ k ∈ elements.flatMap (Oracle.countedKeys P), w.oracle.txValidatedBy k = none := by
  unfold CountedOnce
  rw [← flatMap_countedKeys hencode hhonest, List.nodup_map_iff keyOf_injective]
  refine and_congr_right fun _ => ?_
  constructor
  · exact fun h k hk => h k.txHash k.validator (List.mem_map_of_mem hk)
  · intro h txHash v hmem
    obtain ⟨k, hk, hkey⟩ := List.mem_map.mp hmem
    obtain rfl : k = ⟨txHash, v⟩ := keyOf_injective hkey
    exact h _ hk

/-- **What the relayer builds, the contract accepts, unless it would count a principal
twice.**  Over honest tables and a state that lets the relayer in, each chunk of a
round makes `index-tx-many` answer `(ok true)` if and only if no principal is to be
counted twice for one hash, and the registries take the oracle's writes. -/
theorem chunk_accepted_iff (hhonest : HonestTables P env principal db w) (hten : AtMostTen w)
    (hunpaused : w.oracle.isPaused = false) {relayer : Principal}
    (hrelayer : (w.oracle.approvedRelayers relayer).isSome = true)
    (hrequired : w.oracle.requiredValidators.val ≤ c.minimalAgreementCount)
    {inputs ch : List TxManyInput} (hinputs : Assembled P c db inputs)
    (hch : ch ∈ chunk inputs kChunkSize) :
    (∃ txMany, encodeTxMany principal ch = some txMany ∧
        (indexTxMany P env relayer txMany w).1 = .ok true) ↔
      CountedOnce principal w ch ∧ Writable w := by
  have hinput : ∀ i ∈ ch, HonestInput P env principal c w i := fun i hi =>
    hhonest.inputs hinputs i (mem_of_mem_chunk (by decide) hch hi)
  have hnonempty : ch ≠ [] := ne_nil_of_mem_chunk (by decide) hch
  -- over an encoding of the chunk, both sides speak of the same keys
  have hencoded : ∀ txMany : TxMany,
      List.Forall₂ (fun i e => i.encode principal = some e) ch txMany.elements →
        ((indexTxMany P env relayer txMany w).1 = .ok true ↔
          CountedOnce principal w ch ∧ Writable w) := by
    intro txMany hencode
    have hsound : ∀ e ∈ txMany.elements, SoundElement P env w e := by
      intro e he
      obtain ⟨i, hi, hie⟩ := exists_of_forall₂ hencode he
      exact (hinput i hi).sound hrequired hie
    have helements : txMany.elements ≠ [] := by
      intro hnil
      rw [hnil, List.forall₂_nil_right_iff] at hencode
      exact hnonempty hencode
    rw [countedOnce_iff hencode hinput, and_assoc]
    constructor
    · intro hok
      obtain ⟨-, -, haccepts, -, -⟩ := (indexTxMany_eq_ok P env).mp
        (show indexTxMany P env relayer txMany w = (.ok true, _) from Prod.ext hok rfl)
      obtain ⟨hnodup, hfresh, hwritable⟩ := (acceptsAll_iff hsound).mp haccepts
      exact ⟨hnodup, hfresh, hwritable helements⟩
    · intro ⟨hnodup, hfresh, hwritable⟩
      have haccepts := (acceptsAll_iff hsound).mpr ⟨hnodup, hfresh, fun _ => hwritable⟩
      exact congrArg Prod.fst
        ((indexTxMany_eq_ok P env).mpr ⟨hunpaused, hrelayer, haccepts, rfl, rfl⟩)
  constructor
  · intro ⟨txMany, htxMany, hok⟩
    exact (hencoded txMany (encodeTxMany_eq_some.mp htxMany)).mp hok
  · intro h
    obtain ⟨elements, hencode⟩ := exists_encodeList fun i hi =>
      (hinput i hi).encodes_of_nodup hten (List.nodup_flatMap.mp h.1.1 |>.1 i hi)
    have hencode := encodeList_eq_some.mp hencode
    have hlength : elements.length ≤ 25 := by
      rw [← hencode.length_eq]
      exact length_le_of_mem_chunk hch
    exact ⟨⟨elements, hlength⟩, encodeTxMany_eq_some.mpr hencode, (hencoded _ hencode).mpr h⟩

end Relayer

/-! ## A relayed transfer -/

namespace Sample
open Oracle Relayer World

def second : Principal := .standard ⟨bytesBe 21 0x1aa5180cc1ff6050df53f0ab766d76b630e14feb0c, by decide⟩

def principal (address : Text) : Option Principal :=
  if address = guardianAddress then some guardian
  else if address = secondAddress then some second
  else none

/-- Signature recovery for the transfer the two validators post. -/
def recoverPosted (message signature : Bytes) : Except Nat Bytes :=
  if message ≠ bytesBe 32 0x1281c47fbe824dddf06c20543a1ab19112fdccc200a180e274771f6b8881d323 then
    recover message signature
  else if signature = guardianSignature.bytes then .ok guardianKey.bytes
  else if signature = secondSignature.bytes then .ok secondKey.bytes
  else .error 1

def relayPrimitives : Primitives := Sha256.primitives recoverPosted

/-- Relays everything that two validators agree on. -/
def relayerConfig : Config where
  minimalBlockHeight := 1
  minimalAgreementCount := 2
  maximumAgreementCount := 3
  minimalProofCount := 1
  isWhitelistTxsEnabled := false
  isWhitelistEnabled := false
  whitelistToAddress := []
  tokenList := []
  shardRelayerIndex := 0
  shardTotalRelayers := 1
  shardRelayerIndex_lt := Nat.zero_lt_one

/-- The tables after some posts. -/
def posted (posts : List TxRequest) : Database :=
  (upsertAll relayPrimitives bitcoinLib .empty posts).toOption.getD .empty

/-- The deployment on the main chain, with both validators registered. -/
def relayWorld : World := (deployment relayPrimitives).run (deployed deployer)
  (setup mainnet ++ [⟨mainnet, deployer, .oracle (.addValidator secondKey second)⟩])

/-- The inputs of a round on that deployment. -/
def roundInputs (db : Database) : List TxManyInput :=
  (getPendingSubmitTx relayPrimitives relayerConfig db).filterMap fun tx =>
    (assess relayPrimitives relayerConfig relayWorld tx).input?

/-- The transfer, as both validators know it. -/
def transfer : Tx :=
  ⟨witnessedTxA, 0, 0, ⟨['O', 'R', 'D', 'I'], by decide⟩, 5, ⟨aliceScript, by decide⟩,
    ⟨bobScript, by decide⟩, 95, 5, 18⟩

/-- A proof of the transfer by one of the two validators. -/
def IsTransferProof (p : ProofRow) : Prop :=
  ProofRow.txArgument p = transfer.argument ∧ p.orderHash = orderHash ∧
    (p.signer = guardianAddress ∧ p.signature = guardianSignature.bytes ∨
      p.signer = secondAddress ∧ p.signature = secondSignature.bytes)

/-- A row of the transfer in the block that has it. -/
def IsTransferRow (row : TxRow) : Prop :=
  row.event.txHash = witnessedTxA.bytes ∧ TxRow.block row = ⟨header.bytes, 800000⟩ ∧
    TxRow.proof row = ⟨0, proofA.hashes.map Buff.bytes, 1⟩

instance : DecidablePred IsTransferProof := fun _ => inferInstanceAs (Decidable (_ ∧ _))

instance : DecidablePred IsTransferRow := fun _ => inferInstanceAs (Decidable (_ ∧ _))

theorem validators_relayWorld : relayWorld.oracle.validators =
    ((DataMap.empty.set guardian guardianKey).set second secondKey) := rfl

theorem atMostTen_relayWorld : AtMostTen relayWorld := by
  refine ⟨[guardian, second], by decide, fun v hv => ?_⟩
  rw [validators_relayWorld, DataMap.set_apply, DataMap.set_apply] at hv
  by_cases hsecond : v = second
  · rw [hsecond]
    exact List.mem_cons_of_mem guardian (List.mem_singleton_self second)
  · by_cases hguardian : v = guardian
    · rw [hguardian]
      exact List.mem_cons_self
    · rw [if_neg hsecond, if_neg hguardian] at hv
      cases hv

theorem hashTx_transfer : (hashTx relayPrimitives transfer).bytes = orderHash := by
  decide +kernel

theorem recover_guardian : relayPrimitives.secp256k1Recover
    (signedMessage relayPrimitives mainnet ⟨orderHash, by decide⟩) guardianSignature.bytes =
      .ok guardianKey.bytes := by
  decide +kernel

theorem recover_second : relayPrimitives.secp256k1Recover
    (signedMessage relayPrimitives mainnet ⟨orderHash, by decide⟩) secondSignature.bytes =
      .ok secondKey.bytes := by
  decide +kernel

/-- Tables with nothing but the transfer are honest. -/
theorem honest_transfer {db : Database} (hproofs : ∀ p ∈ db.proofs, IsTransferProof p)
    (htxs : ∀ row ∈ db.txs, IsTransferRow row) :
    HonestTables relayPrimitives mainnet principal db relayWorld := by
  refine ⟨fun p hp => ?_, fun p hp => ?_, fun row hrow => ?_⟩
  · obtain ⟨hargument, hhash, -⟩ := hproofs p hp
    rw [hargument, hhash]
    exact ⟨transfer, TxArgument.encode_eq_some.mpr rfl, hashTx_transfer⟩
  · obtain ⟨-, hhash, hsigned⟩ := hproofs p hp
    have hsame : ∀ txHash : Buff 32, txHash.bytes = p.orderHash →
        txHash = ⟨orderHash, by decide⟩ := fun txHash h => Buff.ext (h.trans hhash)
    rcases hsigned with ⟨hsigner, hsignature⟩ | ⟨hsigner, hsignature⟩
    · refine ⟨guardian, guardianKey, guardianSignature, ?_, ?_, ?_, fun txHash h => ?_⟩
      · rw [hsigner]
        rfl
      · rw [validators_relayWorld]
        decide
      · rw [hsignature]
        exact Buff.ofBytes_eq_some.mpr rfl
      · rw [hsame txHash h]
        exact recover_guardian
    · refine ⟨second, secondKey, secondSignature, ?_, ?_, ?_, fun txHash h => ?_⟩
      · rw [hsigner]
        rfl
      · rw [validators_relayWorld]
        exact DataMap.set_self ..
      · rw [hsignature]
        exact Buff.ofBytes_eq_some.mpr rfl
      · rw [hsame txHash h]
        exact recover_second
  · obtain ⟨hbitcoinTx, hblock, hproof⟩ := htxs row hrow
    rw [hbitcoinTx, hblock, hproof]
    refine ⟨witnessedTxA, ⟨header, 800000⟩, proofA, Buff.ofBytes_eq_some.mpr rfl, ?_, ?_, ?_⟩
    · decide +kernel
    · decide +kernel
    · decide +kernel

theorem assembled_roundInputs (db : Database) :
    Assembled relayPrimitives relayerConfig db (roundInputs db) :=
  assembled_filterMap relayPrimitives relayerConfig db relayWorld

theorem honest_agreed : HonestTables relayPrimitives mainnet principal
    (posted [bisPost, unisatPost]) relayWorld :=
  honest_transfer (by decide +kernel) (by decide +kernel)

/-- Two validators agree, and their chunk is accepted. -/
theorem chunk_accepted_transfer : ∃ txMany,
    encodeTxMany principal (roundInputs (posted [bisPost, unisatPost])) = some txMany ∧
      (indexTxMany relayPrimitives mainnet relayer txMany relayWorld).1 = .ok true :=
  (chunk_accepted_iff honest_agreed atMostTen_relayWorld rfl rfl (by decide +kernel)
    (assembled_roundInputs (posted [bisPost, unisatPost])) (by decide +kernel)).mpr
    ⟨⟨by decide +kernel, fun _ _ _ => rfl⟩, by decide +kernel⟩

/-- The guardian runs another validator, on other data but with the same key. -/
def okxPost : TxRequest := { bisPost with type := .okx }

/-- **Two proofs of one signer are a majority for the relayer, and an error for the
contract.** -/
theorem chunk_rejected_sameSigner :
    (posted [bisPost, okxPost]).Constrained relayPrimitives ∧
      HonestTables relayPrimitives mainnet principal (posted [bisPost, okxPost]) relayWorld ∧
      AtMostTen relayWorld ∧ relayWorld.oracle.isPaused = false ∧ Writable relayWorld ∧
      (relayWorld.oracle.approvedRelayers relayer).isSome = true ∧
      relayWorld.oracle.requiredValidators.val ≤ relayerConfig.minimalAgreementCount ∧
      (∀ row ∈ (posted [bisPost, okxPost]).txs, isIndexedTx relayWorld row.event = some false) ∧
      Assembled relayPrimitives relayerConfig (posted [bisPost, okxPost])
        (roundInputs (posted [bisPost, okxPost])) ∧
      roundInputs (posted [bisPost, okxPost]) ∈
        chunk (roundInputs (posted [bisPost, okxPost])) kChunkSize ∧
      (encodeTxMany principal (roundInputs (posted [bisPost, okxPost]))).map
          (fun txMany => (indexTxMany relayPrimitives mainnet relayer txMany relayWorld).1) =
        some (.err errDuplicateSignature) := by
  refine ⟨⟨?_, ?_⟩, honest_transfer ?_ ?_, atMostTen_relayWorld, rfl, ?_, rfl, ?_, ?_,
    assembled_roundInputs _, ?_, ?_⟩
  all_goals decide +kernel

end Sample
end BitcoinOracle
