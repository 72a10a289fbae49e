import BitcoinOracle.Oracle

/-! # What it takes to index an event, and what it does

`indexTxIter` interleaves its checks with its writes, and reads the balances
before the first write.  Here it is taken apart once: `Accepts` collects everything
an element of a batch is checked for, in the storage it is met with, and
`World.index` is what the element does to that storage.  A batch is accepted when
every element is, each in the storage its predecessors left (`AcceptsAll`).

Distinctness of the signers is not among the checks of the source: it comes out of
`tx-validated-by` being written between one signature and the next
(`validateSignatures_eq_ok`).
-/
namespace BitcoinOracle
open Clarity

/-- The key an event is indexed under. -/
def Tx.key (tx : Tx) : IndexedKey 8192 := ⟨tx.bitcoinTx, tx.output, tx.offset⟩

/-- What an event is indexed as. -/
def Tx.indexed (tx : Tx) : IndexedTx := ⟨tx.tick, tx.amt, tx.fromUser, tx.toUser⟩

def Tx.fromKey (tx : Tx) : UserTick := ⟨tx.fromUser, tx.tick⟩

def Tx.toKey (tx : Tx) : UserTick := ⟨tx.toUser, tx.tick⟩

namespace SignedTx

/-- The sender's balance as the element carries it, at the height it carries. -/
def fromBalance (e : SignedTx) : UserBalance := ⟨e.tx.fromBal, e.block.height⟩

/-- The receiver's balance as the element carries it, at the height it carries. -/
def toBalance (e : SignedTx) : UserBalance := ⟨e.tx.toBal, e.block.height⟩

/-- The principals an element claims the signatures of. -/
def signers (e : SignedTx) : List Principal := e.signaturePacks.map SignaturePack.signer

end SignedTx

/-! ## The registry -/

namespace Registries

/-- The balance the registry serves, with its default. -/
def balance (r : Registries) (key : UserTick) : UserBalance :=
  RegistryV102.getUserBalanceOrDefault r key.user key.tick

/-- The mined height of a Bitcoin transaction is recorded once. -/
def recordMined (r : Registries) (e : SignedTx) : Registries :=
  if (r.mined e.tx.bitcoinTx).isSome then r else r.setMined e.tx.bitcoinTx e.block.height

/-- A balance gives way to one of a greater height than `old`. -/
def raiseBalance (r : Registries) (key : UserTick) (old new : UserBalance) : Registries :=
  if old.upToBlock.val < new.upToBlock.val then r.setBalance key new else r

/-- The registry after an accepted element.  Both old balances are the ones before
the element. -/
def index (r : Registries) (e : SignedTx) : Registries :=
  ((((r.recordMined e).setIndexed e.tx.key e.tx.indexed).raiseBalance
    e.tx.fromKey (r.balance e.tx.fromKey) e.fromBalance).raiseBalance
    e.tx.toKey (r.balance e.tx.toKey) e.toBalance).setDecimals e.tx.tick e.tx.decimals

/-! No write of an element touches the right to write. -/

variable {r : Registries} {e : SignedTx} {sender : Principal}

@[simp] theorem mayWrite_setMined {key : Buff 8192} {value : Uint} :
    (r.setMined key value).MayWrite sender ↔ r.MayWrite sender := Iff.rfl

@[simp] theorem mayWrite_setIndexed {key : IndexedKey 8192} {value : IndexedTx} :
    (r.setIndexed key value).MayWrite sender ↔ r.MayWrite sender := Iff.rfl

@[simp] theorem mayWrite_setBalance {key : UserTick} {value : UserBalance} :
    (r.setBalance key value).MayWrite sender ↔ r.MayWrite sender := Iff.rfl

@[simp] theorem mayForward_setMined {key : Buff 8192} {value : Uint} :
    (r.setMined key value).MayForward ↔ r.MayForward := Iff.rfl

@[simp] theorem mayForward_setIndexed {key : IndexedKey 8192} {value : IndexedTx} :
    (r.setIndexed key value).MayForward ↔ r.MayForward := Iff.rfl

@[simp] theorem mayForward_setBalance {key : UserTick} {value : UserBalance} :
    (r.setBalance key value).MayForward ↔ r.MayForward := Iff.rfl

@[simp] theorem mayWrite_recordMined : (r.recordMined e).MayWrite sender ↔ r.MayWrite sender := by
  unfold recordMined
  split
  · rfl
  · exact mayWrite_setMined

@[simp] theorem mayForward_recordMined : (r.recordMined e).MayForward ↔ r.MayForward := by
  unfold recordMined
  split
  · rfl
  · exact mayForward_setMined

@[simp] theorem mayWrite_raiseBalance {key : UserTick} {old new : UserBalance} :
    (r.raiseBalance key old new).MayWrite sender ↔ r.MayWrite sender := by
  unfold raiseBalance
  split
  · exact mayWrite_setBalance
  · rfl

@[simp] theorem mayForward_raiseBalance {key : UserTick} {old new : UserBalance} :
    (r.raiseBalance key old new).MayForward ↔ r.MayForward := by
  unfold raiseBalance
  split
  · exact mayForward_setBalance
  · rfl

/-! What the writes of an element leave of each map. -/

section Maps
variable (r : Registries) (e : SignedTx)

@[simp] theorem recordMined_v101 : (r.recordMined e).v101 = r.v101 := by
  unfold recordMined
  split
  · rfl
  · rfl

@[simp] theorem recordMined_indexedV102 :
    (r.recordMined e).v102.bitcoinTxIndexed = r.v102.bitcoinTxIndexed := by
  unfold recordMined
  split
  · rfl
  · rfl

variable (key : UserTick) (old new : UserBalance)

@[simp] theorem raiseBalance_v102 : (r.raiseBalance key old new).v102 = r.v102 := by
  unfold raiseBalance
  split
  · rfl
  · rfl

@[simp] theorem raiseBalance_minedV101 :
    (r.raiseBalance key old new).v101.bitcoinTxMined = r.v101.bitcoinTxMined := by
  unfold raiseBalance
  split
  · rfl
  · rfl

@[simp] theorem raiseBalance_indexedV101 :
    (r.raiseBalance key old new).v101.bitcoinTxIndexed = r.v101.bitcoinTxIndexed := by
  unfold raiseBalance
  split
  · rfl
  · rfl

theorem raiseBalance_userBalance :
    (r.raiseBalance key old new).v101.userBalance =
      if old.upToBlock.val < new.upToBlock.val then r.v101.userBalance.set key new
      else r.v101.userBalance := by
  unfold raiseBalance
  split
  · rfl
  · rfl

@[simp] theorem index_minedV101 : (r.index e).v101.bitcoinTxMined = r.v101.bitcoinTxMined := by
  simp [index, setDecimals, setIndexed]

@[simp] theorem index_indexedV101 :
    (r.index e).v101.bitcoinTxIndexed = r.v101.bitcoinTxIndexed := by
  simp [index, setDecimals, setIndexed]

theorem index_minedV102 :
    (r.index e).v102.bitcoinTxMined =
      if (r.mined e.tx.bitcoinTx).isSome then r.v102.bitcoinTxMined
      else r.v102.bitcoinTxMined.set e.tx.bitcoinTx e.block.height := by
  simp only [index, setDecimals, raiseBalance_v102, setIndexed, recordMined]
  split
  · rfl
  · rfl

theorem index_indexedV102 :
    (r.index e).v102.bitcoinTxIndexed =
      r.v102.bitcoinTxIndexed.set e.tx.key e.tx.indexed := by
  simp [index, setDecimals, setIndexed]

/-- A recorded height stays; a new one is the height of the element. -/
theorem mined_index (tx : Buff 8192) :
    (r.index e).mined tx =
      if tx = e.tx.bitcoinTx then some ((r.mined tx).getD e.block.height) else r.mined tx := by
  have hlegacy : (r.index e).legacyMined tx = r.legacyMined tx := by
    unfold legacyMined
    rw [index_minedV101]
  unfold mined
  rw [hlegacy, index_minedV102]
  by_cases htx : tx = e.tx.bitcoinTx
  · subst htx
    rw [if_pos rfl]
    cases hmined : r.mined e.tx.bitcoinTx with
    | some height =>
        have hsame := hmined
        unfold mined at hsame
        rw [Option.isSome_some, if_pos rfl, hsame]
        rfl
    | none =>
        have hnone := hmined
        unfold mined at hnone
        rw [Option.or_eq_none_iff] at hnone
        rw [Option.isSome_none, if_neg Bool.false_ne_true, hnone.1, hnone.2, DataMap.set_self]
        rfl
  · rw [if_neg htx]
    split
    · rfl
    · rw [DataMap.set_of_ne htx]

theorem mined_index_of_some {tx : Buff 8192} {height : Uint} (h : r.mined tx = some height) :
    (r.index e).mined tx = some height := by
  rw [mined_index, h]
  split
  · rfl
  · rfl

theorem isSome_mined_index {tx : Buff 8192} :
    ((r.index e).mined tx).isSome = true ↔
      tx = e.tx.bitcoinTx ∨ (r.mined tx).isSome = true := by
  rw [mined_index]
  by_cases htx : tx = e.tx.bitcoinTx
  · rw [if_pos htx]
    exact iff_of_true rfl (Or.inl htx)
  · rw [if_neg htx, or_iff_right htx]

/-- A record is never lost, and an accepted element has one. -/
theorem isSome_indexed_index {key : IndexedKey 8192} :
    ((r.index e).indexed key).isSome = true ↔
      key = e.tx.key ∨ (r.indexed key).isSome = true := by
  have hlegacy : (r.index e).legacyIndexed key = r.legacyIndexed key := by
    unfold legacyIndexed
    rw [index_indexedV101]
  unfold indexed
  rw [hlegacy, index_indexedV102, Option.isSome_or, Bool.or_eq_true, DataMap.set_apply]
  by_cases hkey : key = e.tx.key
  · rw [if_pos hkey]
    exact iff_of_true (Or.inr rfl) (Or.inl hkey)
  · rw [if_neg hkey, or_iff_right hkey, Option.isSome_or, Bool.or_eq_true]

end Maps

end Registries

namespace Oracle
variable (P : Primitives) (env : Env)

/-! ## Signatures -/

/-- What `validate-tx` checks of one signature. -/
structure ValidPack (s : State) (txHash : Buff 32) (pack : SignaturePack) : Prop where
  registered : ∃ pubkey, s.validators pack.signer = some pubkey ∧
    (P.secp256k1Recover (signedMessage P env txHash) pack.signature.bytes).toOption =
      some pubkey.bytes
  fresh : s.txValidatedBy ⟨txHash, pack.signer⟩ = none
  sameHash : pack.txHash = txHash

/-- `tx-validated-by` once the signers of `packs` are counted for an event. -/
def countSigners (validatedBy : DataMap ValidatedBy Bool) (txHash : Buff 32)
    (packs : List SignaturePack) : DataMap ValidatedBy Bool :=
  packs.foldl (fun m pack => m.set ⟨txHash, pack.signer⟩ true) validatedBy

/-- The oracle's storage once the signers of an event are counted. -/
def State.count (s : State) (txHash : Buff 32) (packs : List SignaturePack) : State :=
  { s with
    txValidatedBy := countSigners s.txValidatedBy txHash packs
    txHashToIter := txHash }

theorem countSigners_apply (m : DataMap ValidatedBy Bool) (txHash : Buff 32)
    (packs : List SignaturePack) (k : ValidatedBy) :
    countSigners m txHash packs k =
      if k.txHash = txHash ∧ k.validator ∈ packs.map SignaturePack.signer then some true
      else m k := by
  unfold countSigners
  induction packs generalizing m with
  | nil => simp
  | cons pack packs ih =>
      rw [List.foldl_cons, ih, DataMap.set_apply]
      obtain ⟨txHash', validator⟩ := k
      simp only [ValidatedBy.mk.injEq, List.map_cons, List.mem_cons]
      by_cases hh : txHash' = txHash
      · by_cases hv : validator = pack.signer
        · simp [hh, hv]
        · simp [hh, hv]
      · simp [hh]

theorem validateTx_eq_ok {s : State} {txHash : Buff 32} {pack : SignaturePack} {b : Bool} :
    validateTx P env s txHash pack = .ok b ↔ ValidPack P env s txHash pack ∧ b = true := by
  simp only [validateTx, getValidatorOrFail, Result.bind_eq_ok, Result.unwrap_eq_ok,
    Result.asserts_eq_ok, Result.pure_def, Result.ok.injEq, exists_const]
  constructor
  · rintro ⟨pubkey, hkey, hfresh, hsame, hrec, rfl⟩
    exact ⟨⟨⟨pubkey, hkey, hrec⟩, hfresh, hsame.symm⟩, rfl⟩
  · rintro ⟨⟨⟨pubkey, hkey, hrec⟩, hfresh, hsame⟩, rfl⟩
    exact ⟨pubkey, hkey, hfresh, hsame.symm, hrec, rfl⟩

theorem validateSignatureIter_eq_ok {pack : SignaturePack} {a b : Bool} {s s' : State} :
    validateSignatureIter P env pack (.ok a) s = (.ok b, s') ↔
      ValidPack P env s s.txHashToIter pack ∧ b = true ∧
        s' = { s with txValidatedBy := s.txValidatedBy.set ⟨s.txHashToIter, pack.signer⟩ true } := by
  simp only [validateSignatureIter, Call.bind_eq_ok, Call.view_eq_ok, Call.lift_eq_ok,
    Call.modify_eq_ok, Call.pure_eq_ok, validateTx_eq_ok, id_eq]
  constructor
  · rintro ⟨_, _, ⟨rfl, rfl⟩, _, _, ⟨⟨hvalid, -⟩, rfl⟩, _, _, rfl, rfl, rfl⟩
    exact ⟨hvalid, rfl, rfl⟩
  · rintro ⟨hvalid, rfl, rfl⟩
    exact ⟨s, s, ⟨rfl, rfl⟩, true, s, ⟨⟨hvalid, rfl⟩, rfl⟩, (), _, rfl, rfl, rfl⟩

/-- A signature stays valid when another signer is counted. -/
theorem validPack_set_iff {s : State} {txHash : Buff 32} {pack : SignaturePack}
    {signer : Principal} :
    ValidPack P env { s with txValidatedBy := s.txValidatedBy.set ⟨txHash, signer⟩ true }
      txHash pack ↔ ValidPack P env s txHash pack ∧ pack.signer ≠ signer := by
  have hset : pack.signer ≠ signer →
      s.txValidatedBy.set ⟨txHash, signer⟩ true ⟨txHash, pack.signer⟩ =
        s.txValidatedBy ⟨txHash, pack.signer⟩ :=
    fun hne => DataMap.set_of_ne (by simpa using hne)
  constructor
  · intro h
    have hfresh : s.txValidatedBy.set ⟨txHash, signer⟩ true ⟨txHash, pack.signer⟩ = none := h.fresh
    have hne : pack.signer ≠ signer := by
      rintro rfl
      rw [DataMap.set_self] at hfresh
      cases hfresh
    exact ⟨⟨h.registered, (hset hne).symm.trans hfresh, h.sameHash⟩, hne⟩
  · rintro ⟨h, hne⟩
    exact ⟨h.registered, (hset hne).trans h.fresh, h.sameHash⟩

/-- **The signatures of an element pass when each is valid in the storage before
all of them, and no two are of one signer.**  Induction on the list, over the
storage: what has been counted so far is what makes a second signature of the same
principal fail. -/
theorem validateSignatures_eq_ok {packs : List SignaturePack} {b : Bool} {s s' : State} :
    Call.fold (validateSignatureIter P env) packs (.ok true) s = (.ok b, s') ↔
      (∀ pack ∈ packs, ValidPack P env s s.txHashToIter pack) ∧
        (packs.map SignaturePack.signer).Nodup ∧ b = true ∧ s' = s.count s.txHashToIter packs := by
  induction packs generalizing s with
  | nil =>
      simp only [Call.fold, Result.ofResponse_ok, Call.lift_eq_ok, Result.ok.injEq,
        List.not_mem_nil, false_imp_iff, implies_true, List.map_nil, List.nodup_nil, true_and]
      exact and_congr eq_comm Iff.rfl
  | cons pack packs ih =>
      rw [Call.fold_cons_eq_ok (fun _ _ _ => rfl)]
      simp only [validateSignatureIter_eq_ok, List.forall_mem_cons, List.map_cons,
        List.nodup_cons]
      constructor
      · rintro ⟨_, _, ⟨hvalid, rfl, rfl⟩, hrest⟩
        obtain ⟨hall, hnodup, hb, hs'⟩ := ih.mp hrest
        -- once counted, this signer has no valid signature left
        have hsplit := fun p hp => (validPack_set_iff P env).mp (hall p hp)
        refine ⟨⟨hvalid, fun p hp => (hsplit p hp).1⟩, ⟨?_, hnodup⟩, hb, hs'⟩
        intro hmem
        obtain ⟨p, hp, hsigner⟩ := List.mem_map.mp hmem
        exact (hsplit p hp).2 hsigner
      · rintro ⟨⟨hvalid, hall⟩, ⟨hnew, hnodup⟩, hb, hs'⟩
        refine ⟨true, _, ⟨hvalid, rfl, rfl⟩, ih.mpr ⟨fun p hp => ?_, hnodup, hb, hs'⟩⟩
        refine (validPack_set_iff P env).mpr ⟨hall p hp, ?_⟩
        rintro hsigner
        exact hnew (List.mem_map.mpr ⟨p, hp, hsigner⟩)

/-! ## One element -/

/-- Everything an element is checked for, in the storage it is met with. -/
structure Accepts (w : World) (e : SignedTx) : Prop where
  threshold : w.oracle.requiredValidators.val ≤ e.signaturePacks.length
  mined : (w.registries.mined e.tx.bitcoinTx).isSome = true ∨
    verifyMined P env w.mockHeaders e.tx.bitcoinTx e.block e.proof = .ok true
  valid : ∀ pack ∈ e.signaturePacks, ValidPack P env w.oracle (hashTx P e.tx) pack
  distinct : e.signers.Nodup
  mayWrite : w.registries.MayWrite (.deployed .oracleV106)
  mayForward : w.registries.MayForward

/-- The storage after an accepted element. -/
def index (w : World) (e : SignedTx) : World :=
  { w with
    oracle := w.oracle.count (hashTx P e.tx) e.signaturePacks
    registries := w.registries.index e }

theorem registryCall_eq_ok {c : Principal → Call Registries Bool} {w w' : World} {u : Unit} :
    registryCall c w = (.ok u, w') ↔ ∃ b r, c (.deployed .oracleV106) w.registries = (.ok b, r) ∧
      w' = { w with registries := r } := by
  simp [registryCall]

theorem onOracle_eq_ok {α : Type} {c : Call State α} {w w' : World} {a : α} :
    onOracle c w = (.ok a, w') ↔ ∃ s, c w.oracle = (.ok a, s) ∧ w' = { w with oracle := s } :=
  Call.within_eq_ok

theorem verifyMined_eq_ok {mock : ClarityBitcoin.MockHeaders} {tx : Buff 8192}
    {block : ClarityBitcoin.Block} {proof : ClarityBitcoin.Proof} {b : Bool}
    (h : verifyMined P env mock tx block proof = .ok b) : b = true := by
  unfold verifyMined at h
  split at h
  · obtain ⟨segwit, -, h⟩ := Result.bind_eq_ok.mp h
    obtain ⟨response, -, h⟩ := Result.bind_eq_ok.mp h
    split at h
    · cases h
      rfl
    · cases h
  · cases h
    rfl

/-- The first write of an element: the mined height, unless there is one already. -/
theorem recordMined_eq_ok {w w' : World} {e : SignedTx} {mined : Except Nat Uint} {u : Unit}
    (hrec : mined.isOk = (w.registries.mined e.tx.bitcoinTx).isSome) :
    Call.whenever (mined.isOk = false) (do
        let _ ← Call.lift
          (verifyMined P env w.mockHeaders e.tx.bitcoinTx e.block e.proof)
        registryCall fun self => RegistryV102.setTxMined self e.tx.bitcoinTx e.block.height) w =
        (.ok u, w') ↔
      ((w.registries.mined e.tx.bitcoinTx).isSome = true ∨
        verifyMined P env w.mockHeaders e.tx.bitcoinTx e.block e.proof = .ok true ∧
          w.registries.MayWrite (.deployed .oracleV106)) ∧
        w' = { w with registries := w.registries.recordMined e } := by
  rw [Call.whenever_eq_ok, hrec]
  unfold Registries.recordMined
  by_cases hmined : (w.registries.mined e.tx.bitcoinTx).isSome = true
  · -- on record already: neither verified nor written
    simp [hmined]
  · simp only [hmined, Call.bind_eq_ok, Call.lift_eq_ok, registryCall_eq_ok,
      RegistryV102.setTxMined_eq_ok]
    constructor
    · rintro (⟨-, b, _, ⟨hb, rfl⟩, _, _, ⟨hmay, -, rfl⟩, hw'⟩ | ⟨h, -⟩)
      · have htrue := verifyMined_eq_ok P env hb
        subst htrue
        exact ⟨Or.inr ⟨hb, hmay⟩, by simpa using hw'⟩
      · simp at h
    · rintro ⟨h | ⟨hb, hmay⟩, hw'⟩
      · simp at h
      · exact Or.inl ⟨by simp, true, w, ⟨hb, rfl⟩, true, _, ⟨hmay, rfl, rfl⟩, by simpa using hw'⟩

/-- A guarded write of a balance. -/
theorem raiseBalance_eq_ok {w w' : World} (key : UserTick) (old new : UserBalance) {u : Unit} :
    Call.whenever (old.upToBlock.val < new.upToBlock.val)
        (registryCall fun self => RegistryV102.setUserBalance self key new) w = (.ok u, w') ↔
      (old.upToBlock.val < new.upToBlock.val →
        w.registries.MayWrite (.deployed .oracleV106) ∧ w.registries.MayForward) ∧
        w' = { w with registries := w.registries.raiseBalance key old new } := by
  rw [Call.whenever_eq_ok]
  unfold Registries.raiseBalance
  by_cases hlt : old.upToBlock.val < new.upToBlock.val
  · simp [hlt, registryCall_eq_ok, RegistryV102.setUserBalance_eq_ok, and_assoc]
  · simp [hlt]

/-- **What `index-tx-iter` checks and does.** -/
theorem indexTxIter_eq_ok {w w' : World} {e : SignedTx} {a b : Bool} :
    indexTxIter P env e (.ok a) w = (.ok b, w') ↔
      Accepts P env w e ∧ b = true ∧ w' = index P w e := by
  have hrec : ∀ o : Option Uint, (o.elim (.error Registry.errTxNotMined) .ok : Except Nat Uint).isOk =
      o.isSome := fun o => by cases o <;> rfl
  simp only [indexTxIter, Call.bind_eq_ok, Call.view_eq_ok, Call.lift_eq_ok, Call.pure_eq_ok,
    Result.asserts_eq_ok, RegistryV102.getBitcoinTxMinedOrFail_eq, Result.response_unwrap,
    Result.ok.injEq, id_eq]
  constructor
  · rintro ⟨_, _, ⟨rfl, rfl⟩, _, _, ⟨hthreshold, rfl⟩, _, _, ⟨rfl, rfl⟩, _, w1, h1, _, w2, h2,
      _, w3, h3, _, w4, h4, _, w5, h5, _, w6, h6, _, w7, h7, rfl, rfl⟩
    -- one call after the other, each on the storage the last one left
    obtain ⟨hmined, rfl⟩ := (recordMined_eq_ok P env (hrec _)).mp h1
    obtain ⟨s2, hs2, rfl⟩ := onOracle_eq_ok.mp h2
    obtain rfl := Call.modify_eq_ok.mp hs2
    obtain ⟨s3, hs3, rfl⟩ := onOracle_eq_ok.mp h3
    obtain ⟨hvalid, hdistinct, -, rfl⟩ := (validateSignatures_eq_ok P env).mp hs3
    obtain ⟨_, r4, hr4, rfl⟩ := registryCall_eq_ok.mp h4
    obtain ⟨hmay, -, rfl⟩ := RegistryV102.setTxIndexed_eq_ok.mp hr4
    obtain ⟨-, rfl⟩ := (raiseBalance_eq_ok e.tx.fromKey _ e.fromBalance).mp h5
    obtain ⟨-, rfl⟩ := (raiseBalance_eq_ok e.tx.toKey _ e.toBalance).mp h6
    obtain ⟨_, r7, hr7, rfl⟩ := registryCall_eq_ok.mp h7
    obtain ⟨-, hforward, -, rfl⟩ := RegistryV102.setTickDecimals_eq_ok.mp hr7
    refine ⟨⟨hthreshold, ?_, ?_, hdistinct, ?_, ?_⟩, rfl, rfl⟩
    · exact hmined.imp_right And.left
    · exact fun pack hpack => ⟨(hvalid pack hpack).registered, (hvalid pack hpack).fresh,
        (hvalid pack hpack).sameHash⟩
    · simpa using hmay
    · simpa using hforward
  · rintro ⟨⟨hthreshold, hmined, hvalid, hdistinct, hmay, hforward⟩, rfl, rfl⟩
    refine ⟨w, w, ⟨rfl, rfl⟩, (), w, ⟨hthreshold, rfl⟩, _, w, ⟨rfl, rfl⟩,
      (), _, (recordMined_eq_ok P env (hrec _)).mpr ⟨?_, rfl⟩,
      (), _, onOracle_eq_ok.mpr ⟨_, Call.modify_eq_ok.mpr rfl, rfl⟩,
      true, _, onOracle_eq_ok.mpr ⟨_, (validateSignatures_eq_ok P env).mpr
        ⟨?_, hdistinct, rfl, rfl⟩, rfl⟩,
      (), _, registryCall_eq_ok.mpr ⟨true, _, RegistryV102.setTxIndexed_eq_ok.mpr
        ⟨?_, rfl, rfl⟩, rfl⟩,
      (), _, (raiseBalance_eq_ok e.tx.fromKey (w.registries.balance e.tx.fromKey)
        e.fromBalance).mpr ⟨fun _ => ⟨?_, ?_⟩, rfl⟩,
      (), _, (raiseBalance_eq_ok e.tx.toKey (w.registries.balance e.tx.toKey)
        e.toBalance).mpr ⟨fun _ => ⟨?_, ?_⟩, rfl⟩,
      (), _, registryCall_eq_ok.mpr ⟨true, _, RegistryV102.setTickDecimals_eq_ok.mpr
        ⟨?_, ?_, rfl, rfl⟩, rfl⟩, rfl, rfl⟩
    · exact hmined.imp_right fun h => ⟨h, hmay⟩
    · exact fun pack hpack => ⟨(hvalid pack hpack).registered, (hvalid pack hpack).fresh,
        (hvalid pack hpack).sameHash⟩
    all_goals simp [hmay, hforward]

/-! ## A batch -/

/-- Every element of a batch is accepted in the storage its predecessors left. -/
def AcceptsAll : World → List SignedTx → Prop
  | _, [] => True
  | w, e :: es => Accepts P env w e ∧ AcceptsAll (index P w e) es

/-- The storage after the elements of a batch. -/
def indexAll (w : World) (es : List SignedTx) : World := es.foldl (index P) w

@[simp] theorem indexAll_nil (w : World) : indexAll P w [] = w := rfl

theorem indexAll_cons (w : World) (e : SignedTx) (es : List SignedTx) :
    indexAll P w (e :: es) = indexAll P (index P w e) es := rfl

theorem indexAll_append (w : World) (es es' : List SignedTx) :
    indexAll P w (es ++ es') = indexAll P (indexAll P w es) es' :=
  List.foldl_append

theorem AcceptsAll.append_iff {w : World} {es es' : List SignedTx} :
    AcceptsAll P env w (es ++ es') ↔
      AcceptsAll P env w es ∧ AcceptsAll P env (indexAll P w es) es' := by
  induction es generalizing w with
  | nil => simp [AcceptsAll]
  | cons e es ih => rw [List.cons_append, AcceptsAll, AcceptsAll, ih, indexAll_cons, and_assoc]

theorem indexTxIter_fold_eq_ok {w w' : World} {es : List SignedTx} {b : Bool} :
    Call.fold (indexTxIter P env) es (.ok true) w = (.ok b, w') ↔
      AcceptsAll P env w es ∧ b = true ∧ w' = indexAll P w es := by
  induction es generalizing w with
  | nil =>
      simp only [Call.fold, Result.ofResponse_ok, Call.lift_eq_ok, Result.ok.injEq, AcceptsAll,
        indexAll_nil, true_and]
      exact and_congr eq_comm Iff.rfl
  | cons e es ih =>
      rw [Call.fold_cons_eq_ok (fun _ _ _ => rfl)]
      simp only [indexTxIter_eq_ok]
      constructor
      · rintro ⟨_, _, ⟨he, rfl, rfl⟩, hrest⟩
        obtain ⟨hes, hb, hw'⟩ := ih.mp hrest
        exact ⟨⟨he, hes⟩, hb, hw'⟩
      · rintro ⟨⟨he, hes⟩, hb, hw'⟩
        exact ⟨true, _, ⟨he, rfl, rfl⟩, ih.mpr ⟨hes, hb, hw'⟩⟩

/-- **What `index-tx-many` checks and does.** -/
theorem indexTxMany_eq_ok {w w' : World} {sender : Principal} {txMany : TxMany} {b : Bool} :
    indexTxMany P env sender txMany w = (.ok b, w') ↔
      w.oracle.isPaused = false ∧ (w.oracle.approvedRelayers sender).isSome = true ∧
        AcceptsAll P env w txMany.elements ∧ b = true ∧ w' = indexAll P w txMany.elements := by
  simp only [indexTxMany, Call.transaction_eq_ok, Call.bind_eq_ok, Call.view_eq_ok,
    Call.lift_eq_ok, Result.asserts_eq_ok, indexTxIter_fold_eq_ok, id_eq, Bool.not_eq_true]
  constructor
  · rintro ⟨_, _, ⟨rfl, rfl⟩, _, _, ⟨hpaused, rfl⟩, _, _, ⟨hrelayer, rfl⟩, hall, rfl, rfl⟩
    exact ⟨hpaused, hrelayer, hall, rfl, rfl⟩
  · rintro ⟨hpaused, hrelayer, hall, rfl, rfl⟩
    exact ⟨w, w, ⟨rfl, rfl⟩, (), w, ⟨hpaused, rfl⟩, (), w, ⟨hrelayer, rfl⟩, hall, rfl, rfl⟩

end Oracle
end BitcoinOracle
