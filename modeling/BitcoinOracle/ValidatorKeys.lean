import BitcoinOracle.World
import Mathlib.Data.List.Nodup

/-! # Validators and their keys

A principal is registered once at a time, but nothing compares keys: the owner may
register one key under any number of principals, and then one private key signs for
all of them.  As long as the owner registers only keys that no other validator has,
no two validators share one (`distinctKeys_run`), and the signatures of an accepted
event come from as many keys as are required (`accepted_distinct_keys`).
-/
namespace BitcoinOracle
open Clarity Oracle

namespace World
variable (P : Primitives)

/-- No two registered validators share a key. -/
def DistinctKeys (w : World) : Prop :=
  ∀ p q key, w.oracle.validators p = some key → w.oracle.validators q = some key → p = q

/-- If the transaction registers a key, no validator has it at that moment. -/
def RegistersFresh (w : World) (t : Transaction) : Prop :=
  ∀ key validator a, t.call = .oracle (.addValidator key validator) → answer P w t = .ok a →
    ∀ q, w.oracle.validators q ≠ some key

variable {P}

theorem DistinctKeys.add {w : World} {key : Buff 33} {validator : Principal}
    (h : DistinctKeys w) (hfresh : ∀ q, w.oracle.validators q ≠ some key) :
    ∀ p q key', w.oracle.validators.set validator key p = some key' →
      w.oracle.validators.set validator key q = some key' → p = q := by
  intro p q key' hp hq
  rw [DataMap.set_apply] at hp hq
  by_cases hpv : p = validator
  · rw [if_pos hpv] at hp
    by_cases hqv : q = validator
    · rw [hpv, hqv]
    · rw [if_neg hqv, ← hp] at hq
      exact absurd hq (hfresh q)
  · rw [if_neg hpv] at hp
    by_cases hqv : q = validator
    · rw [if_pos hqv] at hq
      rw [← hq] at hp
      exact absurd hp (hfresh p)
    · rw [if_neg hqv] at hq
      exact h p q key' hp hq

theorem DistinctKeys.remove {w : World} {validator : Principal} (h : DistinctKeys w) :
    ∀ p q key, w.oracle.validators.delete validator p = some key →
      w.oracle.validators.delete validator q = some key → p = q := by
  have hkept : ∀ p key, w.oracle.validators.delete validator p = some key →
      w.oracle.validators p = some key := by
    intro p key hp
    by_cases hpv : p = validator
    · rw [hpv, DataMap.delete_self] at hp
      cases hp
    · rwa [DataMap.delete_of_ne hpv] at hp
  exact fun p q key hp hq => h p q key (hkept p key hp) (hkept q key hq)

theorem distinctKeys_next {w : World} {t : Transaction} (hfresh : RegistersFresh P w t)
    (h : DistinctKeys w) : DistinctKeys ((deployment P).next w t) := by
  have hstep := step_next P w t
  have hanswer : ∀ key validator, t.call = .oracle (.addValidator key validator) →
      (deployment P).next w t ≠ w → ∀ q, w.oracle.validators q ≠ some key := by
    intro key validator hcall hne
    obtain ⟨a, hans⟩ := answer_of_next_ne P hne
    exact hfresh key validator a hcall hans
  generalize (deployment P).next w t = w', (deployment P).log w t = new at hstep hanswer ⊢
  cases hstep with
  | refused => exact h
  | indexed hcall hpaused hrelayer haccepts =>
      intro p q key hp hq
      rw [indexAll_validators] at hp hq
      exact h p q key hp hq
  | governed hcall howner hgoverned =>
      cases hgoverned with
      | @addValidator key validator count hnew =>
          refine h.add (hanswer _ _ hcall fun hsame => ?_)
          -- the new validator was not registered before
          have hvalidators : w.oracle.validators.set validator key = w.oracle.validators :=
            congrArg (fun w : World => w.oracle.validators) hsame
          rw [← hvalidators, DataMap.set_self] at hnew
          cases hnew
      | removeValidator hold => exact h.remove
      | setPaused paused => exact h
      | approveRelayer relayer approved => exact h
      | setRequiredValidators hlt => exact h
      | setContractOwner owner => exact h
  | registry hdata => exact h
  | mock => exact h

/-- **Registering only fresh keys keeps them distinct.** -/
theorem distinctKeys_run {w : World} {ts : List Transaction}
    (hfresh : (deployment P).Along (RegistersFresh P) w ts) (h : DistinctKeys w) :
    DistinctKeys ((deployment P).run w ts) :=
  Machine.run_invariant DistinctKeys (fun _ _ => distinctKeys_next) hfresh h

/-- The keys of distinct signers are distinct. -/
theorem keys_nodup {validators : DataMap Principal (Buff 33)}
    (hdistinct : ∀ p q key, validators p = some key → validators q = some key → p = q)
    {signers : List Principal} (hnodup : signers.Nodup) : (signers.filterMap validators).Nodup :=
  List.Nodup.filterMap (fun p q key hp hq => hdistinct p q key hp hq) hnodup

theorem keys_length {validators : DataMap Principal (Buff 33)} {signers : List Principal}
    (hregistered : ∀ p ∈ signers, ∃ key, validators p = some key) :
    (signers.filterMap validators).length = signers.length := by
  induction signers with
  | nil => rfl
  | cons p signers ih =>
      obtain ⟨key, hkey⟩ := hregistered p List.mem_cons_self
      rw [List.filterMap_cons_some hkey, List.length_cons, List.length_cons,
        ih fun q hq => hregistered q (List.mem_cons_of_mem p hq)]

variable (P)

/-- **Signatures count keys, when only fresh keys are registered.**  In a run from
storage without validators in which every registered key is one that no validator
has at that moment, no two validators ever share a key, and every accepted event is
signed under at least as many distinct keys as required. -/
theorem accepted_distinct_keys {w₀ : World} {ts : List Transaction}
    (hempty : w₀.oracle.validators = .empty)
    (hfresh : (deployment P).Along (RegistersFresh P) w₀ ts) :
    DistinctKeys ((deployment P).run w₀ ts) ∧
      ∀ t txMany a, t.call = .indexTxMany txMany →
        answer P ((deployment P).run w₀ ts) t = .ok a → ∀ e ∈ txMany.elements,
          ∃ keys : List (Buff 33), keys.Nodup ∧
            ((deployment P).run w₀ ts).oracle.requiredValidators.val ≤ keys.length ∧
            ∀ key ∈ keys, ∃ pack ∈ e.signaturePacks,
              ((deployment P).run w₀ ts).oracle.validators pack.signer = some key ∧
              P.secp256k1Recover (signedMessage P t.env (hashTx P e.tx)) pack.signature.bytes =
                .ok key.bytes := by
  have hstart : DistinctKeys w₀ := by
    intro p q key hp hq
    rw [hempty] at hp
    cases hp
  have hkeys := distinctKeys_run hfresh hstart
  refine ⟨hkeys, fun t txMany a hcall hok e he => ?_⟩
  obtain ⟨before, after, helements⟩ := List.append_of_mem he
  have haccepts := accepts_of_answer P hcall hok helements
  have hregistered : ∀ p ∈ e.signers, ∃ key,
      ((deployment P).run w₀ ts).oracle.validators p = some key := by
    intro p hp
    obtain ⟨pack, hpack, rfl⟩ := List.mem_map.mp hp
    obtain ⟨key, hkey, -⟩ := (haccepts.valid pack hpack).registered
    rw [indexAll_validators] at hkey
    exact ⟨key, hkey⟩
  -- distinct validators have distinct keys, so the keys are as many as the signers
  refine ⟨e.signers.filterMap ((deployment P).run w₀ ts).oracle.validators,
    keys_nodup hkeys haccepts.distinct, ?_, fun key hkey => ?_⟩
  · have hthreshold := haccepts.threshold
    rw [indexAll_requiredValidators] at hthreshold
    rw [keys_length hregistered, SignedTx.signers, List.length_map]
    exact hthreshold
  · obtain ⟨p, hp, hpkey⟩ := List.mem_filterMap.mp hkey
    obtain ⟨pack, hpack, rfl⟩ := List.mem_map.mp hp
    obtain ⟨key', hkey', hrecover⟩ := (haccepts.valid pack hpack).registered
    rw [indexAll_validators, hpkey] at hkey'
    cases hkey'
    exact ⟨pack, hpack, hpkey, toOption_eq_some.mp hrecover⟩

section Sample
open Sample

/-- The owner registers the guardian's key for itself too, and requires two signers. -/
def aliasing : List Transaction := [
  ⟨testnet, deployer, .oracle (.addValidator guardianKey deployer)⟩,
  ⟨testnet, deployer, .oracle (.setRequiredValidators 2)⟩]

/-- A transfer the guardian signed, with its one signature listed for both principals. -/
def aliasedTransfer : SignedTx where
  tx := transferAB.tx
  block := transferAB.block
  proof := transferAB.proof
  signaturePacks := transferAB.signaturePacks ++
    transferAB.signaturePacks.map fun pack => { pack with signer := deployer }
  signaturePacks_length := by decide

/-- Two principals have one key, and a single signature of it passes for two. -/
theorem aliased_signature_accepted :
    ((deployment primitives).run (deployed deployer)
        (setup testnet ++ aliasing)).oracle.validators guardian = some guardianKey ∧
      ((deployment primitives).run (deployed deployer)
        (setup testnet ++ aliasing)).oracle.validators deployer = some guardianKey ∧
      guardian ≠ deployer ∧
      ((deployment primitives).run (deployed deployer)
        (setup testnet ++ aliasing)).oracle.requiredValidators = 2 ∧
      answer primitives ((deployment primitives).run (deployed deployer) (setup testnet ++ aliasing))
        (submit testnet ⟨[aliasedTransfer], by decide⟩) = .ok (.bool true) ∧
      ∀ pack ∈ aliasedTransfer.signaturePacks, pack.signature = signatureAB := by
  decide +kernel

def deputy : Principal :=
  .standard ⟨bytesBe 21 0x1ab0e8c72590d8ec330b75a9089d220dcd6f4d4a6e, by decide⟩

def deputyKey : Buff 33 :=
  ⟨bytesBe 33 0x039fa3c9b2c98acc46563707702ee633141b2c125b85649e11548a30233f97ed9f, by decide⟩

def deputySignatureAB : Buff 65 :=
  signature 0x83cea6bf234a7592cb06a8d02131fb9a0dba101621ee294fc09b599fd76f8683
    0x2860ae01b8938c10117a0c488e54b2cde7741d2d7d16c7b698ba093a0cdf13a3 1

/-- Signature recovery for the deputy too. -/
def deputyPrimitives : Primitives := Sha256.primitives fun message signature =>
  if message = bytesBe 32 0x515cb3ff1bd26a5adb7bd3f86258e92a49094bbd4f60aed48bf4d0e28782ce58 ∧
      signature = deputySignatureAB.bytes then .ok deputyKey.bytes
  else recover message signature

/-- The owner registers a second key for a second validator, and requires two signers. -/
def deputising : List Transaction := [
  ⟨testnet, deployer, .oracle (.addValidator deputyKey deputy)⟩,
  ⟨testnet, deployer, .oracle (.setRequiredValidators 2)⟩]

/-- The transfer, signed by both validators. -/
def deputisedTransfer : SignedTx where
  tx := transferAB.tx
  block := transferAB.block
  proof := transferAB.proof
  signaturePacks := transferAB.signaturePacks ++
    [⟨deputy, hashTx deputyPrimitives transferAB.tx, deputySignatureAB⟩]
  signaturePacks_length := by decide

/-- Each key is registered when no validator has it. -/
theorem registersFresh_deputising : (deployment deputyPrimitives).Along
    (RegistersFresh deputyPrimitives) (deployed deployer) (setup testnet ++ deputising) := by
  have hother : ∀ w t, (∀ key validator, t.call ≠ .oracle (.addValidator key validator)) →
      RegistersFresh deputyPrimitives w t :=
    fun w t h key validator a hcall => absurd hcall (h key validator)
  refine ⟨hother _ _ nofun, hother _ _ nofun, hother _ _ nofun, hother _ _ nofun,
    hother _ _ nofun, ?_, hother _ _ nofun, hother _ _ nofun, ?_, hother _ _ nofun, trivial⟩
  · intro key validator a hcall hok q
    show none ≠ some key
    nofun
  · intro key validator a hcall hok q
    cases hcall
    show DataMap.set .empty guardian guardianKey q ≠ some deputyKey
    rw [DataMap.set_apply]
    split
    · decide
    · nofun

theorem answer_deputisedTransfer :
    answer deputyPrimitives
      ((deployment deputyPrimitives).run (deployed deployer) (setup testnet ++ deputising))
      (submit testnet ⟨[deputisedTransfer], by decide⟩) = .ok (.bool true) := by
  decide +kernel

/-- Where two signatures are required, the transfer is signed under two keys. -/
theorem accepted_distinct_keys_transfer :
    ∃ keys : List (Buff 33), keys.Nodup ∧ 2 ≤ keys.length ∧
      ∀ key ∈ keys, ∃ pack ∈ deputisedTransfer.signaturePacks, deputyPrimitives.secp256k1Recover
        (signedMessage deputyPrimitives testnet (hashTx deputyPrimitives deputisedTransfer.tx))
        pack.signature.bytes = .ok key.bytes := by
  obtain ⟨keys, hnodup, hlength, hkeys⟩ := (accepted_distinct_keys deputyPrimitives rfl
    registersFresh_deputising).2 _ _ _ rfl answer_deputisedTransfer deputisedTransfer
      List.mem_cons_self
  refine ⟨keys, hnodup, hlength, fun key hkey => ?_⟩
  obtain ⟨pack, hpack, -, hrecover⟩ := hkeys key hkey
  exact ⟨pack, hpack, hrecover⟩

end Sample

end World
end BitcoinOracle
