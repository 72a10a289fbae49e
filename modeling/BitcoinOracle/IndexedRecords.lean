import BitcoinOracle.World

/-! # Indexed records

`set-tx-indexed` overwrites, and nothing on the way to it looks whether the key is
taken.  So an event accepted under a key in use replaces the record, with the one
exception the registry makes for every reader: a record of the first registry is
served before any of the second.

What never happens is that a record disappears.
-/
namespace BitcoinOracle
open Clarity

/-- The record the last element for `key` leaves. -/
def lastIndexed (es : List SignedTx) (key : IndexedKey 8192) : Option IndexedTx :=
  match es with
  | [] => none
  | e :: es => (lastIndexed es key).or (if e.tx.key = key then some e.tx.indexed else none)

theorem lastIndexed_eq_none {es : List SignedTx} {key : IndexedKey 8192}
    (h : ∀ e ∈ es, e.tx.key ≠ key) : lastIndexed es key = none := by
  induction es with
  | nil => rfl
  | cons e es ih =>
      have hrest := ih fun e' he' => h e' (List.mem_cons_of_mem e he')
      rw [lastIndexed, hrest, if_neg (h e List.mem_cons_self)]
      rfl

/-- The last element for a key decides. -/
theorem lastIndexed_append {before after : List SignedTx} {e : SignedTx}
    (h : ∀ e' ∈ after, e'.tx.key ≠ e.tx.key) :
    lastIndexed (before ++ e :: after) e.tx.key = some e.tx.indexed := by
  induction before with
  | nil =>
      rw [List.nil_append, lastIndexed, lastIndexed_eq_none h, if_pos rfl]
      rfl
  | cons e' before ih =>
      rw [List.cons_append, lastIndexed, ih]
      rfl

/-! ## No record disappears -/

/-- A record of either registry that is still there is still served. -/
theorem Registries.isSome_indexed_mono {r r' : Registries}
    (hv101 : ∀ k, (r.v101.bitcoinTxIndexed k).isSome = true →
      (r'.v101.bitcoinTxIndexed k).isSome = true)
    (hv102 : ∀ k, (r.v102.bitcoinTxIndexed k).isSome = true →
      (r'.v102.bitcoinTxIndexed k).isSome = true)
    {key : IndexedKey 8192} (h : (r.indexed key).isSome = true) :
    (r'.indexed key).isSome = true := by
  unfold Registries.indexed at h ⊢
  rw [Option.isSome_or, Bool.or_eq_true] at h ⊢
  rcases h with hlegacy | hown
  · left
    unfold Registries.legacyIndexed at hlegacy ⊢
    cases hsmall : key.txHash.asMaxLen 4096 with
    | none =>
        rw [hsmall] at hlegacy
        exact absurd hlegacy Bool.false_ne_true
    | some small =>
        rw [hsmall] at hlegacy
        exact hv101 _ hlegacy
  · exact Or.inr (hv102 _ hown)

theorem RegistryV101.isSome_indexed_writeDirect {sender : Principal} {call : RegistryWrite 4096}
    {s s' : State} {b : Bool} (h : writeDirect sender call s = (.ok b, s')) {k : IndexedKey 4096}
    (hk : (s.bitcoinTxIndexed k).isSome = true) : (s'.bitcoinTxIndexed k).isSome = true := by
  cases call with
  | setTickDecimals tick decimals =>
      obtain ⟨-, -, rfl⟩ := privileged_eq_ok.mp h
      exact hk
  | setUserBalance key value =>
      obtain ⟨-, -, rfl⟩ := privileged_eq_ok.mp h
      exact hk
  | setTxMined key value =>
      obtain ⟨-, -, rfl⟩ := privileged_eq_ok.mp h
      exact hk
  | setTxIndexed key value =>
      obtain ⟨-, -, rfl⟩ := privileged_eq_ok.mp h
      exact DataMap.set_isSome_mono hk

theorem RegistryV102.isSome_indexed_writeDirect {sender : Principal} {call : RegistryWrite 8192}
    {r r' : Registries} {b : Bool} (h : writeDirect sender call r = (.ok b, r'))
    {key : IndexedKey 8192} (hkey : (r.indexed key).isSome = true) :
    (r'.indexed key).isSome = true := by
  cases call with
  | setTickDecimals tick decimals =>
      obtain ⟨-, -, -, rfl⟩ := setTickDecimals_eq_ok.mp h
      exact hkey
  | setUserBalance key value =>
      obtain ⟨-, -, -, rfl⟩ := setUserBalance_eq_ok.mp h
      exact hkey
  | setTxMined key value =>
      obtain ⟨-, -, rfl⟩ := setTxMined_eq_ok.mp h
      exact hkey
  | setTxIndexed key value =>
      obtain ⟨-, -, rfl⟩ := setTxIndexed_eq_ok.mp h
      apply Registries.isSome_indexed_mono (r := r) ?_ ?_ hkey
      · exact fun _ hk => hk
      · exact fun _ hk => DataMap.set_isSome_mono hk

namespace World
variable (P : Primitives) (env : Env)

/-- A batch leaves a record for each of its elements, and loses none. -/
theorem isSome_indexed_indexAll {w : World} {es : List SignedTx} {key : IndexedKey 8192} :
    ((Oracle.indexAll P w es).registries.indexed key).isSome = true ↔
      (∃ e ∈ es, key = e.tx.key) ∨ (w.registries.indexed key).isSome = true := by
  induction es generalizing w with
  | nil => exact (or_iff_right fun ⟨_, he, _⟩ => nomatch he).symm
  | cons e es ih =>
      rw [Oracle.indexAll_cons, ih]
      show _ ∨ ((w.registries.index e).indexed key).isSome = true ↔ _
      rw [Registries.isSome_indexed_index, or_left_comm, ← or_assoc]
      simp only [List.mem_cons, exists_eq_or_imp]

/-- **No transaction takes a record away**, not even one that writes past the oracle. -/
theorem isSome_indexed_next {w : World} {t : Transaction} {key : IndexedKey 8192}
    (h : (w.registries.indexed key).isSome = true) :
    (((deployment P).next w t).registries.indexed key).isSome = true := by
  by_cases hdirect : t.call.IsDirectWrite
  · obtain ⟨env, sender, call⟩ := t
    rcases hexec : exec P ⟨env, sender, call⟩ w with ⟨x | e | e, w'⟩
    · have hnext : (deployment P).next w ⟨env, sender, call⟩ = w' := congrArg Prod.snd hexec
      rw [hnext]
      cases call with
      | writeV101 call =>
          obtain ⟨b, hwrite, -⟩ := answering_eq_ok.mp hexec
          obtain ⟨s', hs', rfl⟩ := Call.within_eq_ok.mp hwrite
          apply Registries.isSome_indexed_mono (r := w.registries) ?_ ?_ h
          · exact fun _ hk => RegistryV101.isSome_indexed_writeDirect hs' hk
          · exact fun _ hk => hk
      | writeV102 call =>
          obtain ⟨b, hwrite, -⟩ := answering_eq_ok.mp hexec
          obtain ⟨r', hr', rfl⟩ := Call.within_eq_ok.mp hwrite
          exact RegistryV102.isSome_indexed_writeDirect hr' h
      | indexTxMany txMany => exact hdirect.elim
      | oracle call => exact hdirect.elim
      | registryV101 call => exact hdirect.elim
      | registryV102 call => exact hdirect.elim
      | mockAddBurnchainBlockHeaderHash burnHeight hash => exact hdirect.elim
    all_goals
      have hnext : (deployment P).next w ⟨env, sender, call⟩ = w :=
        exec_atomic P _ w fun a => by rw [hexec]; nofun
      rwa [hnext]
  · have hstep := step_next P w t
    generalize (deployment P).next w t = w', (deployment P).log w t = log at hstep ⊢
    cases hstep with
    | refused => exact h
    | indexed hcall hpaused hrelayer haccepts =>
        exact (isSome_indexed_indexAll P).mpr (Or.inr h)
    | governed hcall howner hgoverned => exact h
    | mock => exact h
    | registry hsame =>
        rw [← (hsame hdirect).indexed] at h
        exact h

theorem indexAll_indexedV101 (w : World) (es : List SignedTx) :
    (Oracle.indexAll P w es).registries.v101.bitcoinTxIndexed =
      w.registries.v101.bitcoinTxIndexed := by
  induction es generalizing w with
  | nil => rfl
  | cons e es ih =>
      rw [Oracle.indexAll_cons, ih]
      exact Registries.index_indexedV101 ..

theorem indexAll_indexedV102 (w : World) (es : List SignedTx) (key : IndexedKey 8192) :
    (Oracle.indexAll P w es).registries.v102.bitcoinTxIndexed key =
      (lastIndexed es key).or (w.registries.v102.bitcoinTxIndexed key) := by
  induction es generalizing w with
  | nil => rfl
  | cons e es ih =>
      have hstep : (Oracle.index P w e).registries.v102.bitcoinTxIndexed =
          w.registries.v102.bitcoinTxIndexed.set e.tx.key e.tx.indexed :=
        Registries.index_indexedV102 ..
      rw [Oracle.indexAll_cons, ih, hstep, lastIndexed, Option.or_assoc, DataMap.set_apply]
      congr 1
      by_cases hkey : key = e.tx.key
      · rw [if_pos hkey, if_pos hkey.symm]
        rfl
      · rw [if_neg hkey, if_neg fun h => hkey h.symm]
        rfl

/-- The record served for a key after a batch. -/
theorem indexAll_indexed (w : World) (es : List SignedTx) (key : IndexedKey 8192) :
    (Oracle.indexAll P w es).registries.indexed key =
      (w.registries.legacyIndexed key).or
        ((lastIndexed es key).or (w.registries.v102.bitcoinTxIndexed key)) := by
  unfold Registries.indexed
  rw [indexAll_indexedV102]
  congr 1
  unfold Registries.legacyIndexed
  rw [indexAll_indexedV101]

/-- **What an accepted batch leaves of the indexed records.**  A key whose record was
served before the call is served after it: with the same record when it is one of
the first registry or the batch does not name the key, and otherwise with the record
of the last element that does. -/
theorem indexed_after_batch {w w' : World} {sender : Principal} {txMany : TxMany}
    (hok : Oracle.indexTxMany P env sender txMany w = (.ok true, w'))
    (bitcoinTx : Buff 8192) (output offset : Uint) :
    (∀ v, RegistryV102.getBitcoinTxIndexedOrFail w.registries bitcoinTx output offset = .ok v →
      (∃ v', RegistryV102.getBitcoinTxIndexedOrFail w'.registries bitcoinTx output offset =
        .ok v') ∧
      (w.registries.legacyIndexed ⟨bitcoinTx, output, offset⟩ = some v ∨
          (∀ e ∈ txMany.elements, e.tx.key ≠ ⟨bitcoinTx, output, offset⟩) →
        RegistryV102.getBitcoinTxIndexedOrFail w'.registries bitcoinTx output offset = .ok v)) ∧
    ∀ before e after, txMany.elements = before ++ e :: after →
      e.tx.key = ⟨bitcoinTx, output, offset⟩ →
      (∀ e' ∈ after, e'.tx.key ≠ ⟨bitcoinTx, output, offset⟩) →
      w.registries.legacyIndexed ⟨bitcoinTx, output, offset⟩ = none →
      RegistryV102.getBitcoinTxIndexedOrFail w'.registries bitcoinTx output offset =
        .ok e.tx.indexed := by
  obtain ⟨-, -, -, -, rfl⟩ := (Oracle.indexTxMany_eq_ok P env).mp hok
  simp only [RegistryV102.getBitcoinTxIndexedOrFail_eq, Result.unwrap_eq_ok, indexAll_indexed]
  constructor
  · intro v hv
    constructor
    · -- whichever layer serves the key, some layer does
      unfold Registries.indexed at hv
      cases hlegacy : w.registries.legacyIndexed ⟨bitcoinTx, output, offset⟩ with
      | some u => exact ⟨u, rfl⟩
      | none =>
          rw [hlegacy, Option.none_or] at hv
          cases hlast : lastIndexed txMany.elements ⟨bitcoinTx, output, offset⟩ with
          | some u => exact ⟨u, rfl⟩
          | none => exact ⟨v, hv⟩
    · rintro (hlegacy | hunnamed)
      · rw [hlegacy]
        rfl
      · rw [lastIndexed_eq_none hunnamed]
        exact hv
  · intro before e after helements hkey hlast hlegacy
    rw [← hkey] at hlast hlegacy ⊢
    rw [helements, lastIndexed_append hlast, hlegacy]
    rfl

open Sample in
/-- A record is replaced by a later call, and by a later element of its own batch. -/
theorem indexed_record_replaced :
    RegistryV102.getBitcoinTxIndexedOrFail ((deployment primitives).run (deployed deployer)
        (setup testnet ++ [submit testnet ⟨[transferAB], by decide⟩])).registries
        bitcoinTxA 0 0 = .ok transferAB.tx.indexed ∧
      (Oracle.indexTxMany primitives testnet relayer ⟨[transferAC], by decide⟩
        ((deployment primitives).run (deployed deployer)
          (setup testnet ++ [submit testnet ⟨[transferAB], by decide⟩]))).1 = .ok true ∧
      RegistryV102.getBitcoinTxIndexedOrFail ((deployment primitives).run (deployed deployer)
        (setup testnet ++ [submit testnet ⟨[transferAB], by decide⟩,
          submit testnet ⟨[transferAC], by decide⟩])).registries
        bitcoinTxA 0 0 = .ok transferAC.tx.indexed ∧
      transferAC.tx.indexed ≠ transferAB.tx.indexed ∧
      RegistryV102.getBitcoinTxIndexedOrFail ((deployment primitives).run (deployed deployer)
        (setup testnet ++ [submit testnet ⟨[transferAB, transferAC], by decide⟩])).registries
        bitcoinTxA 0 0 = .ok transferAC.tx.indexed := by
  decide +kernel

open Sample in
/-- The record of the first of two elements with different keys is served after both. -/
theorem indexed_after_batch_transfers :
    ∃ w', Oracle.indexTxMany primitives testnet relayer ⟨[transferAB, transferBA], by decide⟩
        ((deployment primitives).run (deployed deployer) (setup testnet)) = (.ok true, w') ∧
      RegistryV102.getBitcoinTxIndexedOrFail w'.registries bitcoinTxA 0 0 =
        .ok transferAB.tx.indexed := by
  obtain ⟨b, hok, htrue⟩ := answering_eq_ok.mp (exec_eq primitives answer_transfers)
  cases htrue
  have hother : ∀ e ∈ [transferBA], e.tx.key ≠ ⟨bitcoinTxA, 0, 0⟩ := by decide
  have hbatch := (indexed_after_batch primitives testnet hok bitcoinTxA 0 0).2
  exact ⟨_, hok, hbatch [] transferAB [transferBA] rfl rfl hother rfl⟩

end World
end BitcoinOracle
