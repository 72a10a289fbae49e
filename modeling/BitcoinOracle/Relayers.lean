import BitcoinOracle.World

/-! # The admission of relayers

`approve-relayer` stores whether a relayer is approved, but `index-tx-many` only
asks whether anything is stored.  An entry of `approved-relayers` is never removed,
so once the owner has called `approve-relayer` for a principal, with `true` or with
`false`, that principal is not refused as an unknown relayer any more.

`ERR-UKNOWN-RELAYER` is told apart from the other ways a submission can fail by
following the error codes through everything `index-tx-iter` calls (`RaisesOnly`).
-/
namespace BitcoinOracle
open Clarity Oracle

/-! ## Other errors -/

/-- An error other than `ERR-UKNOWN-RELAYER`. -/
def OtherError (code : Nat) : Prop := code ≠ errUknownRelayer

instance : DecidablePred OtherError := fun _ => inferInstanceAs (Decidable (_ ≠ _))

theorem readUintLe_err {width : Nat} {ctx : ClarityBitcoin.Ctx} {e : Nat}
    (h : ClarityBitcoin.readUintLe width ctx = .err e) : e = ClarityBitcoin.errOutOfBounds := by
  have hadd : ∀ a b, add a b ≠ .err e := fun a b => by
    unfold add
    split <;> nofun
  have hpanic : ∀ o : Option Bytes, Result.unwrapPanic o ≠ .err e := fun o => by
    cases o <;> nofun
  unfold ClarityBitcoin.readUintLe at h
  rcases Result.bind_eq_err.mp h with h | ⟨stop, -, h⟩
  · exact absurd h (hadd _ _)
  rcases Result.bind_eq_err.mp h with h | ⟨window, -, h⟩
  · exact (Result.unwrap_eq_err.mp h).2.symm
  rcases Result.bind_eq_err.mp h with h | ⟨digits, -, h⟩
  · exact absurd h (hpanic _)
  rcases Result.bind_eq_err.mp h with h | ⟨next, -, h⟩
  · exact absurd h (hadd _ _)
  · cases h

theorem isSegwitTx_err {tx : Bytes} {e : Nat} (h : ClarityBitcoin.isSegwitTx tx = .err e) :
    e = ClarityBitcoin.errOutOfBounds := by
  unfold ClarityBitcoin.isSegwitTx at h
  rcases Result.bind_eq_err.mp h with h | ⟨version, -, h⟩
  · exact readUintLe_err h
  rcases Result.bind_eq_err.mp h with h | ⟨marker, -, h⟩
  · exact readUintLe_err h
  · cases h

variable (P : Primitives) (env : Env)

theorem verifyMined_err {mock : ClarityBitcoin.MockHeaders} {tx : Buff 8192}
    {block : ClarityBitcoin.Block} {proof : ClarityBitcoin.Proof} {e : Nat}
    (h : verifyMined P env mock tx block proof = .err e) : OtherError e := by
  have hresponse : ∀ r : Result Bool, r.response ≠ .err e := fun r => by
    cases r <;> nofun
  unfold verifyMined at h
  split at h
  · rcases Result.bind_eq_err.mp h with h | ⟨segwit, -, h⟩
    · rw [isSegwitTx_err h]
      decide
    rcases Result.bind_eq_err.mp h with h | ⟨response, -, h⟩
    · exact absurd h (hresponse _)
    · split at h
      · cases h
      · cases h
        decide
  · cases h

theorem validateTx_err {s : State} {txHash : Buff 32} {pack : SignaturePack} {e : Nat}
    (h : validateTx P env s txHash pack = .err e) : OtherError e := by
  unfold validateTx at h
  rcases Result.bind_eq_err.mp h with h | ⟨pubkey, -, h⟩
  · rw [← (Result.unwrap_eq_err.mp h).2]
    decide
  rcases Result.bind_eq_err.mp h with h | ⟨_, -, h⟩
  · rw [← (Result.asserts_eq_err.mp h).2]
    decide
  rcases Result.bind_eq_err.mp h with h | ⟨_, -, h⟩
  · rw [← (Result.asserts_eq_err.mp h).2]
    decide
  rcases Result.bind_eq_err.mp h with h | ⟨_, -, h⟩
  · rw [← (Result.asserts_eq_err.mp h).2]
    decide
  · cases h

namespace RegistryV101

theorem privileged_raises {sender : Principal} {f : State → State} :
    (privileged sender f).RaisesOnly OtherError :=
  .transaction (.bind (.bind (.view _) fun _ => .asserts (by decide)) fun _ =>
    .bind (.view _) fun _ => .bind (.asserts (by decide)) fun _ =>
      .bind (.modify _) fun _ => .pure _)

end RegistryV101

namespace RegistryV102

theorem privileged_raises {sender : Principal} {body : Call Registries Bool}
    (hbody : body.RaisesOnly OtherError) : (privileged sender body).RaisesOnly OtherError :=
  .transaction (.bind (.bind (.view _) fun _ => .asserts (by decide)) fun _ =>
    .bind (.view _) fun _ => .bind (.asserts (by decide)) fun _ => hbody)

theorem write_raises {f : State → State} : (write f).RaisesOnly OtherError :=
  .bind (.modify _) fun _ => .pure _

end RegistryV102

namespace Oracle

theorem registryCall_raises {c : Principal → Call Registries Bool}
    (hc : ∀ self, (c self).RaisesOnly OtherError) : (registryCall c).RaisesOnly OtherError :=
  .bind (.within (hc _)) fun _ => .pure _

theorem validateSignatureIter_raises (pack : SignaturePack) (b : Bool) :
    (validateSignatureIter P env pack (.ok b)).RaisesOnly OtherError :=
  .bind (.view _) fun _ => .bind (.lift fun _ h => validateTx_err P env h) fun _ =>
    .bind (.modify _) fun _ => .pure _

/-- No check on an element answers that the relayer is unknown. -/
theorem indexTxIter_raises (signedTx : SignedTx) (b : Bool) :
    (indexTxIter P env signedTx (.ok b)).RaisesOnly OtherError := by
  have hresponse : ∀ (r : Result Uint) e, r.response ≠ .err e := fun r e => by
    cases r <;> nofun
  refine .bind (.view _) fun w => ?_
  refine .bind (.asserts (by decide)) fun _ => ?_
  refine .bind (.lift fun e h => absurd h (hresponse _ e)) fun mined => ?_
  refine .bind (.whenever ?_) fun _ => ?_
  · -- the first element of a Bitcoin transaction
    exact .bind (.lift fun _ h => verifyMined_err P env h) fun _ =>
      registryCall_raises fun _ => RegistryV102.privileged_raises RegistryV102.write_raises
  refine .bind (.within (.modify _)) fun _ => ?_
  refine .bind (.within (.fold (fun _ _ _ => rfl) (validateSignatureIter_raises P env) _ _))
    fun _ => ?_
  refine .bind (registryCall_raises fun _ =>
    RegistryV102.privileged_raises RegistryV102.write_raises) fun _ => ?_
  -- the writes that are passed on to the first registry
  have hforward : ∀ c : Principal → Call RegistryV101.State Bool,
      (∀ self, (c self).RaisesOnly OtherError) → ∀ sender,
        (RegistryV102.privileged sender (RegistryV102.onV101 c)).RaisesOnly OtherError :=
    fun c hc sender => RegistryV102.privileged_raises (.within (hc _))
  refine .bind (.whenever (registryCall_raises (hforward _ fun _ =>
    RegistryV101.privileged_raises))) fun _ => ?_
  refine .bind (.whenever (registryCall_raises (hforward _ fun _ =>
    RegistryV101.privileged_raises))) fun _ => ?_
  exact .bind (registryCall_raises (hforward _ fun _ => RegistryV101.privileged_raises))
    fun _ => .pure _

/-- **A submission fails with `ERR-UKNOWN-RELAYER` only when nothing is stored for
its sender.** -/
theorem indexTxMany_unknown {w w' : World} {sender : Principal} {txMany : TxMany}
    (h : indexTxMany P env sender txMany w = (.err errUknownRelayer, w')) :
    ¬ (w.oracle.approvedRelayers sender).isSome = true := by
  obtain ⟨⟨w'', hbody⟩, -⟩ := Call.transaction_eq_err.mp h
  rcases Call.bind_eq_err.mp hbody with hview | ⟨_, _, hview, hchecks⟩
  · cases hview
  obtain ⟨rfl, rfl⟩ := Call.view_eq_ok.mp hview
  rcases Call.bind_eq_err.mp hchecks with hpaused | ⟨_, _, hpaused, hadmit⟩
  · exact absurd (Result.asserts_eq_err.mp (Call.lift_eq_err.mp hpaused).1).2 (by decide)
  obtain ⟨-, rfl⟩ := Call.lift_eq_ok.mp hpaused
  rcases Call.bind_eq_err.mp hadmit with hrelayer | ⟨_, _, -, hfold⟩
  · exact (Result.asserts_eq_err.mp (Call.lift_eq_err.mp hrelayer).1).1
  · exact absurd rfl (Call.RaisesOnly.fold (fun _ _ _ => rfl) (indexTxIter_raises P env)
      txMany.elements true _ _ _ hfold)

end Oracle

namespace World

/-- Something is stored for `relayer`. -/
def Admitted (relayer : Principal) (w : World) : Prop :=
  (w.oracle.approvedRelayers relayer).isSome = true

theorem governed_admitted {s s' : State} {call : GovernanceCall} {relayer : Principal}
    (h : Governed s call s') (hs : (s.approvedRelayers relayer).isSome = true) :
    (s'.approvedRelayers relayer).isSome = true := by
  cases h with
  | approveRelayer other approved => exact DataMap.set_isSome_mono hs
  | setPaused paused => exact hs
  | addValidator hnew => exact hs
  | removeValidator hold => exact hs
  | setRequiredValidators hlt => exact hs
  | setContractOwner owner => exact hs

/-- What is stored for a principal stays stored. -/
theorem admitted_run {relayer : Principal} {w : World} (h : Admitted relayer w)
    (ts : List Transaction) : Admitted relayer ((deployment P).run w ts) := by
  refine (deployment P).run_of_step (Admitted relayer) ?_ h ts
  intro w t hw
  have hstep := step_next P w t
  generalize (deployment P).next w t = w', (deployment P).log w t = new at hstep ⊢
  cases hstep with
  | refused => exact hw
  | indexed hcall hpaused hrelayer haccepts =>
      unfold Admitted
      rw [indexAll_approvedRelayers]
      exact hw
  | governed hcall howner h => exact governed_admitted h hw
  | registry h => exact hw
  | mock => exact hw

/-- `approve-relayer` stores something, whatever it is called with. -/
theorem admitted_next {w : World} {t : Transaction} {relayer : Principal} {approved : Bool}
    {a : Answer} (hcall : t.call = .oracle (.approveRelayer relayer approved))
    (hok : answer P w t = .ok a) : Admitted relayer ((deployment P).next w t) := by
  obtain ⟨env, sender, call⟩ := t
  subst hcall
  obtain ⟨s', hs', hw'⟩ := onOracle_eq_ok.mp (exec_eq P hok)
  obtain ⟨-, hgoverned⟩ := govern_eq_ok hs'
  rw [hw']
  cases hgoverned
  show (DataMap.set _ relayer approved relayer).isSome = true
  rw [DataMap.set_self]
  rfl

/-- **Revoking a relayer never takes effect.**  After the owner's
`approve-relayer p false` has succeeded, no submission by `p` is refused with
`ERR-UKNOWN-RELAYER`, whatever happens in between and whatever the batch. -/
theorem revoked_relayer_not_refused {w : World} {t : Transaction} {relayer : Principal}
    {a : Answer} (hcall : t.call = .oracle (.approveRelayer relayer false))
    (hok : answer P w t = .ok a) (ts : List Transaction) (env : Env) (txMany : TxMany) :
    answer P ((deployment P).run ((deployment P).next w t) ts)
      ⟨env, relayer, .indexTxMany txMany⟩ ≠ .err errUknownRelayer := by
  intro herr
  rcases Call.bind_eq_err.mp (exec_eq P herr) with hmany | ⟨_, _, -, hpure⟩
  · exact indexTxMany_unknown P env hmany (admitted_run P (admitted_next P hcall hok) ts)
  · cases hpure

section Sample
open Sample

/-- The owner revokes the relayer. -/
def revoke : Transaction := ⟨testnet, deployer, .oracle (.approveRelayer relayer false)⟩

/-- The owner revokes the relayer of the sample deployment, and the relayer still
gets a batch indexed. -/
theorem revoked_relayer_accepted :
    answer primitives ((deployment primitives).run (deployed deployer) (setup testnet)) revoke =
        .ok (.bool true) ∧
      answer primitives
          ((deployment primitives).run (deployed deployer) (setup testnet ++ [revoke]))
          (submit testnet ⟨[transferAB], by decide⟩) = .ok (.bool true) := by
  decide +kernel

theorem revoked_relayer_not_refused_sample :
    answer primitives ((deployment primitives).run ((deployment primitives).next
        ((deployment primitives).run (deployed deployer) (setup testnet)) revoke) [])
        ⟨testnet, relayer, .indexTxMany ⟨[transferAB], by decide⟩⟩ ≠ .err errUknownRelayer := by
  have hok : answer primitives ((deployment primitives).run (deployed deployer) (setup testnet))
      revoke = .ok (.bool true) := rfl
  exact revoked_relayer_not_refused primitives rfl hok [] testnet _

end Sample

end World
end BitcoinOracle
