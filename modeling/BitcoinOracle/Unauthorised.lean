import BitcoinOracle.World

/-! # Callers without rights

A principal that owns none of the three contracts, is no approved operator and for
which nothing is stored as a relayer (`World.Unauthorised`) is refused by every
public function of the oracle and of both registries.  What such a principal can
still do is write the header map of the Bitcoin contract, which takes writes from
anyone; on the main chain nothing reads that map.
-/
namespace BitcoinOracle
open Clarity Registry

/-! ## Refusals -/

/-- The call answers with an error, and changes nothing. -/
def Refuses {σ α : Type} (c : Call σ α) (s : σ) : Prop := ∃ e, c s = (.err e, s)

namespace Refuses
variable {σ τ α β : Type} {s : σ}

theorem transaction {c : Call σ α} (h : ∃ e s', c s = (.err e, s')) : Refuses (.transaction c) s := by
  obtain ⟨e, s', hc⟩ := h
  exact ⟨e, Call.transaction_eq_err.mpr ⟨⟨s', hc⟩, rfl⟩⟩

theorem within {get : σ → τ} {set : τ → σ → σ} {c : Call τ α} (hset : set (get s) s = s)
    (h : Refuses c (get s)) : Refuses (.within get set c) s := by
  obtain ⟨e, hc⟩ := h
  exact ⟨e, Call.within_eq_err.mpr ⟨get s, hc, hset.symm⟩⟩

theorem answering {f : α → Answer} {c : Call σ α} (h : Refuses c s) :
    Refuses (answering f c) s := by
  obtain ⟨e, hc⟩ := h
  exact ⟨e, Call.bind_eq_err.mpr (Or.inl hc)⟩

end Refuses

variable {p : Principal}

namespace RegistryV101
variable {s : State}

theorem checkIsOwner_refuses (h : s.contractOwner ≠ p) :
    checkIsOwner p s = (.err errNotAuthorized, s) :=
  Call.bind_eq_err.mpr (Or.inr ⟨s, s, rfl,
    Call.lift_eq_err.mpr ⟨Result.asserts_eq_err.mpr ⟨h, rfl⟩, rfl⟩⟩)

theorem checkIsApproved_refuses (howner : s.contractOwner ≠ p)
    (hoperator : getApprovedOperatorOrDefault s p = false) :
    checkIsApproved p s = (.err errNotAuthorized, s) := by
  have hno : ¬ (getApprovedOperatorOrDefault s p = true ∨ s.contractOwner = p) := by
    rintro (h | h)
    · rw [hoperator] at h
      cases h
    · exact howner h
  exact Call.bind_eq_err.mpr (Or.inr ⟨s, s, rfl,
    Call.lift_eq_err.mpr ⟨Result.asserts_eq_err.mpr ⟨hno, rfl⟩, rfl⟩⟩)

theorem governed_refuses (h : s.contractOwner ≠ p) (f : State → State) :
    Refuses (governed p f) s :=
  .transaction ⟨_, _, Call.bind_eq_err.mpr (Or.inl (checkIsOwner_refuses h))⟩

theorem privileged_refuses (howner : s.contractOwner ≠ p)
    (hoperator : getApprovedOperatorOrDefault s p = false) (f : State → State) :
    Refuses (privileged p f) s :=
  .transaction ⟨_, _, Call.bind_eq_err.mpr (Or.inl (checkIsApproved_refuses howner hoperator))⟩

theorem govern_refuses (h : s.contractOwner ≠ p) (call : GovernanceCall) :
    Refuses (govern p call) s := by
  cases call with
  | setPaused paused => exact governed_refuses h _
  | approveOperator operator approved => exact governed_refuses h _
  | setContractOwner owner => exact governed_refuses h _

theorem writeDirect_refuses (howner : s.contractOwner ≠ p)
    (hoperator : getApprovedOperatorOrDefault s p = false) (call : RegistryWrite 4096) :
    Refuses (writeDirect p call) s := by
  cases call with
  | setTickDecimals tick decimals => exact privileged_refuses howner hoperator _
  | setUserBalance key value => exact privileged_refuses howner hoperator _
  | setTxMined key value => exact privileged_refuses howner hoperator _
  | setTxIndexed key value => exact privileged_refuses howner hoperator _

end RegistryV101

namespace RegistryV102
variable {r : Registries}

theorem checkIsOwner_refuses (h : r.v102.contractOwner ≠ p) :
    checkIsOwner p r = (.err errNotAuthorized, r) :=
  Call.bind_eq_err.mpr (Or.inr ⟨r, r, rfl,
    Call.lift_eq_err.mpr ⟨Result.asserts_eq_err.mpr ⟨h, rfl⟩, rfl⟩⟩)

theorem checkIsApproved_refuses (howner : r.v102.contractOwner ≠ p)
    (hoperator : getApprovedOperatorOrDefault r p = false) :
    checkIsApproved p r = (.err errNotAuthorized, r) := by
  have hno : ¬ (getApprovedOperatorOrDefault r p = true ∨ r.v102.contractOwner = p) := by
    rintro (h | h)
    · rw [hoperator] at h
      cases h
    · exact howner h
  exact Call.bind_eq_err.mpr (Or.inr ⟨r, r, rfl,
    Call.lift_eq_err.mpr ⟨Result.asserts_eq_err.mpr ⟨hno, rfl⟩, rfl⟩⟩)

theorem governed_refuses (h : r.v102.contractOwner ≠ p) (body : Call Registries Bool) :
    Refuses (governed p body) r :=
  .transaction ⟨_, _, Call.bind_eq_err.mpr (Or.inl (checkIsOwner_refuses h))⟩

theorem privileged_refuses (howner : r.v102.contractOwner ≠ p)
    (hoperator : getApprovedOperatorOrDefault r p = false) (body : Call Registries Bool) :
    Refuses (privileged p body) r :=
  .transaction ⟨_, _, Call.bind_eq_err.mpr (Or.inl (checkIsApproved_refuses howner hoperator))⟩

theorem govern_refuses (h : r.v102.contractOwner ≠ p) (call : GovernanceCall) :
    Refuses (govern p call) r := by
  cases call with
  | setPaused paused => exact governed_refuses h _
  | approveOperator operator approved => exact governed_refuses h _
  | setContractOwner owner => exact governed_refuses h _
  | setPausedLegacy paused => exact governed_refuses h _
  | setContractOwnerLegacy owner => exact governed_refuses h _

theorem writeDirect_refuses (howner : r.v102.contractOwner ≠ p)
    (hoperator : getApprovedOperatorOrDefault r p = false) (call : RegistryWrite 8192) :
    Refuses (writeDirect p call) r := by
  cases call with
  | setTickDecimals tick decimals => exact privileged_refuses howner hoperator _
  | setUserBalance key value => exact privileged_refuses howner hoperator _
  | setTxMined key value => exact privileged_refuses howner hoperator _
  | setTxIndexed key value => exact privileged_refuses howner hoperator _

end RegistryV102

namespace Oracle

theorem checkIsOwner_refuses {s : State} (h : s.contractOwner ≠ p) :
    checkIsOwner p s = (.err errNotAuthorized, s) :=
  Call.bind_eq_err.mpr (Or.inr ⟨s, s, rfl,
    Call.lift_eq_err.mpr ⟨Result.asserts_eq_err.mpr ⟨h, rfl⟩, rfl⟩⟩)

theorem govern_refuses {s : State} (h : s.contractOwner ≠ p) (call : GovernanceCall) :
    Refuses (govern p call) s := by
  have hbody : ∀ {α : Type} (f : Unit → Call State α),
      Refuses (.transaction (checkIsOwner p >>= f)) s := fun f =>
    .transaction ⟨_, _, Call.bind_eq_err.mpr (Or.inl (checkIsOwner_refuses h))⟩
  cases call with
  | setPaused paused => exact .answering (hbody _)
  | addValidator pubkey validator => exact .answering (hbody _)
  | removeValidator validator => exact .answering (hbody _)
  | approveRelayer relayer approved => exact .answering (hbody _)
  | setRequiredValidators n => exact .answering (hbody _)
  | setContractOwner owner => exact .answering (hbody _)

theorem onOracle_refuses {α : Type} {c : Call State α} {w : World} (h : Refuses c w.oracle) :
    Refuses (onOracle c) w := by
  unfold onOracle
  exact .within rfl h

theorem indexTxMany_refuses (P : Primitives) (env : Env) {w : World}
    (h : w.oracle.approvedRelayers p = none) (txMany : TxMany) :
    Refuses (indexTxMany P env p txMany) w := by
  apply Refuses.transaction
  by_cases hpaused : w.oracle.isPaused = true
  · refine ⟨errPaused, w, Call.bind_eq_err.mpr (Or.inr ⟨w, w, rfl, ?_⟩)⟩
    exact Call.bind_eq_err.mpr (Or.inl (Call.lift_eq_err.mpr
      ⟨Result.asserts_eq_err.mpr ⟨not_not_intro hpaused, rfl⟩, rfl⟩))
  · have hrelayer : ¬ (w.oracle.approvedRelayers p).isSome = true := by
      rw [h]
      exact Bool.false_ne_true
    refine ⟨errUknownRelayer, w, Call.bind_eq_err.mpr (Or.inr ⟨w, w, rfl, ?_⟩)⟩
    refine Call.bind_eq_err.mpr (Or.inr ⟨(), w,
      Call.lift_eq_ok.mpr ⟨Result.asserts_eq_ok.mpr hpaused, rfl⟩, ?_⟩)
    exact Call.bind_eq_err.mpr (Or.inl (Call.lift_eq_err.mpr
      ⟨Result.asserts_eq_err.mpr ⟨hrelayer, rfl⟩, rfl⟩))

end Oracle

/-! ## Unauthorised principals -/

/-- A call of the Bitcoin contract, whose only public function is the header mock. -/
def PublicCall.OnBitcoin : PublicCall → Prop
  | .mockAddBurnchainBlockHeaderHash _ _ => True
  | _ => False

namespace World

/-- `p` owns none of the contracts, is no approved operator, and nothing is stored
for it as a relayer. -/
structure Unauthorised (p : Principal) (w : World) : Prop where
  oracle : w.oracle.contractOwner ≠ p
  registryV101 : w.registries.v101.contractOwner ≠ p
  registryV102 : w.registries.v102.contractOwner ≠ p
  operator : RegistryV101.getApprovedOperatorOrDefault w.registries.v101 p = false
  relayer : w.oracle.approvedRelayers p = none

variable (P : Primitives)

theorem Unauthorised.refuses {w : World} {t : Transaction} (h : w.Unauthorised t.sender)
    (hcall : ¬ t.call.OnBitcoin) : Refuses (exec P t) w := by
  obtain ⟨env, sender, call⟩ := t
  cases call with
  | indexTxMany txMany => exact .answering (Oracle.indexTxMany_refuses P env h.relayer txMany)
  | oracle call => exact Oracle.onOracle_refuses (Oracle.govern_refuses h.oracle call)
  | registryV101 call =>
      exact .answering (.within rfl (RegistryV101.govern_refuses h.registryV101 call))
  | registryV102 call =>
      exact .answering (.within rfl (RegistryV102.govern_refuses h.registryV102 call))
  | writeV101 call =>
      exact .answering (.within rfl
        (RegistryV101.writeDirect_refuses h.registryV101 h.operator call))
  | writeV102 call =>
      exact .answering (.within rfl
        (RegistryV102.writeDirect_refuses h.registryV102 h.operator call))
  | mockAddBurnchainBlockHeaderHash burnHeight hash => exact absurd trivial hcall

/-- The owner's `approve-relayer` for `p` does not succeed here. -/
def NotAdmitting (p : Principal) (w : World) (t : Transaction) : Prop :=
  ∀ approved a, t.call = .oracle (.approveRelayer p approved) → answer P w t ≠ .ok a

/-- A principal `approve-relayer` never succeeded for has no entry. -/
theorem not_admitted_run {deployer : Principal} {ts : List Transaction}
    (h : (deployment P).Along (NotAdmitting P p) (deployed deployer) ts) :
    ((deployment P).run (deployed deployer) ts).oracle.approvedRelayers p = none := by
  refine Machine.run_invariant (fun w => w.oracle.approvedRelayers p = none) ?_ h rfl
  intro w t hnot hw
  by_cases hrelayer : ∃ approved, t.call = .oracle (.approveRelayer p approved)
  · -- refused: nothing is written
    obtain ⟨approved, hcall⟩ := hrelayer
    have hsame : (deployment P).next w t = w :=
      exec_atomic P t w fun a => hnot approved a hcall
    rw [hsame]
    exact hw
  · have hstep := step_next P w t
    generalize (deployment P).next w t = w', (deployment P).log w t = new at hstep ⊢
    cases hstep with
    | refused => exact hw
    | indexed hcall hpaused hadmitted haccepts =>
        rw [indexAll_approvedRelayers]
        exact hw
    | @governed call s' hcall howner hgoverned =>
        cases hgoverned with
        | approveRelayer other approved =>
            have hne : p ≠ other := by
              rintro rfl
              exact hrelayer ⟨approved, hcall⟩
            show DataMap.set _ other approved p = none
            rw [DataMap.set_of_ne hne]
            exact hw
        | setPaused paused => exact hw
        | addValidator hnew => exact hw
        | removeValidator hold => exact hw
        | setRequiredValidators hlt => exact hw
        | setContractOwner owner => exact hw
    | registry h => exact hw
    | mock => exact hw

/-- On the main chain the recorded headers are not looked at. -/
theorem verifyMined_mainnet {env : Env} (hmainnet : env.chainId = 1)
    (mock mock' : ClarityBitcoin.MockHeaders) (tx : Buff 8192) (block : ClarityBitcoin.Block)
    (proof : ClarityBitcoin.Proof) :
    Oracle.verifyMined P env mock tx block proof = Oracle.verifyMined P env mock' tx block proof := by
  have hhash : ClarityBitcoin.getBcHHash env mock = ClarityBitcoin.getBcHHash env mock' := by
    funext height
    unfold ClarityBitcoin.getBcHHash
    rw [if_pos hmainnet, if_pos hmainnet]
  unfold Oracle.verifyMined ClarityBitcoin.wasSegwitTxMined ClarityBitcoin.wasTxMined
    ClarityBitcoin.wasMined ClarityBitcoin.verifyBlockHeader
  rw [hhash]

/-- **Callers without rights have no effect.**  In every reachable state a principal
that owns no contract, is no operator and was never given an entry as a relayer gets
an error from every public function of the oracle and the registries, and nothing
changes; what it writes into the header map changes no later `verify-mined` on the
main chain. -/
theorem unauthorised_no_effect (deployer : Principal) (ts : List Transaction) (t : Transaction)
    (hnever : (deployment P).Along (NotAdmitting P t.sender) (deployed deployer) ts)
    (horacle : ((deployment P).run (deployed deployer) ts).oracle.contractOwner ≠ t.sender)
    (hv101 : ((deployment P).run (deployed deployer) ts).registries.v101.contractOwner ≠ t.sender)
    (hv102 : ((deployment P).run (deployed deployer) ts).registries.v102.contractOwner ≠ t.sender)
    (hoperator : RegistryV101.getApprovedOperatorOrDefault
      ((deployment P).run (deployed deployer) ts).registries.v101 t.sender = false) :
    (¬ t.call.OnBitcoin →
      (∃ e, answer P ((deployment P).run (deployed deployer) ts) t = .err e) ∧
        (deployment P).run (deployed deployer) (ts ++ [t]) =
          (deployment P).run (deployed deployer) ts) ∧
    (t.call.OnBitcoin → ∀ (us : List Transaction) (env : Env), env.chainId = 1 →
      ∀ tx block proof,
        Oracle.verifyMined P env
            ((deployment P).run (deployed deployer) (ts ++ t :: us)).mockHeaders tx block proof =
          Oracle.verifyMined P env
            ((deployment P).run (deployed deployer) (ts ++ us)).mockHeaders tx block proof) := by
  have hunauthorised : ((deployment P).run (deployed deployer) ts).Unauthorised t.sender :=
    ⟨horacle, hv101, hv102, hoperator, not_admitted_run P hnever⟩
  constructor
  · intro hcall
    obtain ⟨e, he⟩ := hunauthorised.refuses P hcall
    refine ⟨⟨e, congrArg Prod.fst he⟩, ?_⟩
    rw [Machine.run_append]
    exact congrArg Prod.snd he
  · intro _ us env hmainnet tx block proof
    exact verifyMined_mainnet P hmainnet _ _ tx block proof

open Sample in
/-- A guardian tries to raise a balance. -/
theorem unauthorised_no_effect_guardian :
    (∃ e, answer primitives
        ((deployment primitives).run (deployed deployer) (setup testnet))
        ⟨testnet, guardian, .writeV101 (.setUserBalance ⟨alice, ⟨['o'], by decide⟩⟩ ⟨7, 7⟩)⟩ =
          .err e) ∧
      (deployment primitives).run (deployed deployer) (setup testnet ++
          [⟨testnet, guardian, .writeV101 (.setUserBalance ⟨alice, ⟨['o'], by decide⟩⟩ ⟨7, 7⟩)⟩]) =
        (deployment primitives).run (deployed deployer) (setup testnet) := by
  have hnever : (deployment primitives).Along (NotAdmitting primitives guardian)
      (deployed deployer) (setup testnet) := by
    apply Machine.along_of_forall
    intro t ht w approved a hcall
    simp only [setup, List.mem_cons, List.not_mem_nil, or_false] at ht
    rcases ht with rfl | rfl | rfl | rfl | rfl | rfl | rfl | rfl
    all_goals
      simp only [reduceCtorEq, PublicCall.oracle.injEq, Oracle.GovernanceCall.approveRelayer.injEq] at hcall
    exact absurd hcall.1 (by decide)
  exact (unauthorised_no_effect primitives deployer (setup testnet)
    ⟨testnet, guardian, .writeV101 (.setUserBalance ⟨alice, ⟨['o'], by decide⟩⟩ ⟨7, 7⟩)⟩
    hnever (by decide) (by decide) (by decide) (by decide)).1 id

end World
end BitcoinOracle
