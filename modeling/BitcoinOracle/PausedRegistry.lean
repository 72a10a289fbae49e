import BitcoinOracle.OlderOracles
import BitcoinOracle.Unauthorised

/-! # What pausing the second registry freezes

Each registry has a pause flag of its own, and the balances, the decimals and the
records of short transactions that the second registry serves are kept in the first.
A principal approved as an operator is approved in the first registry, so while only
the second one is paused it can still write to the first, and an older oracle does so
for every batch.

Everything else is frozen (`paused_registry_frozen`): the records of Bitcoin
transactions longer than 4096 bytes in any case, and all answers as soon as the first
registry is paused as well or no call writes to it as an approved operator.
-/
namespace BitcoinOracle
open Clarity Registry

/-! ## Calls that leave the registries alone -/

/-- The getters of the second registry answer the same. -/
structure Registries.SameAnswers (r r' : Registries) : Prop where
  userBalance : ∀ user tick, RegistryV102.getUserBalanceOrDefault r' user tick =
    RegistryV102.getUserBalanceOrDefault r user tick
  tickDecimals : ∀ tick, RegistryV102.getTickDecimalsOrDefault r' tick =
    RegistryV102.getTickDecimalsOrDefault r tick
  mined : ∀ tx, RegistryV102.getBitcoinTxMinedOrFail r' tx =
    RegistryV102.getBitcoinTxMinedOrFail r tx
  indexed : ∀ tx output offset, RegistryV102.getBitcoinTxIndexedOrFail r' tx output offset =
    RegistryV102.getBitcoinTxIndexedOrFail r tx output offset

/-- Of a transaction longer than any key of the first registry, the second one answers
from its own maps. -/
theorem RegistryV102.answers_of_long {r r' : Registries} (h : r'.v102 = r.v102) {tx : Buff 8192}
    (hlong : 4096 < tx.bytes.length) :
    getBitcoinTxMinedOrFail r' tx = getBitcoinTxMinedOrFail r tx ∧
      ∀ output offset, getBitcoinTxIndexedOrFail r' tx output offset =
        getBitcoinTxIndexedOrFail r tx output offset := by
  have hkey : tx.asMaxLen 4096 = none := dif_neg (by omega)
  unfold getBitcoinTxMinedOrFail getBitcoinTxIndexedOrFail
  rw [hkey, h]
  exact ⟨rfl, fun _ _ => rfl⟩

theorem Refuses.keeps {σ α : Type} {I : σ → Prop} {c : Call σ α} (h : ∀ s, I s → Refuses c s) :
    c.Keeps I := by
  intro s hs
  obtain ⟨e, hc⟩ := h s hs
  rw [hc]
  exact hs

theorem answering_keeps {σ α : Type} {I : σ → Prop} {f : α → Answer} {c : Call σ α}
    (h : c.Keeps I) : (answering f c).Keeps I :=
  .bind h fun a => .pure (f a)

namespace RegistryV101

theorem privileged_keeps {p : Principal} {I : State → Prop} {f : State → State}
    (hf : ∀ s, I s → I (f s)) : (privileged p f).Keeps I :=
  .transaction (.bind (.bind (.view _) fun _ => .lift _) fun _ => .bind (.view _) fun _ =>
    .bind (.lift _) fun _ => .bind (.modify hf) fun _ => .pure true)

theorem privileged_refuses_of_not_mayWrite {p : Principal} {s : State} (h : ¬ s.MayWrite p)
    (f : State → State) : Refuses (privileged p f) s := by
  by_cases happroved : getApprovedOperatorOrDefault s p = true ∨ s.contractOwner = p
  · -- only the pause stands in the way
    have hpaused : s.isPaused = true := by
      by_contra hrunning
      exact h ⟨happroved, hrunning⟩
    refine .transaction ⟨errPaused, s, Call.bind_eq_err.mpr (Or.inr ⟨(), s, ?_, ?_⟩)⟩
    · exact Call.bind_eq_ok.mpr ⟨s, s, rfl,
        Call.lift_eq_ok.mpr ⟨Result.asserts_eq_ok.mpr happroved, rfl⟩⟩
    · refine Call.bind_eq_err.mpr (Or.inr ⟨s, s, rfl, Call.bind_eq_err.mpr (Or.inl ?_)⟩)
      exact Call.lift_eq_err.mpr ⟨Result.asserts_eq_err.mpr ⟨not_not_intro hpaused, rfl⟩, rfl⟩
  · obtain ⟨hoperator, howner⟩ := not_or.mp happroved
    exact privileged_refuses howner (Bool.eq_false_iff.mpr hoperator) f

end RegistryV101

namespace RegistryV102

theorem privileged_refuses_of_paused {p : Principal} {r : Registries}
    (h : r.v102.isPaused = true) (body : Call Registries Bool) :
    Refuses (privileged p body) r := by
  by_cases happroved : getApprovedOperatorOrDefault r p = true ∨ r.v102.contractOwner = p
  · refine .transaction ⟨errPaused, r, Call.bind_eq_err.mpr (Or.inr ⟨(), r, ?_, ?_⟩)⟩
    · exact Call.bind_eq_ok.mpr ⟨r, r, rfl,
        Call.lift_eq_ok.mpr ⟨Result.asserts_eq_ok.mpr happroved, rfl⟩⟩
    · refine Call.bind_eq_err.mpr (Or.inr ⟨r, r, rfl, Call.bind_eq_err.mpr (Or.inl ?_)⟩)
      exact Call.lift_eq_err.mpr ⟨Result.asserts_eq_err.mpr ⟨not_not_intro h, rfl⟩, rfl⟩
  · obtain ⟨hoperator, howner⟩ := not_or.mp happroved
    exact privileged_refuses howner (Bool.eq_false_iff.mpr hoperator) body

theorem writeDirect_refuses_of_paused {p : Principal} {r : Registries}
    (h : r.v102.isPaused = true) (call : RegistryWrite 8192) : Refuses (writeDirect p call) r := by
  cases call with
  | setTickDecimals tick decimals => exact privileged_refuses_of_paused h _
  | setUserBalance key value => exact privileged_refuses_of_paused h _
  | setTxMined key value => exact privileged_refuses_of_paused h _
  | setTxIndexed key value => exact privileged_refuses_of_paused h _

end RegistryV102

/-- No element is accepted while the second registry is paused. -/
theorem Oracle.indexTxMany_registries_of_paused (P : Primitives) (env : Env) {w : World}
    (h : w.registries.v102.isPaused = true) (sender : Principal) (txMany : TxMany) :
    (indexTxMany P env sender txMany w).2.registries = w.registries := by
  rcases hw : indexTxMany P env sender txMany w with ⟨b | e | x, w'⟩
  · obtain ⟨-, -, haccepts, -, rfl⟩ := (indexTxMany_eq_ok P env).mp hw
    cases helements : txMany.elements with
    | nil => rfl
    | cons e es =>
        rw [helements] at haccepts
        exact absurd h haccepts.1.mayWrite.2
  all_goals
    have hnot : ∀ a, (indexTxMany P env sender txMany w).1 ≠ .ok a := by
      rw [hw]
      nofun
    have hsame : (indexTxMany P env sender txMany w).2 = w := Call.Atomic.transaction _ w hnot
    rw [hw] at hsame
    exact congrArg World.registries hsame

namespace Estate
variable (P : Primitives) (issuer : Buff 21)

/-- The principal as which a call can write to the first registry past the second. -/
def Transaction.writesAs (t : Transaction) : Option Principal :=
  match t.call with
  | .current (.writeV101 _) => some t.sender
  | .indexTxMany version _ _ => some (version.principal issuer)
  | _ => none

theorem Transaction.writesAs_ne {t : Transaction} {p : Principal}
    (h : t.writesAs issuer = some p) : p ≠ .deployed .oracleRegistryV102 := by
  obtain ⟨env, sender, outside, call⟩ := t
  unfold Transaction.writesAs at h
  split at h
  · obtain rfl := Option.some.inj h
    exact outside .oracleRegistryV102
  · next version _ _ _ =>
      obtain rfl := Option.some.inj h
      cases version <;> nofun
  · cases h

/-- The second registry is as in `r`, and `I` holds of the first. -/
def Kept (r : Registries) (I : RegistryV101.State → Prop) (e : Estate) : Prop :=
  e.world.registries.v102 = r.v102 ∧ I e.world.registries.v101

variable {r : Registries} {I : RegistryV101.State → Prop} {t : Transaction}

/-- **While the second registry is paused, a call by anyone but its owner reaches
nothing but the first registry**, and that only as the principal it writes as. -/
theorem exec_keeps (hpaused : r.v102.isPaused = true) (howner : r.v102.contractOwner ≠ t.sender)
    (hI : ∀ s, I s → s.contractOwner = .deployed .oracleRegistryV102)
    (hwrite : ∀ p, t.writesAs issuer = some p → ∀ f : RegistryV101.State → RegistryV101.State,
      (∀ s : RegistryV101.State, s.SameRights (f s)) → (RegistryV101.privileged p f).Keeps I) :
    (exec P issuer t).Keeps (Kept r I) := by
  obtain ⟨env, sender, outside, call⟩ := t
  have honOlder : ∀ {α : Type} (version : OlderOracle) {c : Call OlderOracle.Storage α},
      (c.Keeps fun s => I s.registry) → (onOlder version c).Keeps (Kept r I) := fun version c hc =>
    .within hc (fun _ he => he.2) fun _ _ he hs => ⟨he.1, hs⟩
  cases call with
  | govern version call =>
      exact honOlder version (.within (J := fun _ => True) (fun _ _ => trivial)
        (fun _ _ => trivial) fun _ _ hs _ => hs)
  | indexTxMany version verifyMined txMany =>
      exact answering_keeps (honOlder version
        (OlderOracle.indexTxMany_keeps P env verifyMined (hwrite _ rfl) sender txMany))
  | current call =>
      apply Call.Keeps.within (J := fun w : World => w.registries.v102 = r.v102 ∧ I w.registries.v101)
        ?_ (fun _ he => he) fun _ _ _ hw => hw
      cases call with
      | indexTxMany txMany =>
          apply answering_keeps
          intro w hw
          rw [Oracle.indexTxMany_registries_of_paused P env (by rw [hw.1]; exact hpaused)]
          exact hw
      | oracle call => exact fun w hw => hw
      | registryV101 call =>
          apply Refuses.keeps
          intro w hw
          have hne : w.registries.v101.contractOwner ≠ sender := by
            rw [hI _ hw.2]
            exact (outside .oracleRegistryV102).symm
          exact .answering (.within rfl (RegistryV101.govern_refuses hne call))
      | registryV102 call =>
          apply Refuses.keeps
          intro w hw
          exact .answering (.within rfl (RegistryV102.govern_refuses (by rwa [hw.1]) call))
      | writeV101 call =>
          apply answering_keeps
          refine .within (J := I) ?_ (fun _ hw => hw.2) fun _ _ hw hs => ⟨hw.1, hs⟩
          cases call with
          | setTickDecimals tick decimals => exact hwrite _ rfl _ fun _ => ⟨rfl, rfl, rfl⟩
          | setUserBalance key value => exact hwrite _ rfl _ fun _ => ⟨rfl, rfl, rfl⟩
          | setTxMined key value => exact hwrite _ rfl _ fun _ => ⟨rfl, rfl, rfl⟩
          | setTxIndexed key value => exact hwrite _ rfl _ fun _ => ⟨rfl, rfl, rfl⟩
      | writeV102 call =>
          apply Refuses.keeps
          intro w hw
          exact .answering (.within rfl
            (RegistryV102.writeDirect_refuses_of_paused (by rw [hw.1]; exact hpaused) call))
      | mockAddBurnchainBlockHeaderHash burnHeight hash => exact fun w hw => hw

/-- What no call of the list breaks, the whole list keeps. -/
theorem run_keeps {ts : List Transaction} {e : Estate}
    (h : ∀ t ∈ ts, (exec P issuer t).Keeps (Kept r I)) (he : Kept r I e) :
    Kept r I ((deployment P issuer).run e ts) := by
  induction ts generalizing e with
  | nil => exact he
  | cons t ts ih =>
      exact ih (fun u hu => h u (List.mem_cons_of_mem t hu)) (h t List.mem_cons_self e he)

/-- **What pausing the second registry freezes.**  While it owns the first and is
paused, no sequence of calls by others than its owner changes what it answers about
Bitcoin transactions longer than 4096 bytes; and none changes any of its answers if
the first registry is paused too, or if no call writes to the first registry as an
approved operator. -/
theorem paused_registry_frozen (e : Estate) (ts : List Transaction)
    (howns : e.world.registries.v101.contractOwner = .deployed .oracleRegistryV102)
    (hpaused : e.world.registries.v102.isPaused = true)
    (hsenders : ∀ t ∈ ts, t.sender ≠ e.world.registries.v102.contractOwner) :
    (∀ tx : Buff 8192, 4096 < tx.bytes.length →
      RegistryV102.getBitcoinTxMinedOrFail ((deployment P issuer).run e ts).world.registries tx =
          RegistryV102.getBitcoinTxMinedOrFail e.world.registries tx ∧
        ∀ output offset,
          RegistryV102.getBitcoinTxIndexedOrFail
              ((deployment P issuer).run e ts).world.registries tx output offset =
            RegistryV102.getBitcoinTxIndexedOrFail e.world.registries tx output offset) ∧
    ((e.world.registries.v101.isPaused = true ∨ ∀ t ∈ ts, ∀ p, t.writesAs issuer = some p →
        RegistryV101.getApprovedOperatorOrDefault e.world.registries.v101 p = false) →
      e.world.registries.SameAnswers ((deployment P issuer).run e ts).world.registries) := by
  constructor
  · -- the first registry keeps its owner, so that nobody else can govern it
    have hkept := run_keeps (r := e.world.registries)
      (I := fun s => s.contractOwner = .deployed .oracleRegistryV102) P issuer
      (fun t ht => exec_keeps P issuer hpaused (hsenders t ht).symm (fun _ hs => hs)
        fun p _ f hf => RegistryV101.privileged_keeps fun s hs => (hf s).1.trans hs)
      ⟨rfl, howns⟩
    intro tx hlong
    exact RegistryV102.answers_of_long hkept.1 hlong
  · intro hfrozen
    have hkept := run_keeps (r := e.world.registries) (I := fun s => s = e.world.registries.v101)
      P issuer (fun t ht => exec_keeps P issuer hpaused (hsenders t ht).symm
        (fun s hs => by rw [hs]; exact howns) fun p hp f _ => ?_) ⟨rfl, rfl⟩
    · have hsame : ((deployment P issuer).run e ts).world.registries = e.world.registries := by
        obtain ⟨hv102, hv101⟩ := hkept
        generalize ((deployment P issuer).run e ts).world.registries = r' at hv102 hv101 ⊢
        obtain ⟨v101, v102⟩ := r'
        subst hv101 hv102
        rfl
      rw [hsame]
      exact ⟨fun _ _ => rfl, fun _ => rfl, fun _ => rfl, fun _ _ _ => rfl⟩
    · -- whoever writes past the second registry is refused
      apply Refuses.keeps
      rintro s rfl
      apply RegistryV101.privileged_refuses_of_not_mayWrite
      rintro ⟨happroved, hrunning⟩
      rcases hfrozen with hfirst | hnone
      · exact hrunning hfirst
      · rcases happroved with hoperator | howner
        · rw [hnone t ht p hp] at hoperator
          cases hoperator
        · exact Transaction.writesAs_ne issuer hp (howner.symm.trans howns)

/-! A deployment whose first registry the oracle `oracle-v1-05` still writes to. -/

section Sample
open Sample

theorem deployerAddress_length :
    (bytesBe 21 0x1a6d78de7b0625dfbfc16c3a8a5735f6dc3dc3f2ce).length ≤ 21 := by decide

/-- The address the contracts are deployed under. -/
def deployerAddress : Buff 21 :=
  ⟨bytesBe 21 0x1a6d78de7b0625dfbfc16c3a8a5735f6dc3dc3f2ce, deployerAddress_length⟩

/-- A call of the deployer's. -/
def byDeployer (call : PublicCall) : Transaction := ⟨testnet, deployer, by decide, call⟩

/-- The first registry is handed over to the second, which then is paused. -/
def setupOlder : List Transaction := [
  byDeployer (.current (.registryV101 (.setPaused false))),
  byDeployer (.current (.registryV101 (.setContractOwner (.deployed .oracleRegistryV102)))),
  byDeployer (.current (.registryV102 (.setPaused false))),
  byDeployer (.current (.registryV102 (.approveOperator (.deployed .oracleV105) true))),
  byDeployer (.govern .v105 (.setPaused false)),
  byDeployer (.govern .v105 (.setRequiredValidators 0)),
  byDeployer (.govern .v105 (.approveRelayer relayer true)),
  byDeployer (.current (.registryV102 (.setPaused true)))]

/-- A transfer for the older oracle. -/
def olderTransfer : OlderOracle.SignedTx where
  tx := ⟨⟨bitcoinTxA.bytes, by decide⟩, 0, 0, transferAB.tx.tick, 5, alice, bob, 95, 5, 18⟩
  block := transferAB.block
  proof := transferAB.proof
  signaturePacks := []
  signaturePacks_length := by decide

/-- The relayer submits it to `oracle-v1-05`, off the main chain. -/
def submitOlder : Transaction where
  env := testnet
  sender := relayer
  outside := by decide
  call := .indexTxMany .v105 (fun _ _ _ => .ok true) ⟨[olderTransfer], by decide⟩

/-- The second registry owns the first and is paused, its owner does nothing, and a
balance it serves changes. -/
theorem paused_registry_balance_changed :
    ((deployment primitives deployerAddress).run (deployed deployer)
        setupOlder).world.registries.v101.contractOwner = .deployed .oracleRegistryV102 ∧
      ((deployment primitives deployerAddress).run (deployed deployer)
        setupOlder).world.registries.v102.isPaused = true ∧
      submitOlder.sender ≠ ((deployment primitives deployerAddress).run (deployed deployer)
        setupOlder).world.registries.v102.contractOwner ∧
      RegistryV102.getUserBalanceOrDefault ((deployment primitives deployerAddress).run
        (deployed deployer) setupOlder).world.registries alice olderTransfer.tx.tick = ⟨0, 0⟩ ∧
      RegistryV102.getUserBalanceOrDefault ((deployment primitives deployerAddress).run
        (deployed deployer) (setupOlder ++ [submitOlder])).world.registries alice
        olderTransfer.tx.tick = ⟨95, 100⟩ := by
  decide +kernel

/-- With the first registry paused as well, the same submission changes nothing. -/
theorem paused_registry_frozen_older :
    ((deployment primitives deployerAddress).run (deployed deployer) (setupOlder ++
        [byDeployer (.current (.registryV102 (.setPausedLegacy true)))])).world.registries.SameAnswers
      ((deployment primitives deployerAddress).run ((deployment primitives deployerAddress).run
        (deployed deployer) (setupOlder ++
          [byDeployer (.current (.registryV102 (.setPausedLegacy true)))]))
        [submitOlder]).world.registries := by
  have hsenders : ∀ t ∈ [submitOlder], t.sender ≠ ((deployment primitives deployerAddress).run
      (deployed deployer) (setupOlder ++
        [byDeployer (.current (.registryV102 (.setPausedLegacy true)))])).world.registries.v102.contractOwner := by
    intro t ht
    rw [List.mem_singleton.mp ht]
    decide
  exact (paused_registry_frozen primitives deployerAddress _ [submitOlder] rfl rfl hsenders).2
    (Or.inl rfl)

end Sample

end Estate
end BitcoinOracle
