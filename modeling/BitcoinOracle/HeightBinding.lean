import BitcoinOracle.BalanceOrder
import BitcoinOracle.MinedRecords

/-! # The heights of balances

The height of an element is not signed.  It is checked when the Bitcoin transaction
is met for the first time, and then recorded; but from then on `index-tx-iter` skips
the check and never reads the record: it writes balances with whatever height the
relayer submits.

Where every element that raises a balance carries the height recorded for its
Bitcoin transaction, if there is one (`KeepsHeight`), every balance is of a recorded
height, and every recorded height was verified (`height_bound`).
-/
namespace BitcoinOracle
open Clarity Oracle

/-- The element is of a greater height than the balance of its sender or of its
receiver. -/
def SignedTx.Raises (e : SignedTx) (r : Registries) : Prop :=
  ∃ key b, e.Carries key b ∧ (r.balance key).upToBlock < e.block.height

/-- An element leaves an entry as it is, or replaces it by a balance of a greater
height. -/
theorem Registries.userBalance_index_cases (r : Registries) (e : SignedTx) (key : UserTick) :
    (r.index e).v101.userBalance key = r.v101.userBalance key ∨
      ∃ b, e.Carries key b ∧ (r.balance key).upToBlock < e.block.height ∧
        (r.index e).v101.userBalance key = some b := by
  rw [userBalance_index]
  cases hoffer : e.offer key with
  | none => exact Or.inl rfl
  | some b =>
      have hcarries := SignedTx.carries_of_offer hoffer
      rw [Option.toList_some, LatestWins.settle_cons, LatestWins.settle_nil, LatestWins.absorb]
      by_cases hlt : LatestWins.cellTime UserBalance.time (r.v101.userBalance key) < b.time
      · rw [if_pos hlt]
        refine Or.inr ⟨b, hcarries, ?_, rfl⟩
        rw [← hcarries.height]
        rwa [← r.balance_time key] at hlt
      · rw [if_neg hlt]
        exact Or.inl rfl

namespace World
variable (P : Primitives)

/-- Every element the transaction gets indexed and that raises a balance carries the
height recorded for its Bitcoin transaction at that moment, if there is one. -/
def KeepsHeight (w : World) (t : Transaction) : Prop :=
  ∀ before e after, accepted P w t = before ++ e :: after →
    e.Raises (indexAll P w before).registries → ∀ height,
      (indexAll P w before).registries.mined e.tx.bitcoinTx = some height →
        e.block.height = height

/-- Every balance is of the height recorded for an indexed element that names the user. -/
def HeightsBound (es : List SignedTx) (r : Registries) : Prop :=
  ∀ key b, r.v101.userBalance key = some b →
    ∃ e ∈ es, (∃ b', e.Carries key b') ∧ r.mined e.tx.bitcoinTx = some b.upToBlock ∧
      (r.indexed e.tx.key).isSome = true

variable {P}

theorem HeightsBound.of_sameRecords {es : List SignedTx} {r r' : Registries}
    (h : HeightsBound es r) (hsame : r.SameRecords r') : HeightsBound es r' := by
  intro key b hb
  rw [hsame.userBalance] at hb
  obtain ⟨e, he, hcarries, hmined, hindexed⟩ := h key b hb
  refine ⟨e, he, hcarries, ?_, ?_⟩
  · rw [hsame.mined]
    exact hmined
  · rw [hsame.indexed]
    exact hindexed

/-- An accepted element that carries the recorded height, if it raises a balance. -/
theorem HeightsBound.index {es : List SignedTx} {r : Registries} {e : SignedTx}
    (h : HeightsBound es r) (hkeeps : e.Raises r → ∀ height,
      r.mined e.tx.bitcoinTx = some height → e.block.height = height) :
    HeightsBound (es ++ [e]) (r.index e) := by
  intro key b hb
  rcases r.userBalance_index_cases e key with hold | ⟨b', hcarries, hlt, hnew⟩
  · -- the entry is as before
    rw [hold] at hb
    obtain ⟨e', he', hcarries, hmined, hindexed⟩ := h key b hb
    exact ⟨e', List.mem_append_left _ he', hcarries,
      Registries.mined_index_of_some _ _ hmined,
      (Registries.isSome_indexed_index _ _).mpr (Or.inr hindexed)⟩
  · -- the entry is the element's
    obtain rfl : b' = b := Option.some.inj (hnew.symm.trans hb)
    have hown : (r.index e).mined e.tx.bitcoinTx = some e.block.height := by
      rw [Registries.mined_index, if_pos rfl]
      cases hmined : r.mined e.tx.bitcoinTx with
      | none => rfl
      | some height =>
          rw [hkeeps ⟨key, b', hcarries, hlt⟩ height hmined]
          rfl
    refine ⟨e, List.mem_append_right _ (List.mem_singleton_self e), ⟨b', hcarries⟩, ?_,
      (Registries.isSome_indexed_index _ _).mpr (Or.inl rfl)⟩
    rw [hcarries.height]
    exact hown

variable (P)

/-- **Height binding, where the recorded height is kept.**  In a run from empty
registries in which nobody writes to them past the oracle and every indexed element
that raises a balance carries the height recorded for its Bitcoin transaction, if
there is one, every balance is of the height recorded for an indexed Bitcoin
transaction whose event moves the tick from or to the user, and a call of the run
verified that transaction as mined at that height. -/
theorem height_bound {w₀ : World} {ts : List Transaction}
    (hbalances : w₀.registries.v101.userBalance = .empty) (hrecords : w₀.registries.NoRecords)
    (hdirect : ∀ t ∈ ts, ¬ t.call.IsDirectWrite)
    (hkeeps : (deployment P).Along (KeepsHeight P) w₀ ts) (key : UserTick) (b : UserBalance)
    (hb : ((deployment P).run w₀ ts).registries.v101.userBalance key = some b) :
    ∃ e ∈ (deployment P).history w₀ ts, e.tx.tick = key.tick ∧
      (e.tx.fromUser = key.user ∨ e.tx.toUser = key.user) ∧
      RegistryV102.getBitcoinTxMinedOrFail ((deployment P).run w₀ ts).registries
        e.tx.bitcoinTx = .ok b.upToBlock ∧
      (∃ record, RegistryV102.getBitcoinTxIndexedOrFail ((deployment P).run w₀ ts).registries
        e.tx.bitcoinTx e.tx.output e.tx.offset = .ok record) ∧
      ∃ t ∈ ts, ∃ mock block proof, block.height = b.upToBlock ∧
        verifyMined P t.env mock e.tx.bitcoinTx block proof = .ok true := by
  have hstart : HeightsBound [] w₀.registries := by
    intro key b hb
    rw [hbalances] at hb
    cases hb
  have hrun : HeightsBound ((deployment P).history w₀ ts)
      ((deployment P).run w₀ ts).registries :=
    records_run HeightsBound (fun _ _ _ hsame h => h.of_sameRecords hsame)
      (fun _ _ _ before e after hkeep hlog _ h => h.index (hkeep before e after hlog))
      hdirect hkeeps hstart
  have hverified := recordsVerified_run P hrecords hdirect
  obtain ⟨e, he, ⟨b', hcarries⟩, hmined, hindexed⟩ := hrun key b hb
  obtain ⟨record, hrecord⟩ := Option.isSome_iff_exists.mp hindexed
  refine ⟨e, he, ?_, ?_, ?_, ⟨record, ?_⟩, hverified.heights _ _ hmined⟩
  · rcases hcarries with ⟨rfl, -⟩ | ⟨rfl, -⟩
    · rfl
    · rfl
  · rcases hcarries with ⟨rfl, -⟩ | ⟨rfl, -⟩
    · exact Or.inl rfl
    · exact Or.inr rfl
  · rw [RegistryV102.getBitcoinTxMinedOrFail_eq, Result.unwrap_eq_ok]
    exact hmined
  · rw [RegistryV102.getBitcoinTxIndexedOrFail_eq, Result.unwrap_eq_ok]
    exact hrecord

section Sample
open Sample

/-- Two events of one Bitcoin transaction, in one batch. -/
def misplaced : List Transaction :=
  setup mainnet ++ [submit mainnet ⟨[minedAB, misplacedBA], by decide⟩]

/-- The relayer has the second event stored at a height that is recorded for no Bitcoin
transaction: the one of the event was verified and recorded at another height with the
first event, so that neither header nor proof is looked at. -/
theorem misplaced_height_stored :
    ((deployment primitives).run (deployed deployer)
        misplaced).registries.v101.userBalance ⟨alice, misplacedBA.tx.tick⟩ = some ⟨97, 900000⟩ ∧
      (∀ tx, RegistryV102.getBitcoinTxMinedOrFail
        ((deployment primitives).run (deployed deployer) misplaced).registries tx ≠ .ok 900000) ∧
      ∀ t ∈ misplaced, t.env.chainId = 1 ∧ ¬ t.call.IsDirectWrite := by
  have hok : answer primitives ((deployment primitives).run (deployed deployer) (setup mainnet))
      (submit mainnet ⟨[minedAB, misplacedBA], by decide⟩) = .ok (.bool true) := by
    decide +kernel
  have hdirect : ∀ t ∈ misplaced, ¬ t.call.IsDirectWrite := by decide
  refine ⟨?_, fun tx hmined => ?_, by decide⟩
  · rw [userBalance_run primitives hdirect, misplaced,
      history_append_of_answer primitives rfl hok, history_setup]
    decide
  rw [RegistryV102.getBitcoinTxMinedOrFail_eq, Result.unwrap_eq_ok] at hmined
  have hrecords : RecordsVerified primitives misplaced
      ((deployment primitives).run (deployed deployer) misplaced).registries :=
    recordsVerified_run primitives ⟨rfl, rfl, rfl, rfl⟩ (by decide)
  exact not_verifiedAt_of_no_header (by decide) (hrecords.heights tx 900000 hmined)

def onwardSignatureBC : Buff 65 :=
  signature 0xc4d9afe79f7149423a72b03a13ce53a4fd2328c98dac737518b895108041c55d
    0x7eaaeebc9725419836fce6fcde00071899b0436a5bd44729f9054caa43f15384 1

/-- Bob passes 2 on to Carol in the same Bitcoin transaction, at its own height. -/
def onwardBC : SignedTx where
  tx := ⟨bitcoinTxA, 0, 1, transferAB.tx.tick, 2, bob, carol, 3, 2, 18⟩
  block := ⟨transferAB.block.header, 800000⟩
  proof := transferAB.proof
  signaturePacks := [guardianPack
    0xd416f547e7cad0ecec54c4666c2dae8a95a218de0f7ab232f807e3dcbd2621da onwardSignatureBC]
  signaturePacks_length := by decide

/-- Signature recovery for that message too. -/
def onwardPrimitives : Primitives := Sha256.primitives fun message signature =>
  if message = bytesBe 32 0x5d75437669bc114130a8d33cb057e973cee76f24bdc95850d8ac1fb0080b850f ∧
      signature = onwardSignatureBC.bytes then .ok guardianKey.bytes
  else recover message signature

/-- Both events, at the height of their Bitcoin transaction. -/
def onward : List Transaction :=
  setup mainnet ++ [submit mainnet ⟨[minedAB, onwardBC], by decide⟩]

/-- What is recorded for a Bitcoin transaction, when all elements are of one height. -/
theorem mined_indexAll {w : World} {es : List SignedTx} {height : Uint}
    (hes : ∀ e ∈ es, e.block.height = height) {tx : Buff 8192}
    (hmined : ∀ n, w.registries.mined tx = some n → n = height) :
    ∀ n, (indexAll P w es).registries.mined tx = some n → n = height := by
  induction es generalizing w with
  | nil => exact hmined
  | cons e es ih =>
      rw [Oracle.indexAll_cons]
      refine ih (fun e' he' => hes e' (List.mem_cons_of_mem e he')) fun n hn => ?_
      change (w.registries.index e).mined tx = some n at hn
      rw [Registries.mined_index] at hn
      split at hn
      · obtain rfl := Option.some.inj hn
        cases hold : w.registries.mined tx with
        | none => exact hes e List.mem_cons_self
        | some height' => exact hmined height' hold
      · exact hmined n hn

/-- A batch of one height, which is the recorded one if there is one. -/
theorem keepsHeight_of_call {w : World} {t : Transaction} (height : Uint)
    (h : ∀ txMany, t.call = .indexTxMany txMany → ∀ e ∈ txMany.elements, e.block.height = height ∧
      ∀ n, w.registries.mined e.tx.bitcoinTx = some n → n = height) :
    KeepsHeight P w t := by
  intro before e after hlog hraises n hn
  rcases accepted_eq_or P w t with hempty | ⟨txMany, hcall, helements⟩
  · rw [hempty] at hlog
    cases before <;> cases hlog
  · rw [helements] at hlog
    have hmem : ∀ e' ∈ before ++ [e], e' ∈ txMany.elements := by
      intro e' he'
      rw [hlog]
      simp only [List.mem_append, List.mem_cons, List.not_mem_nil, or_false] at he' ⊢
      tauto
    obtain ⟨heheight, hold⟩ := h txMany hcall e (hmem e (by simp))
    have hbefore : ∀ e' ∈ before, e'.block.height = height := fun e' he' =>
      (h txMany hcall e' (hmem e' (List.mem_append_left _ he'))).1
    rw [heheight, mined_indexAll P hbefore hold n hn]

theorem keepsHeight_onward :
    (deployment onwardPrimitives).Along (KeepsHeight onwardPrimitives) (deployed deployer)
      onward := by
  refine Machine.along_append.mpr ⟨Machine.along_of_forall fun t ht w => ?_, ?_, trivial⟩
  · simp only [setup, List.mem_cons, List.not_mem_nil, or_false] at ht
    rcases ht with rfl | rfl | rfl | rfl | rfl | rfl | rfl | rfl
    all_goals exact keepsHeight_of_call _ 0 nofun
  · refine keepsHeight_of_call _ 800000 fun txMany hcall e he => ?_
    cases hcall
    simp only [List.mem_cons, List.not_mem_nil, or_false] at he
    rcases he with rfl | rfl
    · exact ⟨rfl, nofun⟩
    · exact ⟨rfl, nofun⟩

/-- There, Carol's balance is of the height at which the transaction was mined. -/
theorem height_bound_onward :
    ∃ e ∈ (deployment onwardPrimitives).history (deployed deployer) onward,
      e.tx.tick = onwardBC.tx.tick ∧ (e.tx.fromUser = carol ∨ e.tx.toUser = carol) ∧
      RegistryV102.getBitcoinTxMinedOrFail
        ((deployment onwardPrimitives).run (deployed deployer) onward).registries
        e.tx.bitcoinTx = .ok 800000 := by
  have hok : answer onwardPrimitives
      ((deployment onwardPrimitives).run (deployed deployer) (setup mainnet))
      (submit mainnet ⟨[minedAB, onwardBC], by decide⟩) = .ok (.bool true) := by
    decide +kernel
  have hcarol : ((deployment onwardPrimitives).run (deployed deployer)
      onward).registries.v101.userBalance ⟨carol, onwardBC.tx.tick⟩ = some ⟨2, 800000⟩ := by
    rw [userBalance_run onwardPrimitives (by decide), onward,
      history_append_of_answer onwardPrimitives rfl hok]
    decide
  obtain ⟨e, he, htick, huser, hmined, -⟩ := height_bound onwardPrimitives rfl
    ⟨rfl, rfl, rfl, rfl⟩ (by decide) keepsHeight_onward _ _ hcarol
  exact ⟨e, he, htick, huser, hmined⟩

end Sample

end World
end BitcoinOracle
