import BitcoinOracle.World
import BitcoinOracle.LatestWins
import Mathlib.Order.Nat

/-! # Balances

An entry of `user-balance` is a cell in which the latest value wins: the time of a
balance is its `up-to-block`, and an element offers its sender's and its receiver's
balance at the height it carries.  When both are one user, the two guarded writes
look at the same old balance and the receiver's stays (`offer`).

So after a run the entry of a user is what the offers of the accepted elements
settle to (`userBalance_run`), whatever else happened in between, as long as nobody
wrote to a registry past the oracle.
-/
namespace BitcoinOracle
open Clarity

/-- The time of a balance. -/
def UserBalance.time (b : UserBalance) : Nat := b.upToBlock.val

namespace SignedTx

/-- The element carries the balance `b` for `key`, as its sender's or its receiver's. -/
def Carries (e : SignedTx) (key : UserTick) (b : UserBalance) : Prop :=
  e.tx.fromKey = key ∧ e.fromBalance = b ∨ e.tx.toKey = key ∧ e.toBalance = b

/-- The balance the element leaves at `key`, if it is later than what is there. -/
def offer (e : SignedTx) (key : UserTick) : Option UserBalance :=
  if e.tx.toKey = key then some e.toBalance
  else if e.tx.fromKey = key then some e.fromBalance
  else none

theorem carries_of_offer {e : SignedTx} {key : UserTick} {b : UserBalance}
    (h : e.offer key = some b) : e.Carries key b := by
  unfold offer at h
  split at h
  · next hto => exact Or.inr ⟨hto, Option.some.inj h⟩
  · split at h
    · next hfrom => exact Or.inl ⟨hfrom, Option.some.inj h⟩
    · cases h

/-- A user an element names is offered something. -/
theorem exists_offer {e : SignedTx} {key : UserTick} {b : UserBalance} (h : e.Carries key b) :
    ∃ b', e.offer key = some b' := by
  unfold offer
  by_cases hto : e.tx.toKey = key
  · exact ⟨_, if_pos hto⟩
  · rcases h with ⟨hfrom, -⟩ | ⟨hto', -⟩
    · exact ⟨_, by rw [if_neg hto, if_pos hfrom]⟩
    · exact absurd hto' hto

/-- Every balance an element carries is of the height of the element. -/
theorem Carries.height {e : SignedTx} {key : UserTick} {b : UserBalance}
    (h : e.Carries key b) : b.upToBlock = e.block.height := by
  rcases h with ⟨-, rfl⟩ | ⟨-, rfl⟩
  · rfl
  · rfl

end SignedTx

/-- The balances a list of elements offers to a user, in order. -/
def offers (es : List SignedTx) (key : UserTick) : List UserBalance :=
  es.filterMap fun e => e.offer key

theorem offers_append_singleton (es : List SignedTx) (e : SignedTx) (key : UserTick) :
    offers (es ++ [e]) key = offers es key ++ (e.offer key).toList := by
  have hlast : List.filterMap (fun e => e.offer key) [e] = (e.offer key).toList := by
    cases hoffer : e.offer key with
    | none => exact List.filterMap_cons_none hoffer
    | some b => exact List.filterMap_cons_some hoffer
  rw [offers, List.filterMap_append, hlast]
  rfl

theorem mem_offers {es : List SignedTx} {key : UserTick} {b : UserBalance} :
    b ∈ offers es key ↔ ∃ e ∈ es, e.offer key = some b := List.mem_filterMap

/-! ## One element, and a run -/

theorem Registries.balance_time (r : Registries) (key : UserTick) :
    (r.balance key).time =
      LatestWins.cellTime UserBalance.time (r.v101.userBalance key) := by
  obtain ⟨user, tick⟩ := key
  unfold balance RegistryV102.getUserBalanceOrDefault RegistryV101.getUserBalanceOrDefault
  cases r.v101.userBalance ⟨user, tick⟩ with
  | none => rfl
  | some b => rfl

/-- **An accepted element makes its offer to every entry.** -/
theorem userBalance_index (r : Registries) (e : SignedTx) (key : UserTick) :
    (r.index e).v101.userBalance key =
      LatestWins.settle UserBalance.time (r.v101.userBalance key) (e.offer key).toList := by
  have hbase : ((r.recordMined e).setIndexed e.tx.key e.tx.indexed).v101.userBalance =
      r.v101.userBalance := by
    simp [Registries.setIndexed]
  have hguard : ∀ k (b : UserBalance), (r.balance k).upToBlock.val < b.upToBlock.val ↔
      LatestWins.cellTime UserBalance.time (r.v101.userBalance k) < b.time := fun k b => by
    rw [← r.balance_time k]
    rfl
  show ((Registries.raiseBalance _ _ _ _).raiseBalance _ _ _).v101.userBalance key = _
  rw [Registries.raiseBalance_userBalance, Registries.raiseBalance_userBalance, hbase]
  simp only [hguard]
  unfold SignedTx.offer
  by_cases hto : e.tx.toKey = key
  · -- the receiver's balance is written last
    subst hto
    rw [if_pos rfl, Option.toList_some, LatestWins.settle_cons, LatestWins.settle_nil,
      LatestWins.absorb]
    by_cases hlt : LatestWins.cellTime UserBalance.time (r.v101.userBalance e.tx.toKey) <
        e.toBalance.time
    · rw [if_pos hlt, if_pos hlt, DataMap.set_self]
    · rw [if_neg hlt, if_neg hlt]
      by_cases hfrom : e.tx.fromKey = e.tx.toKey
      · have hnot : ¬ LatestWins.cellTime UserBalance.time (r.v101.userBalance e.tx.fromKey) <
            e.fromBalance.time := by
          rw [hfrom]
          exact hlt
        rw [if_neg hnot]
      · split
        · rw [DataMap.set_of_ne fun h => hfrom h.symm]
        · rfl
  · have hkey : key ≠ e.tx.toKey := fun h => hto h.symm
    have hlast : ∀ (p : Prop) [Decidable p] (m : DataMap UserTick UserBalance),
        (if p then m.set e.tx.toKey e.toBalance else m) key = m key := by
      intro p _ m
      split
      · exact DataMap.set_of_ne hkey
      · rfl
    rw [hlast, if_neg hto]
    by_cases hfrom : e.tx.fromKey = key
    · subst hfrom
      rw [if_pos rfl, Option.toList_some, LatestWins.settle_cons, LatestWins.settle_nil,
        LatestWins.absorb]
      split
      · exact DataMap.set_self ..
      · rfl
    · rw [if_neg hfrom]
      split
      · exact DataMap.set_of_ne fun h => hfrom h.symm
      · rfl

namespace World
variable (P : Primitives)

/-- **After a run, an entry is what the offers of the accepted elements settle to.** -/
theorem userBalance_run {w : World} {ts : List Transaction}
    (hdirect : ∀ t ∈ ts, ¬ t.call.IsDirectWrite) (key : UserTick) :
    ((deployment P).run w ts).registries.v101.userBalance key =
      LatestWins.settle UserBalance.time (w.registries.v101.userBalance key)
        (offers ((deployment P).history w ts) key) := by
  have hany : (deployment P).Along (fun _ _ => True) w ts :=
    Machine.along_of_forall fun _ _ _ => trivial
  refine records_run (fun es r => r.v101.userBalance key =
    LatestWins.settle UserBalance.time (w.registries.v101.userBalance key) (offers es key))
    ?_ ?_ hdirect hany rfl
  · intro es r r' hsame h
    rw [hsame.userBalance]
    exact h
  · intro es w' t before e after _ _ _ h
    rw [userBalance_index, h, offers_append_singleton, LatestWins.settle_append]

/-! ## Order independence -/

/-- Elements of one height that name one user, as sender or as receiver, carry the
same balance for it. -/
def Consistent (events : List SignedTx) : Prop :=
  ∀ e ∈ events, ∀ e' ∈ events, ∀ key b b', e.Carries key b → e'.Carries key b' →
    e.block.height = e'.block.height → b.balance = b'.balance

theorem offers_pos {events : List SignedTx} (hheight : ∀ e ∈ events, 1 ≤ e.block.height.val)
    (key : UserTick) : ∀ b ∈ offers events key, ⊥ < b.time := by
  intro b hb
  obtain ⟨e, he, hoffer⟩ := mem_offers.mp hb
  have hb : b.upToBlock = e.block.height := (SignedTx.carries_of_offer hoffer).height
  show 0 < b.upToBlock.val
  rw [hb]
  exact hheight e he

theorem offers_agree {events : List SignedTx} (hconsistent : Consistent events)
    (key : UserTick) : LatestWins.Agree UserBalance.time (offers events key) := by
  intro b hb b' hb' htime
  obtain ⟨e, he, hoffer⟩ := mem_offers.mp hb
  obtain ⟨e', he', hoffer'⟩ := mem_offers.mp hb'
  have hc := SignedTx.carries_of_offer hoffer
  have hc' := SignedTx.carries_of_offer hoffer'
  have hblock : b.upToBlock = b'.upToBlock := Fin.ext htime
  have hheight : e.block.height = e'.block.height := by
    rw [← hc.height, ← hc'.height]
    exact hblock
  have hbalance := hconsistent e he e' he' key b b' hc hc' hheight
  cases b
  cases b'
  simp only at hblock hbalance
  rw [hblock, hbalance]

theorem userBalance_run_empty {w : World} {ts : List Transaction} {events : List SignedTx}
    (hheight : ∀ e ∈ events, 1 ≤ e.block.height.val) (hconsistent : Consistent events)
    (hdirect : ∀ t ∈ ts, ¬ t.call.IsDirectWrite)
    (hempty : w.registries.v101.userBalance = .empty)
    (hevents : events.Perm ((deployment P).history w ts)) (key : UserTick) :
    ((deployment P).run w ts).registries.v101.userBalance key =
      LatestWins.settle UserBalance.time none (offers events key) := by
  rw [userBalance_run P hdirect, hempty]
  exact (LatestWins.settle_perm (offers_pos hheight key) (offers_agree hconsistent key)
    (hevents.filterMap _)).symm

/-- **Balances do not depend on the order of the events.**  Whatever the order in
which a list of events is accepted, whatever the batches it is cut into and the
calls made in between, the balances come out the same, and every user named by an
event ends with the balance carried by the events of greatest height that name it,
at that height. -/
theorem userBalance_order_independent {events : List SignedTx}
    (hheight : ∀ e ∈ events, 1 ≤ e.block.height.val) (hconsistent : Consistent events)
    {w w' : World} {ts ts' : List Transaction}
    (hdirect : ∀ t ∈ ts, ¬ t.call.IsDirectWrite) (hdirect' : ∀ t ∈ ts', ¬ t.call.IsDirectWrite)
    (hempty : w.registries.v101.userBalance = .empty)
    (hempty' : w'.registries.v101.userBalance = .empty)
    (hevents : events.Perm ((deployment P).history w ts))
    (hevents' : events.Perm ((deployment P).history w' ts')) :
    ((deployment P).run w ts).registries.v101.userBalance =
        ((deployment P).run w' ts').registries.v101.userBalance ∧
      ∀ key, (∃ e ∈ events, ∃ b, e.Carries key b) →
        ∃ b, ((deployment P).run w ts).registries.v101.userBalance key = some b ∧
          (∃ e ∈ events, e.Carries key b) ∧
          ∀ e ∈ events, ∀ b', e.Carries key b' → b'.upToBlock ≤ b.upToBlock := by
  have hrun := userBalance_run_empty P hheight hconsistent hdirect hempty hevents
  have hrun' := userBalance_run_empty P hheight hconsistent hdirect' hempty' hevents'
  refine ⟨funext fun key => (hrun key).trans (hrun' key).symm, ?_⟩
  rintro key ⟨e, he, b, hcarries⟩
  rw [hrun key]
  have hmem : ∀ e ∈ events, ∀ b, e.Carries key b →
      ∃ b' ∈ offers events key, b'.upToBlock = b.upToBlock := by
    intro e he b hb
    obtain ⟨b', hoffer⟩ := SignedTx.exists_offer hb
    refine ⟨b', mem_offers.mpr ⟨e, he, hoffer⟩, ?_⟩
    rw [(SignedTx.carries_of_offer hoffer).height, hb.height]
  have hle : ∀ b' ∈ offers events key, b'.time ≤
      LatestWins.cellTime UserBalance.time
        (LatestWins.settle UserBalance.time none (offers events key)) :=
    fun b' hb' => LatestWins.offer_le_settle hb'
  obtain ⟨b₀, hb₀, -⟩ := hmem e he b hcarries
  rcases LatestWins.settle_eq_or_mem UserBalance.time none (offers events key) with
    hnone | ⟨last, hlast, hsome⟩
  · -- an offer of a positive height is taken
    have hpos := offers_pos hheight key b₀ hb₀
    have hzero := hle b₀ hb₀
    rw [hnone] at hzero
    exact absurd hpos (not_lt.mpr hzero)
  · obtain ⟨e', he', hoffer'⟩ := mem_offers.mp hlast
    refine ⟨last, hsome, ⟨e', he', SignedTx.carries_of_offer hoffer'⟩, ?_⟩
    intro e'' he'' b'' hb''
    obtain ⟨b', hb', hsame⟩ := hmem e'' he'' b'' hb''
    have htime := hle b' hb'
    rw [hsome] at htime
    rw [← hsame]
    exact htime

open Sample in
/-- The sample transfers agree: of one height there is only one, between two users. -/
theorem consistent_transfers : Consistent [transferAB, transferBA] := by
  intro e he e' he' key b b' hb hb' hheight
  have heq : e = e' := by
    rcases List.mem_pair.mp he with rfl | rfl
    · rcases List.mem_pair.mp he' with rfl | rfl
      · rfl
      · exact absurd hheight (by decide)
    · rcases List.mem_pair.mp he' with rfl | rfl
      · exact absurd hheight (by decide)
      · rfl
  subst heq
  have hne : e.tx.fromKey ≠ e.tx.toKey := by
    rcases List.mem_pair.mp he with rfl | rfl
    · decide
    · decide
  rcases hb with ⟨hk, rfl⟩ | ⟨hk, rfl⟩
  · rcases hb' with ⟨hk', rfl⟩ | ⟨hk', rfl⟩
    · rfl
    · exact absurd (hk.trans hk'.symm) hne
  · rcases hb' with ⟨hk', rfl⟩ | ⟨hk', rfl⟩
    · exact absurd (hk'.trans hk.symm) hne
    · rfl

open Sample in
/-- The sample transfers, in one batch and, in two, the other way round. -/
theorem userBalance_order_independent_transfers :
    ((deployment primitives).run (deployed deployer) transfers).registries.v101.userBalance =
      ((deployment primitives).run (deployed deployer)
        swappedTransfers).registries.v101.userBalance := by
  have hswapped : (deployment primitives).history (deployed deployer) swappedTransfers =
      [transferBA, transferAB] := by decide +kernel
  have hevents : [transferAB, transferBA].Perm
      ((deployment primitives).history (deployed deployer) transfers) := by
    rw [history_transfers]
  have hevents' : [transferAB, transferBA].Perm
      ((deployment primitives).history (deployed deployer) swappedTransfers) := by
    rw [hswapped]
    exact List.Perm.swap _ _ _
  exact (userBalance_order_independent primitives (by decide) consistent_transfers (by decide)
    (by decide) rfl rfl hevents hevents').1

/-! ## Provenance and monotonicity -/

/-- **Every balance comes from one accepted element, and heights never go back.**
No agreement between the elements is needed. -/
theorem userBalance_provenance {w : World} {ts : List Transaction}
    (hdirect : ∀ t ∈ ts, ¬ t.call.IsDirectWrite)
    (hempty : w.registries.v101.userBalance = .empty) :
    (∀ key b, ((deployment P).run w ts).registries.v101.userBalance key = some b →
      ∃ e ∈ (deployment P).history w ts, e.tx.tick = key.tick ∧
        b.upToBlock = e.block.height ∧
        (e.tx.fromUser = key.user ∧ b.balance = e.tx.fromBal ∨
          e.tx.toUser = key.user ∧ b.balance = e.tx.toBal)) ∧
      ∀ t : Transaction, ¬ t.call.IsDirectWrite → ∀ key,
        (((deployment P).run w ts).registries.balance key).upToBlock ≤
            (((deployment P).run w (ts ++ [t])).registries.balance key).upToBlock ∧
          ((((deployment P).run w ts).registries.v101.userBalance key).isSome = true →
            (((deployment P).run w (ts ++ [t])).registries.v101.userBalance key).isSome =
              true) := by
  constructor
  · intro key b hb
    rw [userBalance_run P hdirect, hempty] at hb
    rcases LatestWins.settle_eq_or_mem UserBalance.time none
      (offers ((deployment P).history w ts) key) with hnone | ⟨last, hlast, hsome⟩
    · -- an entry that was offered nothing is still empty
      rw [DataMap.empty_apply, hnone] at hb
      cases hb
    · rw [DataMap.empty_apply, hsome] at hb
      cases hb
      obtain ⟨e, he, hoffer⟩ := mem_offers.mp hlast
      have hcarries := SignedTx.carries_of_offer hoffer
      refine ⟨e, he, ?_, hcarries.height, ?_⟩
      · rcases hcarries with ⟨rfl, -⟩ | ⟨rfl, -⟩
        · rfl
        · rfl
      · rcases hcarries with ⟨rfl, rfl⟩ | ⟨rfl, rfl⟩
        · exact Or.inl ⟨rfl, rfl⟩
        · exact Or.inr ⟨rfl, rfl⟩
  · intro t ht key
    have hlast : ∀ u ∈ [t], ¬ u.call.IsDirectWrite := fun u hu => by
      rw [List.mem_singleton.mp hu]
      exact ht
    have hstep := userBalance_run P (w := (deployment P).run w ts) hlast key
    rw [← Machine.run_append] at hstep
    constructor
    · show (Registries.balance _ key).time ≤ (Registries.balance _ key).time
      rw [Registries.balance_time, Registries.balance_time, hstep]
      exact LatestWins.time_le_settle
    · intro hsome
      rw [hstep]
      exact LatestWins.isSome_settle hsome

open Sample in
/-- Alice's balance after the sample transfers comes from one of them. -/
theorem userBalance_provenance_transfers :
    ∃ e ∈ (deployment primitives).history (deployed deployer) transfers,
      e.tx.tick = transferAB.tx.tick ∧ (101 : Uint) = e.block.height ∧
        (e.tx.fromUser = alice ∧ 97 = e.tx.fromBal ∨ e.tx.toUser = alice ∧ 97 = e.tx.toBal) := by
  have halice : ((deployment primitives).run (deployed deployer)
      transfers).registries.v101.userBalance ⟨alice, transferAB.tx.tick⟩ = some ⟨97, 101⟩ := by
    rw [userBalance_run primitives (by decide), history_transfers]
    decide
  exact (userBalance_provenance primitives (by decide) rfl).1 _ _ halice

end World
end BitcoinOracle
