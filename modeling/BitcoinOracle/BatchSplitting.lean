import BitcoinOracle.World

/-! # Batches split freely, and are atomic

The elements of a batch see each other only through the storage: an element is met
with what its predecessors left.  Where a batch is cut therefore makes no difference,
neither to whether it is accepted nor to what it leaves, `tx-hash-to-iter` included.
When it is not accepted, the answer is the one of the first element that fails, and
nothing that its predecessors wrote remains.
-/
namespace BitcoinOracle
open Clarity

/-- Two batches as one. -/
def TxMany.append (xs ys : TxMany) (h : xs.elements.length + ys.elements.length ≤ 25) : TxMany where
  elements := xs.elements ++ ys.elements
  elements_length := by rwa [List.length_append]

namespace Oracle
variable (P : Primitives)

theorem indexAll_isPaused (w : World) (es : List SignedTx) :
    (indexAll P w es).oracle.isPaused = w.oracle.isPaused := by
  induction es generalizing w with
  | nil => rfl
  | cons e es ih =>
      rw [indexAll_cons, ih]
      rfl

variable (env : Env) {w : World} {sender : Principal}

/-- Past the two checks of the caller, a batch answers what its elements do. -/
theorem indexTxMany_eq (hpaused : w.oracle.isPaused = false)
    (hrelayer : (w.oracle.approvedRelayers sender).isSome = true) (txMany : TxMany) :
    indexTxMany P env sender txMany w =
      Call.transaction (Call.fold (indexTxIter P env) txMany.elements (.ok true)) w := by
  have hchecks : ∀ c : Call World Bool, (do
      let w ← Call.view id
      Call.lift (.asserts (¬ w.oracle.isPaused = true) errPaused)
      Call.lift (.asserts ((w.oracle.approvedRelayers sender).isSome = true) errUknownRelayer)
      c : Call World Bool) w = c w := by
    intro c
    simp only [Call.bind_apply, Call.view, Call.lift, Result.asserts, id_eq, hpaused, hrelayer,
      Bool.false_eq_true, not_false_eq_true, if_true]
  unfold indexTxMany Call.transaction
  rw [hchecks]

/-- **A batch is its parts one after the other.**  It is accepted exactly when they are,
and leaves what they leave. -/
theorem indexTxMany_append (hpaused : w.oracle.isPaused = false)
    (hrelayer : (w.oracle.approvedRelayers sender).isSome = true) (xs ys : TxMany)
    (h : xs.elements.length + ys.elements.length ≤ 25) (w' : World) :
    (∃ b, indexTxMany P env sender (xs.append ys h) w = (.ok b, w')) ↔
      ∃ b₁ b₂ w₁, indexTxMany P env sender xs w = (.ok b₁, w₁) ∧
        indexTxMany P env sender ys w₁ = (.ok b₂, w') := by
  have helements : (xs.append ys h).elements = xs.elements ++ ys.elements := rfl
  simp only [indexTxMany_eq_ok, helements, AcceptsAll.append_iff, indexAll_append]
  constructor
  · rintro ⟨b, -, -, ⟨hxs, hys⟩, hb, hw'⟩
    refine ⟨true, b, _, ⟨hpaused, hrelayer, hxs, rfl, rfl⟩, ?_, ?_, hys, hb, hw'⟩
    · rw [indexAll_isPaused, hpaused]
    · rw [World.indexAll_approvedRelayers, hrelayer]
  · rintro ⟨b₁, b₂, _, ⟨-, -, hxs, -, rfl⟩, -, -, hys, hb, hw'⟩
    exact ⟨b₂, hpaused, hrelayer, ⟨hxs, hys⟩, hb, hw'⟩

/-- **A batch that is not accepted** answers what its first failing element does, in the
storage that the elements before it left, and changes nothing. -/
theorem indexTxMany_failure (hpaused : w.oracle.isPaused = false)
    (hrelayer : (w.oracle.approvedRelayers sender).isSome = true) (txMany : TxMany)
    (hfail : ∀ b, (indexTxMany P env sender txMany w).1 ≠ .ok b) :
    (indexTxMany P env sender txMany w).2 = w ∧
      ∃ before e after w₁, txMany.elements = before ++ e :: after ∧
        Call.fold (indexTxIter P env) before (.ok true) w = (.ok true, w₁) ∧
        (∀ b, (indexTxIter P env e (.ok true) w₁).1 ≠ .ok b) ∧
        (indexTxMany P env sender txMany w).1 = (indexTxIter P env e (.ok true) w₁).1 := by
  rw [indexTxMany_eq P env hpaused hrelayer] at hfail ⊢
  rw [Call.transaction_fst] at hfail ⊢
  refine ⟨Call.transaction_frame hfail, ?_⟩
  obtain ⟨before, e, after, b, w', hsplit, hbefore, hfirst, hanswer⟩ :=
    Call.fold_first_failure (fun _ _ _ => rfl) hfail
  obtain ⟨-, rfl, -⟩ := (indexTxIter_fold_eq_ok P env).mp hbefore
  exact ⟨before, e, after, w', hsplit, hbefore, hfirst, hanswer⟩

/-- **Batches split freely and are atomic**, for every storage that is not paused and
every approved sender. -/
theorem batches_split (hpaused : w.oracle.isPaused = false)
    (hrelayer : (w.oracle.approvedRelayers sender).isSome = true) (xs ys : TxMany)
    (h : xs.elements.length + ys.elements.length ≤ 25) :
    (∀ w', (∃ b, indexTxMany P env sender (xs.append ys h) w = (.ok b, w')) ↔
      ∃ b₁ b₂ w₁, indexTxMany P env sender xs w = (.ok b₁, w₁) ∧
        indexTxMany P env sender ys w₁ = (.ok b₂, w')) ∧
    ((∀ b, (indexTxMany P env sender (xs.append ys h) w).1 ≠ .ok b) →
      (indexTxMany P env sender (xs.append ys h) w).2 = w ∧
      ∃ before e after w₁, xs.elements ++ ys.elements = before ++ e :: after ∧
        Call.fold (indexTxIter P env) before (.ok true) w = (.ok true, w₁) ∧
        (∀ b, (indexTxIter P env e (.ok true) w₁).1 ≠ .ok b) ∧
        (indexTxMany P env sender (xs.append ys h) w).1 = (indexTxIter P env e (.ok true) w₁).1) :=
  ⟨indexTxMany_append P env hpaused hrelayer xs ys h,
    indexTxMany_failure P env hpaused hrelayer (xs.append ys h)⟩

end Oracle

namespace Sample
open World Oracle

/-- The deployment before its first batch. -/
def ready : World := (deployment primitives).run (deployed deployer) (setup testnet)

theorem length_transferAB : [transferAB].length ≤ 25 := by simp

theorem length_transferBA : [transferBA].length ≤ 25 := by simp

/-- The two transfers that are accepted as one batch are accepted as two. -/
theorem batches_split_transfers : ∃ b₁ b₂ w₁ w₂,
    indexTxMany primitives testnet relayer ⟨[transferAB], length_transferAB⟩ ready =
        (.ok b₁, w₁) ∧
      indexTxMany primitives testnet relayer ⟨[transferBA], length_transferBA⟩ w₁ =
        (.ok b₂, w₂) := by
  obtain ⟨w', hmany⟩ : ∃ w', indexTxMany primitives testnet relayer
      (TxMany.append ⟨[transferAB], length_transferAB⟩ ⟨[transferBA], length_transferBA⟩
        (by simp)) ready = (.ok true, w') := by
    have hanswer := answer_transfers
    obtain ⟨b, hmany, hb⟩ := answering_eq_ok.mp (exec_eq primitives hanswer)
    cases hb
    exact ⟨_, hmany⟩
  have hpaused : ready.oracle.isPaused = false := rfl
  have hrelayer : (ready.oracle.approvedRelayers relayer).isSome = true := rfl
  obtain ⟨b₁, b₂, w₁, hxs, hys⟩ := ((batches_split primitives testnet hpaused hrelayer
    ⟨[transferAB], length_transferAB⟩ ⟨[transferBA], length_transferBA⟩ (by simp)).1 w').mp
      ⟨true, hmany⟩
  exact ⟨b₁, b₂, w₁, w', hxs, hys⟩

end Sample
end BitcoinOracle
