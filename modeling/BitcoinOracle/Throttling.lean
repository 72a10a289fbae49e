import BitcoinOracle.NonceLoop

/-! # The wait before a broadcast

The loop broadcasts ahead of the chain by at most `currentMaxTxPerBlock` nonces.  When
the node says `TooMuchChaining`, the window becomes smaller by one, for the rest of the
operations and without a floor.  Once it is negative, a wait goes on although the chain
has executed everything that the loop has sent.
-/
namespace BitcoinOracle
open Relayer

namespace NonceLoop

namespace State
variable {o : Options} {s : State}

/-- An account nonce that has reached the local one ends the wait. -/
def WaitEnds (s : State) : Prop :=
  ∀ answer, s.nonce ≤ answer → ¬ Waits { s with lastExecutedNonce := answer }

/-- A wait ends if and only if the window is not negative. -/
theorem waitEnds_iff : s.WaitEnds ↔ 0 ≤ s.currentMaxTxPerBlock := by
  constructor
  · intro h
    have hends : ¬ (s.nonce : Int) + s.currentMaxTxPerBlock < s.nonce := h s.nonce (Nat.le_refl _)
    omega
  · intro h answer hanswer hwaits
    have hlt : (answer : Int) + s.currentMaxTxPerBlock < s.nonce := hwaits
    omega

/-! ## What changes the window -/

/-- The exception that an action raises in the loop. -/
def raised (o : Options) (s : State) : Action → Option Exception
  | .attempt attempt =>
      match s.operations with
      | op :: _ =>
          if s.phase = .submitting ∧ ¬ s.Waits then
            match txFee o op attempt with
            | .error e => some e
            | .ok fee =>
                if s.Possible ⟨op.ref, op.type, s.nonce, op.fee attempt fee⟩ attempt.reply then
                  op.broadcastException attempt
                else none
          else none
      | [] => none
  | _ => none

/-- An attempt ends with `TooMuchChaining`. -/
def Chained (e : Option Exception) : Prop := e = some (some "TooMuchChaining".toList)

instance : DecidablePred Chained := fun _ => inferInstanceAs (Decidable (_ = _))

/-- The window after an action that raises `e`. -/
def windowAfter (window : Int) (e : Option Exception) : Int :=
  if Chained e then window - 1 else window

theorem window_catches (op : Operation) (rest : List Operation) (txFee : Option Nat)
    (e : Exception) : (s.catches o op rest txFee e).currentMaxTxPerBlock =
      windowAfter s.currentMaxTxPerBlock (some e) := by
  cases e with
  | none => rfl
  | some message =>
      unfold windowAfter
      by_cases hchaining : message = "TooMuchChaining".toList
      · subst hchaining
        have hchained : Chained (some (some "TooMuchChaining".toList)) := rfl
        dsimp only [catches]
        rw [if_neg (by decide +kernel), if_neg (by decide +kernel), if_pos rfl, if_pos hchained]
      · have hother : ¬ Chained (some (some message)) := fun h =>
          hchaining (Option.some.inj (Option.some.inj h))
        rw [if_neg hother]
        dsimp only [catches]
        rw [if_neg hchaining]
        split
        · rfl
        · split
          · cases o.conflictingNonceStrategy with
            | increase => rfl
            | replace =>
                cases txFee with
                | none => rfl
                | some fee =>
                    dsimp only
                    split
                    · rfl
                    · rfl
          · rfl

theorem window_remember (t : Sent) (reply : NodeReply) :
    (s.remember t reply).currentMaxTxPerBlock = s.currentMaxTxPerBlock := by
  unfold remember
  split
  · rfl
  · rfl

theorem window_submit {op : Operation} {rest : List Operation} {attempt : Attempt}
    (hhead : s.operations = op :: rest) (hsubmits : s.phase = .submitting ∧ ¬ s.Waits) :
    (s.submit o op rest attempt).currentMaxTxPerBlock =
      windowAfter s.currentMaxTxPerBlock (s.raised o (.attempt attempt)) := by
  dsimp only [raised, submit]
  rw [hhead]
  dsimp only
  rw [if_pos hsubmits]
  cases txFee o op attempt with
  | error e => exact window_catches op rest none e
  | ok fee =>
      dsimp only
      generalize Sent.mk op.ref op.type s.nonce (op.fee attempt fee) = t
      by_cases hpossible : s.Possible t attempt.reply
      · rw [if_pos hpossible, if_pos hpossible]
        have hsame : ((s.remember t attempt.reply).receive t attempt.reply
            ).currentMaxTxPerBlock = s.currentMaxTxPerBlock :=
          (window_receive ..).trans (window_remember t attempt.reply)
        cases op.broadcastException attempt with
        | none => exact hsame
        | some e =>
            dsimp only
            rw [window_catches, hsame]
      · rw [if_neg hpossible, if_neg hpossible]
        rfl

theorem raised_eq_none {a : Action} (h : ¬ s.Sends o a) : s.raised o a = none := by
  cases a with
  | attempt attempt =>
      dsimp only [raised]
      cases hhead : s.operations with
      | nil => rfl
      | cons op rest => exact if_neg fun hsubmits => h ⟨by simp [hhead], hsubmits⟩
  | _ => rfl

/-- **Only `TooMuchChaining` changes the window.** -/
theorem window_next (a : Action) : (s.next o a).currentMaxTxPerBlock =
    windowAfter s.currentMaxTxPerBlock (s.raised o a) := by
  rcases next_cases o s a with ⟨attempt, op, rest, rfl, hhead, hsubmits, hnext⟩ |
    ⟨n, reply, t, rfl, -, -, hnext⟩ | ⟨hnot, phase, last, mempool, hnext⟩
  · rw [hnext, window_submit hhead hsubmits]
  · rw [hnext, window_receive]
    rfl
  · rw [hnext, raised_eq_none hnot]
    rfl

end State

/-! ## How often a run can be throttled -/

/-- The loop, which logs every `TooMuchChaining`. -/
def throttled (o : Options) : Machine State Action Unit where
  next := State.next o
  log s a := if State.Chained (s.raised o a) then [()] else []

/-- The window is what it was at first, less the times the node has said so. -/
theorem window_run (o : Options) (s : State) (actions : List Action) :
    ((throttled o).run s actions).currentMaxTxPerBlock =
      s.currentMaxTxPerBlock - ((throttled o).history s actions).length := by
  refine (throttled o).history_of_step (fun log s' => s'.currentMaxTxPerBlock =
    s.currentMaxTxPerBlock - (log.length : Int)) ?_ (by simp) actions
  intro log s' a hwindow
  show (s'.next o a).currentMaxTxPerBlock =
    _ - (((log ++ (throttled o).log s' a).length : Nat) : Int)
  have hlog : (throttled o).log s' a = if State.Chained (s'.raised o a) then [()] else [] := rfl
  rw [State.window_next, State.windowAfter, hlog]
  by_cases hchained : State.Chained (s'.raised o a)
  · rw [if_pos hchained, if_pos hchained, List.length_append, List.length_singleton, hwindow]
    omega
  · rw [if_neg hchained, if_neg hchained, List.append_nil, hwindow]

/-- **Every wait of a run ends exactly if the node has said `TooMuchChaining` at most as
often as there are transactions in a block.** -/
theorem wait_ends_iff (o : Options) (operations : List Operation)
    (startingNonce lastExecutedNonce : Nat) (mempool : Nat → Option Nat) (actions : List Action) :
    (∀ n, ((throttled o).run (start o operations startingNonce lastExecutedNonce mempool)
        (actions.take n)).WaitEnds) ↔
      ((throttled o).history (start o operations startingNonce lastExecutedNonce mempool)
        actions).length ≤ o.maxTxPerBlock := by
  have hwindow : ∀ as, ((throttled o).run
      (start o operations startingNonce lastExecutedNonce mempool) as).currentMaxTxPerBlock =
        o.maxTxPerBlock - ((throttled o).history
          (start o operations startingNonce lastExecutedNonce mempool) as).length :=
    window_run o _
  simp only [State.waitEnds_iff, hwindow]
  constructor
  · intro h
    have hall := h actions.length
    rw [List.take_length] at hall
    omega
  · intro hle n
    -- what a beginning of the run logs, the run logs too
    have hsplit := (throttled o).history_append
      (start o operations startingNonce lastExecutedNonce mempool) (actions.take n) (actions.drop n)
    rw [List.take_append_drop] at hsplit
    have hlength := congrArg List.length hsplit
    rw [List.length_append] at hlength
    omega

end NonceLoop

namespace Sample
open NonceLoop

/-- The node says `TooMuchChaining`. -/
def chaining : Action := replied (.rejected "TooMuchChaining".toList) .returns

/-- **After the 26th `TooMuchChaining` the loop waits, although the chain has executed
everything.**  The limit is the default of 25: the schema of the environment takes no
text for it. -/
theorem wait_never_ends :
    let s := (throttled replacing).run
      (NonceLoop.start replacing [batchCall 0] 7 7 fun _ => none) (List.replicate 26 chaining)
    s.Waits ∧ s.lastExecutedNonce = s.nonce ∧ ¬ s.WaitEnds := by
  refine ⟨by decide +kernel, by decide +kernel, fun h => ?_⟩
  have hstill := h 7 (by decide +kernel)
  exact hstill (by decide +kernel)

end Sample
end BitcoinOracle
