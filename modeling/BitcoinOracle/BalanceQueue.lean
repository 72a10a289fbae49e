import BitcoinOracle.CallArguments
import BitcoinOracle.LoggedRun

/-! # Balances in batches

The validator of BestInSlot asks for balances in batches.  Every request goes into one
queue, the batches go out when it is long enough or some time has passed, and all
answers come back through one shared observable, from which each subscriber takes the
balance with its own key.

A failed batch comes back the same way, and has no key: it ends every subscriber that
waits (`isolated_iff`).
-/
namespace BitcoinOracle
namespace BalanceQueue

/-! ## Requests and answers -/

structure BISRequestBalance where
  pkscript : Text
  blockHeight : Nat
  ticker : Text
  deriving DecidableEq

structure BISBatchBalance where
  tick : Text
  balance : Text
  pkscript : Text
  blockHeight : Nat
  deriving DecidableEq

/-- `ResultType`, of a batch. -/
inductive BatchResult where
  | success (data : List BISBatchBalance)
  | error (error : Text)
  deriving DecidableEq

/-- The balance is the one that was asked for. -/
def BISRequestBalance.Asks (params : BISRequestBalance) (b : BISBatchBalance) : Prop :=
  b.pkscript = params.pkscript ∧ b.tick = params.ticker ∧ b.blockHeight = params.blockHeight

instance (params : BISRequestBalance) : DecidablePred params.Asks :=
  fun _ => inferInstanceAs (Decidable (_ ∧ _))

inductive Outcome where
  | waiting
  | completed (balance : BISBatchBalance)
  | errored (error : Text)
  deriving DecidableEq

/-- A subscriber of `getBalanceOnBlockInBatchQueue$`. -/
structure Subscriber where
  params : BISRequestBalance
  outcome : Outcome
  deriving DecidableEq

/-- A request in the queue, and whose it is. -/
structure Request where
  subscriber : Nat
  params : BISRequestBalance
  deriving DecidableEq

def subscribersOf (batch : List Request) : List Nat := batch.map Request.subscriber

/-- What a subscriber does with what the shared observable emits. -/
def Subscriber.receive (result : BatchResult) (sub : Subscriber) : Subscriber :=
  match sub.outcome with
  | .waiting =>
      match result with
      | .success data =>
          match data.find? fun b => sub.params.Asks b with
          | some balance => { sub with outcome := .completed balance }
          | none => sub
      | .error error => { sub with outcome := .errored error }
  | _ => sub

/-! ## The queue -/

structure State where
  /-- In the order they have come. -/
  subscribers : List Subscriber
  reqQueue : List Request
  inFlight : List (List Request)
  failed : List (List Request)
  answered : List (List Request × List BISBatchBalance)
  deriving DecidableEq

def start : State := ⟨[], [], [], [], []⟩

inductive Action where
  | subscribe (params : BISRequestBalance)
  /-- The timer of `windowTimeSize`. -/
  | timer
  /-- The call of a batch that is in flight ends. -/
  | settle (n : Nat) (result : BatchResult)
  deriving DecidableEq

namespace State
variable (queueLimit : Nat) (s : State)

/-- The shared observable is subscribed to. -/
def Connected : Prop := ∃ sub ∈ s.subscribers, sub.outcome = .waiting

instance : Decidable s.Connected := inferInstanceAs (Decidable (∃ sub ∈ s.subscribers, _ = _))

/-- The queue goes out as a batch, which is not sent if nobody waits. -/
def emitQueue : State :=
  if s.reqQueue = [] then s
  else
    { s with
      reqQueue := []
      inFlight := if s.Connected then s.inFlight ++ [s.reqQueue] else s.inFlight }

/-- A request is queued. -/
def request (params : BISRequestBalance) : State :=
  { s with
    subscribers := s.subscribers ++ [⟨params, .waiting⟩]
    reqQueue := s.reqQueue ++ [⟨s.subscribers.length, params⟩] }

/-- When the last subscriber has gone, the calls in flight are given up. -/
def release : State := if s.Connected then s else { s with inFlight := [] }

def deliver (n : Nat) (batch : List Request) (result : BatchResult) : State :=
  { s with
    subscribers := s.subscribers.map (Subscriber.receive result)
    inFlight := s.inFlight.eraseIdx n
    failed := match result with
      | .success _ => s.failed
      | .error _ => s.failed ++ [batch]
    answered := match result with
      | .success data => s.answered ++ [(batch, data)]
      | .error _ => s.answered }

def next : Action → State
  | .subscribe params =>
      if queueLimit ≤ (s.request params).reqQueue.length then (s.request params).emitQueue
      else s.request params
  | .timer => s.emitQueue
  | .settle n result =>
      match s.inFlight[n]? with
      | some batch => (s.deliver n batch result).release
      | none => s

end State

def machine (queueLimit : Nat) : Machine State Action Unit where
  next := State.next queueLimit
  log _ _ := []

/-- Every subscriber has the balance it has asked for, or an error if its own batch has
failed, or it waits, and then its batch is still to be answered or has been answered
without its balance. -/
structure Isolated (s : State) : Prop where
  completed : ∀ sub ∈ s.subscribers, ∀ b, sub.outcome = .completed b → sub.params.Asks b
  errored : ∀ i sub, s.subscribers[i]? = some sub → ∀ e, sub.outcome = .errored e →
    ∃ batch ∈ s.failed, i ∈ subscribersOf batch
  waiting : ∀ i sub, s.subscribers[i]? = some sub → sub.outcome = .waiting →
    i ∈ subscribersOf s.reqQueue ∨ (∃ batch ∈ s.inFlight, i ∈ subscribersOf batch) ∨
      ∃ x ∈ s.answered, i ∈ subscribersOf x.1 ∧ ∀ b ∈ x.2, ¬ sub.params.Asks b

/-- A batch fails only when nobody waits for another one. -/
def FailsAlone (s : State) : Action → Prop
  | .settle n (.error _) => ∀ batch ∈ s.inFlight[n]?, ∀ i < s.subscribers.length,
      (s.subscribers[i]?.map Subscriber.outcome) = some .waiting → i ∈ subscribersOf batch
  | _ => True

instance (s : State) : DecidablePred (FailsAlone s)
  | .settle n (.error _) => inferInstanceAs (Decidable (∀ batch ∈ s.inFlight[n]?, _))
  | .settle _ (.success _) => isTrue trivial
  | .subscribe _ => isTrue trivial
  | .timer => isTrue trivial

/-! ## A subscriber and an answer -/

namespace Subscriber
variable {sub : Subscriber}

theorem receive_of_not_waiting (h : sub.outcome ≠ .waiting) (result : BatchResult) :
    sub.receive result = sub := by
  unfold receive
  split
  · next hwaiting => exact (h hwaiting).elim
  · rfl

theorem receive_error (h : sub.outcome = .waiting) (e : Text) :
    sub.receive (.error e) = { sub with outcome := .errored e } := by
  rw [receive, h]

theorem receive_success (h : sub.outcome = .waiting) (data : List BISBatchBalance) :
    (∃ b, sub.params.Asks b ∧ sub.receive (.success data) = { sub with outcome := .completed b }) ∨
      (∀ b ∈ data, ¬ sub.params.Asks b) ∧ sub.receive (.success data) = sub := by
  rw [receive, h]
  dsimp only
  split
  · next b hfind =>
      have hasks := List.find?_some hfind
      exact Or.inl ⟨b, of_decide_eq_true hasks, rfl⟩
  · next hnone =>
      refine Or.inr ⟨fun b hb hasks => ?_, rfl⟩
      exact List.find?_eq_none.mp hnone b hb (decide_eq_true hasks)

theorem params_receive (result : BatchResult) : (sub.receive result).params = sub.params := by
  unfold receive
  split
  · split
    · split
      · rfl
      · rfl
    · rfl
  · rfl

/-- Only who has waited waits, and with a failed batch nobody does. -/
theorem waiting_of_receive {result : BatchResult} (h : (sub.receive result).outcome = .waiting) :
    sub.outcome = .waiting ∧ sub.receive result = sub ∧
      ∃ data, result = .success data ∧ ∀ b ∈ data, ¬ sub.params.Asks b := by
  by_cases hwaiting : sub.outcome = .waiting
  · cases result with
    | success data =>
        rcases receive_success hwaiting data with ⟨b, -, heq⟩ | ⟨hnone, heq⟩
        · rw [heq] at h
          cases h
        · exact ⟨hwaiting, heq, data, rfl, hnone⟩
    | error e =>
        rw [receive_error hwaiting] at h
        cases h
  · rw [receive_of_not_waiting hwaiting] at h
    exact (hwaiting h).elim

end Subscriber

/-! ## What holds of every run -/

theorem State.subscribers_deliver (s : State) (n : Nat) (batch : List Request)
    (result : BatchResult) :
    (s.deliver n batch result).subscribers = s.subscribers.map (Subscriber.receive result) := rfl

theorem subscribersOf_append (batch batch' : List Request) :
    subscribersOf (batch ++ batch') = subscribersOf batch ++ subscribersOf batch' :=
  List.map_append

/-- Where the request of a waiting subscriber is, and whose requests there are. -/
structure Sound (s : State) : Prop where
  completed : ∀ sub ∈ s.subscribers, ∀ b, sub.outcome = .completed b → sub.params.Asks b
  waiting : ∀ i sub, s.subscribers[i]? = some sub → sub.outcome = .waiting →
    i ∈ subscribersOf s.reqQueue ∨ (∃ batch ∈ s.inFlight, i ∈ subscribersOf batch) ∨
      ∃ x ∈ s.answered, i ∈ subscribersOf x.1 ∧ ∀ b ∈ x.2, ¬ sub.params.Asks b
  queued : ∀ i ∈ subscribersOf s.reqQueue, i < s.subscribers.length
  inFlight : ∀ batch ∈ s.inFlight, ∀ i ∈ subscribersOf batch, i < s.subscribers.length
  failed : ∀ batch ∈ s.failed, ∀ i ∈ subscribersOf batch,
    ∃ sub, s.subscribers[i]? = some sub ∧ sub.outcome ≠ .waiting

namespace Sound
variable {s : State}

theorem request (h : Sound s) (params : BISRequestBalance) : Sound (s.request params) where
  completed sub hsub b hb := by
    rcases List.mem_append.mp hsub with hold | hnew
    · exact h.completed sub hold b hb
    · obtain rfl := List.mem_singleton.mp hnew
      cases hb
  waiting i sub hi hwaiting := by
    have hqueue : subscribersOf (s.request params).reqQueue =
        subscribersOf s.reqQueue ++ [s.subscribers.length] := subscribersOf_append ..
    rw [hqueue, List.mem_append, List.mem_singleton]
    by_cases hlast : i = s.subscribers.length
    · exact Or.inl (Or.inr hlast)
    · have hlt : i < s.subscribers.length := by
        have hbound := (List.getElem?_eq_some_iff.mp hi).1
        rw [State.request, List.length_append, List.length_singleton] at hbound
        omega
      have hold : s.subscribers[i]? = some sub := by
        rwa [State.request, List.getElem?_append_left hlt] at hi
      exact (h.waiting i sub hold hwaiting).imp_left Or.inl
  queued i hi := by
    have hqueue : subscribersOf (s.request params).reqQueue =
        subscribersOf s.reqQueue ++ [s.subscribers.length] := subscribersOf_append ..
    rw [hqueue, List.mem_append, List.mem_singleton] at hi
    rw [State.request, List.length_append, List.length_singleton]
    rcases hi with hold | rfl
    · have := h.queued i hold
      omega
    · omega
  inFlight batch hbatch i hi := by
    have := h.inFlight batch hbatch i hi
    rw [State.request, List.length_append, List.length_singleton]
    omega
  failed batch hbatch i hi := by
    obtain ⟨sub, hsub, hne⟩ := h.failed batch hbatch i hi
    have hlt := (List.getElem?_eq_some_iff.mp hsub).1
    exact ⟨sub, (List.getElem?_append_left hlt).trans hsub, hne⟩

/-- A subscriber that waits keeps the shared observable connected. -/
theorem connected {i : Nat} {sub : Subscriber} (hi : s.subscribers[i]? = some sub)
    (hwaiting : sub.outcome = .waiting) : s.Connected :=
  ⟨sub, List.mem_of_getElem? hi, hwaiting⟩

theorem emitQueue (h : Sound s) : Sound s.emitQueue := by
  unfold State.emitQueue
  split
  · exact h
  · refine ⟨h.completed, fun i sub hi hwaiting => ?_, fun i hi => (nomatch hi), ?_, h.failed⟩
    · have hconnected : s.Connected := connected hi hwaiting
      dsimp only
      rw [if_pos hconnected]
      rcases h.waiting i sub hi hwaiting with hqueued | ⟨batch, hbatch, hmem⟩ | hanswered
      · exact Or.inr (Or.inl ⟨_, List.mem_concat_self, hqueued⟩)
      · exact Or.inr (Or.inl ⟨batch, List.mem_append_left _ hbatch, hmem⟩)
      · exact Or.inr (Or.inr hanswered)
    · intro batch hbatch i hi
      dsimp only at hbatch
      split at hbatch
      · rcases List.mem_append.mp hbatch with hold | hnew
        · exact h.inFlight batch hold i hi
        · obtain rfl := List.mem_singleton.mp hnew
          exact h.queued i hi
      · exact h.inFlight batch hbatch i hi

theorem release (h : Sound s) : Sound s.release := by
  unfold State.release
  split
  · exact h
  · next hnone =>
      refine ⟨h.completed, fun i sub hi hwaiting => (hnone (connected hi hwaiting)).elim,
        h.queued, fun _ hbatch => (nomatch hbatch), h.failed⟩

theorem deliver (h : Sound s) {n : Nat} {batch : List Request} (hbatch : s.inFlight[n]? = some batch)
    (result : BatchResult) : Sound (s.deliver n batch result) where
  completed sub hsub b hb := by
    obtain ⟨old, hold, rfl⟩ := List.mem_map.mp hsub
    rw [Subscriber.params_receive]
    by_cases hwaiting : old.outcome = .waiting
    · cases result with
      | success data =>
          rcases Subscriber.receive_success hwaiting data with ⟨b', hasks, heq⟩ | ⟨-, heq⟩
          · rw [heq] at hb
            obtain rfl := Outcome.completed.inj hb
            exact hasks
          · rw [heq] at hb
            exact h.completed old hold b hb
      | error e =>
          rw [Subscriber.receive_error hwaiting] at hb
          cases hb
    · rw [Subscriber.receive_of_not_waiting hwaiting] at hb
      exact h.completed old hold b hb
  waiting i sub hi hwaiting := by
    rw [State.subscribers_deliver, List.getElem?_map] at hi
    obtain ⟨old, hold, rfl⟩ := Option.map_eq_some_iff.mp hi
    obtain ⟨hbefore, hsame, data, rfl, hnone⟩ := Subscriber.waiting_of_receive hwaiting
    rw [hsame]
    rcases h.waiting i old hold hbefore with hqueued | ⟨other, hother, hmem⟩ | ⟨x, hx, hmem⟩
    · exact Or.inl hqueued
    · by_cases heq : other = batch
      · exact Or.inr (Or.inr ⟨(batch, data), List.mem_concat_self, heq ▸ hmem, hnone⟩)
      · refine Or.inr (Or.inl ⟨other, ?_, hmem⟩)
        obtain ⟨k, hk⟩ := List.mem_iff_getElem?.mp hother
        refine List.mem_eraseIdx_iff_getElem?.mpr ⟨k, fun hkn => heq ?_, hk⟩
        rw [hkn, hbatch] at hk
        exact (Option.some.inj hk).symm
    · exact Or.inr (Or.inr ⟨x, List.mem_append_left _ hx, hmem⟩)
  queued i hi := by
    rw [State.subscribers_deliver, List.length_map]
    exact h.queued i hi
  inFlight other hother i hi := by
    rw [State.subscribers_deliver, List.length_map]
    exact h.inFlight other (List.mem_of_mem_eraseIdx hother) i hi
  failed other hother i hi := by
    have hnotwaiting : ∀ old, s.subscribers[i]? = some old →
        (old.receive result).outcome ≠ .waiting →
        ∃ sub, (s.deliver n batch result).subscribers[i]? = some sub ∧ sub.outcome ≠ .waiting := by
      intro old hold hne
      refine ⟨old.receive result, ?_, hne⟩
      rw [State.subscribers_deliver, List.getElem?_map, hold]
      rfl
    have hfailed : other ∈ s.failed →
        ∃ sub, (s.deliver n batch result).subscribers[i]? = some sub ∧ sub.outcome ≠ .waiting := by
      intro hbefore
      obtain ⟨old, hold, hne⟩ := h.failed other hbefore i hi
      exact hnotwaiting old hold fun hwaiting => hne (Subscriber.waiting_of_receive hwaiting).1
    cases result with
    | success data => exact hfailed hother
    | error e =>
        rcases List.mem_append.mp hother with hbefore | hnew
        · exact hfailed hbefore
        · obtain rfl := List.mem_singleton.mp hnew
          have hlt := h.inFlight other (List.mem_of_getElem? hbatch) i hi
          refine hnotwaiting _ (List.getElem?_eq_getElem hlt) fun hwaiting => ?_
          obtain ⟨-, -, data, hdata, -⟩ := Subscriber.waiting_of_receive hwaiting
          cases hdata

theorem next (h : Sound s) (queueLimit : Nat) (a : Action) : Sound (s.next queueLimit a) := by
  cases a with
  | subscribe params =>
      dsimp only [State.next]
      split
      · exact (h.request params).emitQueue
      · exact h.request params
  | timer => exact h.emitQueue
  | settle n result =>
      dsimp only [State.next]
      split
      · next hbatch => exact (h.deliver hbatch result).release
      · exact h

end Sound

theorem sound_start : Sound start where
  completed _ hsub := (nomatch hsub)
  waiting _ _ hi := (nomatch hi)
  queued _ hi := (nomatch hi)
  inFlight _ hbatch := (nomatch hbatch)
  failed _ hbatch := (nomatch hbatch)

/-! ## Errors -/

namespace State
variable {s : State}

theorem subscribers_release : s.release.subscribers = s.subscribers := by
  unfold release
  split
  · rfl
  · rfl

theorem failed_release : s.release.failed = s.failed := by
  unfold release
  split
  · rfl
  · rfl

theorem subscribers_emitQueue : s.emitQueue.subscribers = s.subscribers := by
  unfold emitQueue
  split
  · rfl
  · rfl

theorem failed_emitQueue : s.emitQueue.failed = s.failed := by
  unfold emitQueue
  split
  · rfl
  · rfl

end State

/-- The errors of a state come from the subscribers' own batches. -/
def OwnErrors (s : State) : Prop :=
  ∀ i sub, s.subscribers[i]? = some sub → ∀ e, sub.outcome = .errored e →
    ∃ batch ∈ s.failed, i ∈ subscribersOf batch

theorem isolated_iff_ownErrors {s : State} (h : Sound s) : Isolated s ↔ OwnErrors s :=
  ⟨Isolated.errored, fun herrored => ⟨h.completed, herrored, h.waiting⟩⟩

theorem OwnErrors.request {s : State} (h : OwnErrors s) (params : BISRequestBalance) :
    OwnErrors (s.request params) := by
  intro i sub hi e he
  by_cases hlt : i < s.subscribers.length
  · rw [State.request, List.getElem?_append_left hlt] at hi
    exact h i sub hi e he
  · rw [State.request, List.getElem?_append_right (by omega)] at hi
    obtain rfl := List.mem_singleton.mp (List.mem_of_getElem? hi)
    cases he

theorem OwnErrors.emitQueue {s : State} (h : OwnErrors s) : OwnErrors s.emitQueue := by
  unfold OwnErrors
  rw [State.subscribers_emitQueue, State.failed_emitQueue]
  exact h

/-- An answer keeps the errors where they belong, and so does a failure that meets only
the subscribers of its batch. -/
theorem ownErrors_deliver_iff {s : State} (hsound : Sound s) (h : OwnErrors s) {n : Nat}
    {batch : List Request} (hbatch : s.inFlight[n]? = some batch) (result : BatchResult) :
    OwnErrors (s.deliver n batch result) ↔ FailsAlone s (.settle n result) := by
  cases result with
  | success data =>
      refine iff_of_true (fun i sub hi e he => ?_) trivial
      rw [State.subscribers_deliver, List.getElem?_map] at hi
      obtain ⟨old, hold, rfl⟩ := Option.map_eq_some_iff.mp hi
      by_cases hwaiting : old.outcome = .waiting
      · rcases Subscriber.receive_success hwaiting data with ⟨b, -, heq⟩ | ⟨-, heq⟩
        · rw [heq] at he
          cases he
        · rw [heq, hwaiting] at he
          cases he
      · rw [Subscriber.receive_of_not_waiting hwaiting] at he
        exact h i old hold e he
  | error error =>
      constructor
      · intro hown other hother i hlt hwaits
        obtain rfl := Option.some.inj (hbatch.symm.trans hother)
        obtain ⟨old, hold, hwaiting⟩ := Option.map_eq_some_iff.mp hwaits
        have hi : (s.deliver n batch (.error error)).subscribers[i]? =
            some { old with outcome := .errored error } := by
          rw [State.subscribers_deliver, List.getElem?_map, hold, Option.map_some,
            Subscriber.receive_error hwaiting]
        obtain ⟨other, hother, hmem⟩ := hown i _ hi error rfl
        -- of no batch that has failed before, since it still waits
        rcases List.mem_append.mp hother with hbefore | hnew
        · obtain ⟨sub, hsub, hne⟩ := hsound.failed other hbefore i hmem
          obtain rfl := Option.some.inj (hold.symm.trans hsub)
          exact (hne hwaiting).elim
        · obtain rfl := List.mem_singleton.mp hnew
          exact hmem
      · intro halone i sub hi e he
        rw [State.subscribers_deliver, List.getElem?_map] at hi
        obtain ⟨old, hold, rfl⟩ := Option.map_eq_some_iff.mp hi
        by_cases hwaiting : old.outcome = .waiting
        · have hlt := (List.getElem?_eq_some_iff.mp hold).1
          have hwaits : (s.subscribers[i]?.map Subscriber.outcome) = some .waiting := by
            rw [hold, Option.map_some, hwaiting]
          exact ⟨batch, List.mem_concat_self, halone batch hbatch i hlt hwaits⟩
        · rw [Subscriber.receive_of_not_waiting hwaiting] at he
          obtain ⟨other, hother, hmem⟩ := h i old hold e he
          exact ⟨other, List.mem_append_left _ hother, hmem⟩

/-- One action keeps the subscribers isolated if it is no failure that others wait at. -/
theorem isolated_next_iff {s : State} (hsound : Sound s) (h : Isolated s) (queueLimit : Nat)
    (a : Action) : Isolated (s.next queueLimit a) ↔ FailsAlone s a := by
  rw [isolated_iff_ownErrors (hsound.next queueLimit a)]
  have hown : OwnErrors s := h.errored
  cases a with
  | subscribe params =>
      refine iff_of_true ?_ trivial
      dsimp only [State.next]
      split
      · exact (hown.request params).emitQueue
      · exact hown.request params
  | timer => exact iff_of_true hown.emitQueue trivial
  | settle n result =>
      dsimp only [State.next]
      split
      · next batch hbatch =>
          rw [← ownErrors_deliver_iff hsound hown hbatch result]
          unfold OwnErrors
          rw [State.subscribers_release, State.failed_release]
      · next hnone =>
          refine iff_of_true hown ?_
          cases result with
          | success data => exact trivial
          | error e =>
              intro batch hbatch
              rw [hnone] at hbatch
              cases hbatch

/-- **Subscribers are isolated as long as a batch fails only when nobody waits for
another one.**  In every state of a run, for any requests, groupings and answers. -/
theorem isolated_iff (queueLimit : Nat) (actions : List Action) :
    (machine queueLimit).Along (fun s a => Isolated (s.next queueLimit a)) start actions ↔
      (machine queueLimit).Along FailsAlone start actions :=
  Machine.along_congr_of_invariant (fun s => Sound s ∧ Isolated s)
    (fun _ a h hisolated => ⟨h.1.next queueLimit a, hisolated⟩)
    (fun _ a h => isolated_next_iff h.1 h.2 queueLimit a)
    ⟨sound_start, (isolated_iff_ownErrors sound_start).mpr fun _ _ hi => (nomatch hi)⟩

end BalanceQueue

/-! ## Two batches of one request -/

namespace Sample
open BalanceQueue

def requestOf (pkscript : String) : BISRequestBalance := ⟨pkscript.toList, 800001, "ORDI".toList⟩

/-- Two batches are in flight, and the first one fails. -/
def twoQueries : List BalanceQueue.Action :=
  [.subscribe (requestOf "51200a"), .subscribe (requestOf "51200b"),
    .settle 0 (.error "Response code 502".toList)]

/-- **The failure ends the subscriber of the other batch.** -/
theorem other_batch_errored :
    ((BalanceQueue.machine 1).run BalanceQueue.start twoQueries).subscribers.map
        Subscriber.outcome = [.errored "Response code 502".toList,
      .errored "Response code 502".toList] ∧
    ((BalanceQueue.machine 1).run BalanceQueue.start twoQueries).failed =
      [[⟨0, requestOf "51200a"⟩]] ∧
    ¬ Isolated ((BalanceQueue.machine 1).run BalanceQueue.start twoQueries) := by
  have hrun : (BalanceQueue.machine 1).run BalanceQueue.start twoQueries =
      { subscribers := [⟨requestOf "51200a", .errored "Response code 502".toList⟩,
          ⟨requestOf "51200b", .errored "Response code 502".toList⟩]
        reqQueue := []
        inFlight := []
        failed := [[⟨0, requestOf "51200a"⟩]]
        answered := [] } := by decide +kernel
  rw [hrun]
  refine ⟨rfl, rfl, fun hisolated => ?_⟩
  obtain ⟨batch, hbatch, hmem⟩ := hisolated.errored 1 _ rfl _ rfl
  obtain rfl := List.mem_singleton.mp hbatch
  exact absurd hmem (by decide)

end Sample
end BitcoinOracle
