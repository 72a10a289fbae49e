import BitcoinOracle.BalanceQueue

/-! # Batching by size and by time

`windowTimeSize` collects what its source pushes, and emits the queue as one batch when
it has reached its limit and when its timer fires.  Every push arms the timer anew.  A
batch that goes out by size leaves the timer running, and it then finds an empty queue,
or one that a later push has armed it for.

Nothing is lost in between, over every order of pushes and firings
(`lossless_windowTimeSize`).  The queue of balances, where the timer may fire at any
moment, is this operator: while it has no timer its queue is empty
(`exists_run_of_balanceQueue`).
-/
namespace BitcoinOracle
namespace RequestBatching

/-! ## The operator -/

/-- The variables of the operator, and the event loop's timers. -/
structure State (T : Type) where
  reqQueue : List T
  /-- The handle of the last `setTimeout`. -/
  timer : Option Nat
  /-- The timers that are to fire. -/
  armed : List Nat
  /-- The handle of the next `setTimeout`. -/
  handle : Nat
  deriving DecidableEq

def start {T : Type} : State T := ⟨[], none, [], 0⟩

inductive Action (T : Type) where
  | push (req : T)
  | fire (handle : Nat)
  deriving DecidableEq

/-- What the source has pushed. -/
def pushed {T : Type} : List (Action T) → List T
  | [] => []
  | .push req :: as => req :: pushed as
  | .fire _ :: as => pushed as

namespace State
variable {T : Type} (queueLimit : Nat) (s : State T)

def clearTimeout : State T := { s with armed := s.armed.filter fun h => some h ≠ s.timer }

def setTimeout : State T :=
  { s with timer := some s.handle, armed := s.armed ++ [s.handle], handle := s.handle + 1 }

/-- The state afterwards, and the batch that is emitted. -/
def emitQueue : State T × List (List T) :=
  if s.reqQueue.isEmpty then (s, []) else ({ s with reqQueue := [] }, [s.reqQueue])

/-- `next`, of the subscription to the source. -/
def push (req : T) : State T × List (List T) :=
  let s := s.clearTimeout.setTimeout
  let s := { s with reqQueue := s.reqQueue ++ [req] }
  if queueLimit ≤ s.reqQueue.length then s.emitQueue else (s, [])

/-- The event loop fires the timers that are armed, and no other ones. -/
def fire (handle : Nat) : State T × List (List T) :=
  if handle ∈ s.armed then { s with armed := s.armed.erase handle }.emitQueue else (s, [])

def step : Action T → State T × List (List T)
  | .push req => s.push queueLimit req
  | .fire handle => s.fire handle

end State

/-- `windowTimeSize`.  Its log is what it has emitted. -/
def windowTimeSize (T : Type) (queueLimit : Nat) : Machine (State T) (Action T) (List T) where
  next s a := (s.step queueLimit a).1
  log s a := (s.step queueLimit a).2

/-! ## One step -/

namespace State
variable {T : Type} {queueLimit : Nat} (s : State T)

theorem emitQueue_cases : s.reqQueue = [] ∧ s.emitQueue = (s, []) ∨
    s.reqQueue ≠ [] ∧ s.emitQueue = ({ s with reqQueue := [] }, [s.reqQueue]) := by
  by_cases h : s.reqQueue = []
  · exact Or.inl ⟨h, by simp [emitQueue, h]⟩
  · exact Or.inr ⟨h, by simp [emitQueue, h]⟩

@[simp] theorem reqQueue_emitQueue : s.emitQueue.1.reqQueue = [] := by
  rcases s.emitQueue_cases with ⟨h, heq⟩ | ⟨-, heq⟩
  · rw [heq, h]
  · rw [heq]

/-- What goes out is what leaves the queue. -/
theorem flatten_emitQueue : s.emitQueue.2.flatten = s.reqQueue := by
  rcases s.emitQueue_cases with ⟨h, heq⟩ | ⟨-, heq⟩
  · rw [heq, h]
    rfl
  · rw [heq]
    simp

/-- A batch is never empty, and it is the whole queue. -/
theorem mem_emitQueue {batch : List T} (h : batch ∈ s.emitQueue.2) :
    batch ≠ [] ∧ batch = s.reqQueue := by
  rcases s.emitQueue_cases with ⟨-, heq⟩ | ⟨hne, heq⟩
  · rw [heq] at h
    cases h
  · rw [heq] at h
    obtain rfl := List.mem_singleton.mp h
    exact ⟨hne, rfl⟩

theorem fire_of_not_armed {handle : Nat} (h : handle ∉ s.armed) : s.fire handle = (s, []) :=
  if_neg h

theorem fire_of_armed {handle : Nat} (h : handle ∈ s.armed) :
    s.fire handle = { s with armed := s.armed.erase handle }.emitQueue := if_pos h

variable (queueLimit) in
/-- **What a push does.**  The request is at the end of the queue with a timer armed for
it, and the queue goes out if it is long enough. -/
theorem push_cases (req : T) : ∃ t : State T, t.reqQueue = s.reqQueue ++ [req] ∧
    (∃ h ∈ t.armed, t.timer = some h) ∧
    (queueLimit ≤ t.reqQueue.length ∧ s.push queueLimit req = t.emitQueue ∨
      t.reqQueue.length < queueLimit ∧ s.push queueLimit req = (t, [])) := by
  refine ⟨{ s.clearTimeout.setTimeout with reqQueue := s.reqQueue ++ [req] }, rfl,
    ⟨s.handle, by simp [setTimeout, clearTimeout], rfl⟩, ?_⟩
  by_cases h : queueLimit ≤ (s.reqQueue ++ [req]).length
  · exact Or.inl ⟨h, if_pos h⟩
  · exact Or.inr ⟨Nat.lt_of_not_le h, if_neg h⟩

/-- A step moves requests from the queue to its log, and loses none. -/
theorem flatten_step (a : Action T) :
    (s.step queueLimit a).2.flatten ++ (s.step queueLimit a).1.reqQueue =
      s.reqQueue ++ pushed [a] := by
  cases a with
  | push req =>
      obtain ⟨t, hqueue, -, ⟨-, heq⟩ | ⟨-, heq⟩⟩ := s.push_cases queueLimit req
      · simp [step, heq, flatten_emitQueue, hqueue, pushed]
      · simp [step, heq, hqueue, pushed]
  | fire handle =>
      by_cases harmed : handle ∈ s.armed
      · simp [step, s.fire_of_armed harmed, flatten_emitQueue, pushed]
      · simp [step, s.fire_of_not_armed harmed, pushed]

end State

/-! ## Every run -/

theorem pushed_cons {T : Type} (a : Action T) (as : List (Action T)) :
    pushed (a :: as) = pushed [a] ++ pushed as := by
  cases a <;> rfl

/-- What holds between two steps.  The queue is shorter than the limit, because a push
that has filled it has sent it out. -/
structure Batching {T : Type} (queueLimit : Nat) (emitted : List (List T)) (s : State T) :
    Prop where
  sized : ∀ batch ∈ emitted, batch ≠ [] ∧ batch.length ≤ queueLimit
  room : s.reqQueue.length < queueLimit
  armed : s.reqQueue ≠ [] → ∃ h ∈ s.armed, s.timer = some h

section
variable {T : Type} {queueLimit : Nat}

theorem Batching.emitQueue {emitted : List (List T)} {s : State T}
    (hsized : ∀ batch ∈ emitted, batch ≠ [] ∧ batch.length ≤ queueLimit)
    (hlength : s.reqQueue.length ≤ queueLimit) (hlimit : 1 ≤ queueLimit) :
    Batching queueLimit (emitted ++ s.emitQueue.2) s.emitQueue.1 where
  sized batch hbatch := by
    rcases List.mem_append.mp hbatch with hold | hnew
    · exact hsized batch hold
    · obtain ⟨hne, rfl⟩ := s.mem_emitQueue hnew
      exact ⟨hne, hlength⟩
  room := by
    rw [s.reqQueue_emitQueue]
    exact hlimit
  armed hne := absurd s.reqQueue_emitQueue hne

theorem Batching.step {emitted : List (List T)} {s : State T}
    (h : Batching queueLimit emitted s) (a : Action T) :
    Batching queueLimit (emitted ++ (s.step queueLimit a).2) (s.step queueLimit a).1 := by
  have hlimit : 1 ≤ queueLimit := Nat.one_le_of_lt h.room
  cases a with
  | push req =>
      obtain ⟨t, hqueue, harmed, ⟨-, heq⟩ | ⟨hroom, heq⟩⟩ := s.push_cases queueLimit req
      · -- a queue that was shorter than the limit has at most reached it
        have hlength : t.reqQueue.length ≤ queueLimit := by
          have := h.room
          rw [hqueue, List.length_append, List.length_singleton]
          omega
        rw [State.step, heq]
        exact Batching.emitQueue h.sized hlength hlimit
      · rw [State.step, heq, List.append_nil]
        exact ⟨h.sized, hroom, fun _ => harmed⟩
  | fire handle =>
      by_cases harmed : handle ∈ s.armed
      · rw [State.step, s.fire_of_armed harmed]
        exact Batching.emitQueue h.sized (Nat.le_of_lt h.room) hlimit
      · rw [State.step, s.fire_of_not_armed harmed, List.append_nil]
        exact h

theorem batching_run (hlimit : 1 ≤ queueLimit) (as : List (Action T)) :
    Batching queueLimit ((windowTimeSize T queueLimit).history start as)
      ((windowTimeSize T queueLimit).run start as) :=
  have hstart : Batching queueLimit [] (start : State T) := ⟨by simp, hlimit, by simp [start]⟩
  Machine.history_of_step _ (Batching queueLimit) (fun _ _ a h => h.step a) hstart as

theorem flatten_history (s : State T) (as : List (Action T)) :
    ((windowTimeSize T queueLimit).history s as).flatten ++
      ((windowTimeSize T queueLimit).run s as).reqQueue = s.reqQueue ++ pushed as := by
  induction as generalizing s with
  | nil => simp [pushed]
  | cons a as ih =>
      calc _ = (s.step queueLimit a).2.flatten ++
              ((s.step queueLimit a).1.reqQueue ++ pushed as) := by
            rw [Machine.history_cons, List.flatten_append, List.append_assoc, Machine.run_cons, ih]
            rfl
        _ = s.reqQueue ++ pushed (a :: as) := by
            rw [← List.append_assoc, s.flatten_step, List.append_assoc, ← pushed_cons]

end

/-- **Batching is lossless.**  At every moment of every run, the batches emitted so far
and then the queue are what has been pushed, no batch is empty or longer than the limit,
and a timer is armed for whatever is queued. -/
theorem lossless_windowTimeSize {T : Type} (queueLimit : Nat) (hlimit : 1 ≤ queueLimit)
    (as : List (Action T)) :
    let emitted := (windowTimeSize T queueLimit).history start as
    let s := (windowTimeSize T queueLimit).run start as
    emitted.flatten ++ s.reqQueue = pushed as ∧
      (∀ batch ∈ emitted, batch ≠ [] ∧ batch.length ≤ queueLimit) ∧
      (s.reqQueue ≠ [] → ∃ handle ∈ s.armed, s.timer = some handle) := by
  have hbatching := batching_run hlimit as
  exact ⟨flatten_history start as, hbatching.sized, hbatching.armed⟩

/-- The second request fills the queue, its timer finds nothing, and the third one waits. -/
theorem lossless_windowTimeSize_three :
    (windowTimeSize Nat 2).history start [.push 5, .push 6, .fire 1, .push 7] = [[5, 6]] ∧
      (windowTimeSize Nat 2).run start [.push 5, .push 6, .fire 1, .push 7] =
        ⟨[7], some 2, [2], 3⟩ ∧
      [[5, 6]].flatten ++ [7] = pushed [.push 5, .push 6, .fire 1, .push 7] ∧
      ∃ handle ∈ [2], some 2 = some handle :=
  have h := lossless_windowTimeSize 2 (by decide) [.push 5, .push 6, .fire 1, .push 7]
  ⟨by decide, by decide, h.1, h.2.2 (by decide)⟩

/-- A firing of the timer leaves nothing behind. -/
theorem reqQueue_fire {T : Type} {s : State T} {handle : Nat} (h : handle ∈ s.armed) :
    (s.fire handle).1.reqQueue = [] := by
  rw [s.fire_of_armed h, State.reqQueue_emitQueue]

/-! ## The queue of balances -/

section
open BalanceQueue (BISRequestBalance Request)
variable {queueLimit : Nat} {s : State Request} {t : BalanceQueue.State}

theorem reqQueue_subscribe (h : s.reqQueue = t.reqQueue) (params : BISRequestBalance) :
    (s.push queueLimit ⟨t.subscribers.length, params⟩).1.reqQueue =
      (t.next queueLimit (.subscribe params)).reqQueue := by
  obtain ⟨u, hqueue, -, hcases⟩ :=
    s.push_cases queueLimit ⟨t.subscribers.length, params⟩
  have hsame : u.reqQueue = (t.request params).reqQueue := by
    rw [hqueue, h]
    rfl
  rw [hsame] at hcases
  rcases hcases with ⟨hle, heq⟩ | ⟨hlt, heq⟩
  · rw [heq, BalanceQueue.State.next, if_pos hle, State.reqQueue_emitQueue,
      BalanceQueue.State.emitQueue]
    split <;> simp_all
  · rw [heq, BalanceQueue.State.next, if_neg (Nat.not_le.mpr hlt), hsame]

variable (queueLimit t) in
theorem reqQueue_timer : (t.next queueLimit .timer).reqQueue = [] := by
  rw [BalanceQueue.State.next, BalanceQueue.State.emitQueue]
  split <;> simp_all

variable (queueLimit t) in
theorem reqQueue_settle (n : Nat) (result : BalanceQueue.BatchResult) :
    (t.next queueLimit (.settle n result)).reqQueue = t.reqQueue := by
  rw [BalanceQueue.State.next]
  split
  · rw [BalanceQueue.State.release]
    split <;> rfl
  · rfl

/-- **The queue of balances is this operator.**  Its timer fires at any moment, which is
no more than the armed one does: an unarmed queue is empty. -/
theorem exists_run_of_balanceQueue (hlimit : 1 ≤ queueLimit) (as : List BalanceQueue.Action) :
    ∃ bs, ((windowTimeSize Request queueLimit).run start bs).reqQueue =
      ((BalanceQueue.machine queueLimit).run BalanceQueue.start as).reqQueue := by
  refine Machine.run_of_step (BalanceQueue.machine queueLimit) (fun t => ∃ bs,
    ((windowTimeSize Request queueLimit).run start bs).reqQueue = t.reqQueue) ?_ ⟨[], rfl⟩ as
  rintro t a ⟨bs, hbs⟩
  cases a with
  | subscribe params =>
      refine ⟨bs ++ [.push ⟨t.subscribers.length, params⟩], ?_⟩
      rw [Machine.run_append]
      exact reqQueue_subscribe hbs params
  | timer =>
      by_cases hempty : ((windowTimeSize Request queueLimit).run start bs).reqQueue = []
      · exact ⟨bs, hempty.trans (reqQueue_timer queueLimit t).symm⟩
      · obtain ⟨handle, harmed, -⟩ := (batching_run hlimit bs).armed hempty
        refine ⟨bs ++ [.fire handle], ?_⟩
        rw [Machine.run_append]
        exact (reqQueue_fire harmed).trans (reqQueue_timer queueLimit t).symm
  | settle n result => exact ⟨bs, hbs.trans (reqQueue_settle queueLimit t n result).symm⟩

end

end RequestBatching
end BitcoinOracle
