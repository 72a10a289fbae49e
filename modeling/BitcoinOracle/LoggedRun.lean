import Mathlib.Data.List.Basic

/-! # Runs that keep a log

A `Machine` goes from state to state as inputs arrive, and each step may append
entries to a log.  Nothing is fixed about either, except that both are determined
by the state and the input.

Two rules say how facts about one step become facts about a run.
`history_invariant` carries a relation between the log so far and the state;
`run_invariant` is the case that forgets the log.  Both ask for the step only where
`Ok` holds of the state and the input, and of a run that it does at every step
(`Along`).  `history_of_step` and `run_of_step` are the cases of every state and input.
-/

/-- A deterministic machine whose steps write a log. -/
structure Machine (σ α ε : Type*) where
  next : σ → α → σ
  log : σ → α → List ε

namespace Machine
variable {σ α ε : Type*} (M : Machine σ α ε)

/-- The state after a list of inputs. -/
def run (s : σ) (as : List α) : σ := as.foldl M.next s

/-- The log a list of inputs writes. -/
def history : σ → List α → List ε
  | _, [] => []
  | s, a :: as => M.log s a ++ history (M.next s a) as

@[simp] theorem run_nil (s : σ) : M.run s [] = s := rfl

theorem run_cons (s : σ) (a : α) (as : List α) : M.run s (a :: as) = M.run (M.next s a) as := rfl

theorem run_append (s : σ) (as bs : List α) : M.run s (as ++ bs) = M.run (M.run s as) bs :=
  List.foldl_append

@[simp] theorem history_nil (s : σ) : M.history s [] = [] := rfl

theorem history_cons (s : σ) (a : α) (as : List α) :
    M.history s (a :: as) = M.log s a ++ M.history (M.next s a) as := rfl

theorem history_append (s : σ) (as bs : List α) :
    M.history s (as ++ bs) = M.history s as ++ M.history (M.run s as) bs := by
  induction as generalizing s with
  | nil => rfl
  | cons a as ih => rw [List.cons_append, history_cons, ih, history_cons, run_cons,
      List.append_assoc]

/-- Every input of the list satisfies `Ok` in the state it arrives in. -/
def Along (Ok : σ → α → Prop) : σ → List α → Prop
  | _, [] => True
  | s, a :: as => Ok s a ∧ Along Ok (M.next s a) as

variable {M} {Ok : σ → α → Prop} {s : σ} {as : List α}

theorem along_of_forall (h : ∀ a ∈ as, ∀ s, Ok s a) : M.Along Ok s as := by
  induction as generalizing s with
  | nil => trivial
  | cons a as ih =>
      exact ⟨h a List.mem_cons_self s, ih fun b hb => h b (List.mem_cons_of_mem a hb)⟩

theorem along_append {bs : List α} :
    M.Along Ok s (as ++ bs) ↔ M.Along Ok s as ∧ M.Along Ok (M.run s as) bs := by
  induction as generalizing s with
  | nil => exact (and_iff_right trivial).symm
  | cons a as ih => exact (and_congr_right fun _ => ih).trans and_assoc.symm

theorem Along.mono {Ok' : σ → α → Prop} (h : M.Along Ok s as)
    (himp : ∀ s, ∀ a ∈ as, Ok s a → Ok' s a) : M.Along Ok' s as := by
  induction as generalizing s with
  | nil => trivial
  | cons a as ih =>
      exact ⟨himp s a List.mem_cons_self h.1,
        ih h.2 fun t b hb => himp t b (List.mem_cons_of_mem a hb)⟩

theorem Along.congr {Ok' Ok'' : σ → α → Prop} (h : M.Along Ok s as)
    (hiff : ∀ s a, Ok s a → (Ok' s a ↔ Ok'' s a)) : M.Along Ok' s as ↔ M.Along Ok'' s as := by
  induction as generalizing s with
  | nil => rfl
  | cons a as ih => exact and_congr (hiff s a h.1) (ih h.2)

theorem along_and {Ok' : σ → α → Prop} :
    M.Along (fun s a => Ok s a ∧ Ok' s a) s as ↔ M.Along Ok s as ∧ M.Along Ok' s as := by
  induction as generalizing s with
  | nil => exact (and_iff_right trivial).symm
  | cons a as ih => exact (and_congr_right fun _ => ih).trans and_and_and_comm

/-- What holds of all entries holds of those of every step. -/
theorem along_log {S : ε → Prop} (h : ∀ e ∈ M.history s as, S e) :
    M.Along (fun s a => ∀ e ∈ M.log s a, S e) s as := by
  induction as generalizing s with
  | nil => trivial
  | cons a as ih =>
      rw [history_cons] at h
      exact ⟨fun e he => h e (List.mem_append_left _ he),
        ih fun e he => h e (List.mem_append_right _ he)⟩

/-- **A relation between the log so far and the state, kept by every step, holds
after every run.** -/
theorem history_invariant (Inv : List ε → σ → Prop) {h : List ε}
    (hstep : ∀ h s a, Ok s a → Inv h s → Inv (h ++ M.log s a) (M.next s a))
    (hok : M.Along Ok s as) (hinv : Inv h s) : Inv (h ++ M.history s as) (M.run s as) := by
  induction as generalizing s h with
  | nil =>
      rw [history_nil, List.append_nil]
      exact hinv
  | cons a as ih =>
      rw [history_cons, ← List.append_assoc]
      exact ih hok.2 (hstep h s a hok.1 hinv)

/-- **What every step keeps, every run keeps.** -/
theorem run_invariant (Inv : σ → Prop) (hstep : ∀ s a, Ok s a → Inv s → Inv (M.next s a))
    (hok : M.Along Ok s as) (hinv : Inv s) : Inv (M.run s as) :=
  history_invariant (h := []) (fun _ s => Inv s) (fun _ s a ha hs => hstep s a ha hs) hok hinv

variable (M) in
/-- What every step keeps, whatever the input, holds after every run. -/
theorem history_of_step (Inv : List ε → σ → Prop)
    (hstep : ∀ h s a, Inv h s → Inv (h ++ M.log s a) (M.next s a)) {s : σ} (hinv : Inv [] s)
    (as : List α) : Inv (M.history s as) (M.run s as) := by
  have hany : M.Along (fun _ _ => True) s as := along_of_forall fun _ _ _ => trivial
  exact history_invariant (h := []) Inv (fun h s a _ hs => hstep h s a hs) hany hinv

variable (M) in
theorem run_of_step (Inv : σ → Prop) (hstep : ∀ s a, Inv s → Inv (M.next s a)) {s : σ}
    (hinv : Inv s) (as : List α) : Inv (M.run s as) :=
  M.history_of_step (fun _ s => Inv s) (fun _ => hstep) hinv as

/-- What every step keeps also holds where a step starts. -/
theorem along_invariant (Inv : σ → Prop) (hstep : ∀ s a, Ok s a → Inv s → Inv (M.next s a))
    (hok : M.Along Ok s as) (hinv : Inv s) : M.Along (fun s a => Ok s a ∧ Inv s) s as := by
  induction as generalizing s with
  | nil => trivial
  | cons a as ih => exact ⟨⟨hok.1, hinv⟩, ih hok.2 (hstep s a hok.1 hinv)⟩

/-- Two conditions on the steps that agree where an invariant holds, which one of them
keeps. -/
theorem along_congr_of_invariant {Ok' : σ → α → Prop} (Inv : σ → Prop)
    (hstep : ∀ s a, Inv s → Ok s a → Inv (M.next s a))
    (hiff : ∀ s a, Inv s → (Ok s a ↔ Ok' s a)) (hinv : Inv s) :
    M.Along Ok s as ↔ M.Along Ok' s as := by
  induction as generalizing s with
  | nil => rfl
  | cons a as ih =>
      by_cases hok : Ok s a
      · exact and_congr (hiff s a hinv) (ih (hstep s a hinv hok))
      · exact iff_of_false (fun h => hok h.1) fun h => hok ((hiff s a hinv).mpr h.1)

end Machine
