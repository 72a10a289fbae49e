import Mathlib.Logic.Function.Basic

/-! # Clarity calls

A Clarity function that answers with a response ends in one of three ways: with
`(ok v)`, with `(err code)`, or by a run-time error, which no caller can catch
and which aborts the whole transaction.  `Result` is that trichotomy, `Call` a
function that moreover reads and writes contract state.

An error does not by itself undo what was written before it.  State is rolled
back where Clarity rolls it back: around every *public* function
(`Call.transaction`).  `try!` is the monadic bind, `asserts!`, `unwrap!` and
`unwrap-panic` are `asserts`, `unwrap` and `unwrapPanic`, and `fold` over a
function that takes and returns responses is `Call.fold` and `Result.fold`.
-/
namespace Clarity

/-- The run-time errors that abort a transaction. -/
inductive RuntimeError where
  | unwrapFailure
  | arithmeticOverflow
  | arithmeticUnderflow
  deriving DecidableEq

/-- How the evaluation of a function that answers with a response ends. -/
inductive Result (α : Type) where
  | ok (value : α)
  | err (code : Nat)
  | abort (error : RuntimeError)
  deriving DecidableEq

namespace Result
variable {α β : Type}

instance : Monad Result where
  pure := ok
  bind x f := match x with
    | ok a => f a
    | err e => err e
    | abort r => abort r

instance : LawfulMonad Result := LawfulMonad.mk' Result
  (fun x => by cases x <;> rfl) (fun _ _ => rfl) (fun x _ _ => by cases x <;> rfl)

@[simp] theorem pure_def (a : α) : (pure a : Result α) = ok a := rfl
@[simp] theorem ok_bind (a : α) (f : α → Result β) : (ok a >>= f) = f a := rfl
@[simp] theorem err_bind (e : Nat) (f : α → Result β) : ((err e : Result α) >>= f) = err e := rfl
@[simp] theorem abort_bind (r : RuntimeError) (f : α → Result β) :
    ((abort r : Result α) >>= f) = abort r := rfl

@[simp] theorem bind_eq_ok {x : Result α} {f : α → Result β} {b : β} :
    (x >>= f) = ok b ↔ ∃ a, x = ok a ∧ f a = ok b := by
  cases x <;> simp

theorem bind_eq_err {x : Result α} {f : α → Result β} {e : Nat} :
    (x >>= f) = err e ↔ x = err e ∨ ∃ a, x = ok a ∧ f a = err e := by
  cases x <;> simp

/-- `(asserts! p code)`. -/
def asserts (p : Prop) [Decidable p] (code : Nat) : Result Unit :=
  if p then ok () else err code

@[simp] theorem asserts_eq_ok {p : Prop} [Decidable p] {code : Nat} {u : Unit} :
    asserts p code = ok u ↔ p := by
  unfold asserts
  split <;> simp_all

theorem asserts_eq_err {p : Prop} [Decidable p] {code e : Nat} :
    asserts p code = err e ↔ ¬ p ∧ code = e := by
  unfold asserts
  split <;> simp_all

/-- `(unwrap! o code)` on an optional. -/
def unwrap (o : Option α) (code : Nat) : Result α :=
  match o with
  | some a => ok a
  | none => err code

@[simp] theorem unwrap_eq_ok {o : Option α} {code : Nat} {a : α} :
    unwrap o code = ok a ↔ o = some a := by
  cases o <;> simp [unwrap]

theorem unwrap_eq_err {o : Option α} {code e : Nat} :
    unwrap o code = err e ↔ o = none ∧ code = e := by
  cases o <;> simp [unwrap]

/-- `(unwrap-panic o)` on an optional. -/
def unwrapPanic (o : Option α) : Result α :=
  match o with
  | some a => ok a
  | none => abort .unwrapFailure

@[simp] theorem unwrapPanic_some (a : α) : unwrapPanic (some a) = ok a := rfl

@[simp] theorem unwrapPanic_eq_ok {o : Option α} {a : α} : unwrapPanic o = ok a ↔ o = some a := by
  cases o <;> simp [unwrapPanic]

/-- `(unwrap-panic r)` on a response. -/
def expect (r : Result α) : Result α :=
  match r with
  | ok a => ok a
  | err _ => abort .unwrapFailure
  | abort e => abort e

@[simp] theorem expect_ok (a : α) : expect (ok a) = ok a := rfl

@[simp] theorem expect_eq_ok {r : Result α} {a : α} : expect r = ok a ↔ r = ok a := by
  cases r <;> simp [expect]

theorem expect_ne_err {r : Result α} {e : Nat} : expect r ≠ err e := by
  cases r <;> simp [expect]

theorem unwrapPanic_ne_err {o : Option α} {e : Nat} : unwrapPanic o ≠ err e := by
  cases o <;> simp [unwrapPanic]

/-- The response itself as a value, as `is-err`, `is-ok` and `match` see it. -/
def response (r : Result α) : Result (Except Nat α) :=
  match r with
  | ok a => ok (.ok a)
  | err e => ok (.error e)
  | abort x => abort x

theorem response_eq_ok_ok {r : Result α} {a : α} : response r = ok (.ok a) ↔ r = ok a := by
  cases r <;> simp [response]

theorem response_unwrap (o : Option α) (code : Nat) :
    response (unwrap o code) = ok (o.elim (.error code) .ok) := by
  cases o <;> rfl

/-- A response value, as the answer of a function. -/
def ofResponse (r : Except Nat α) : Result α :=
  match r with
  | .ok a => ok a
  | .error e => err e

@[simp] theorem ofResponse_ok (a : α) : ofResponse (.ok a) = ok a := rfl
@[simp] theorem ofResponse_error (e : Nat) : ofResponse (.error e : Except Nat α) = err e := rfl

/-- It answers `(ok v)` or `(err code)`: no run-time error. -/
def Responds (r : Result α) : Prop := ∀ x, r ≠ abort x

@[simp] theorem responds_ok (a : α) : Responds (ok a) := fun _ => nofun
@[simp] theorem responds_err (e : Nat) : Responds (err e : Result α) := fun _ => nofun
@[simp] theorem not_responds_abort (x : RuntimeError) : ¬ Responds (abort x : Result α) :=
  fun h => h x rfl

theorem responds_bind_iff {x : Result α} {f : α → Result β} :
    Responds (x >>= f) ↔ Responds x ∧ ∀ a, x = ok a → Responds (f a) := by
  cases x <;> simp

theorem responds_response_iff {r : Result α} : Responds (response r) ↔ Responds r := by
  cases r <;> simp [response]

theorem responds_ofResponse (r : Except Nat α) : Responds (ofResponse r) := by
  cases r <;> simp

/-- `(fold f xs init)` for a function that takes and answers with a response. -/
def fold {γ : Type} (f : γ → Except Nat α → Result α) : List γ → Except Nat α → Result α
  | [], r => ofResponse r
  | x :: xs, r => do
      let r' ← (f x r).response
      fold f xs r'

end Result

/-- A function with state `σ`. -/
def Call (σ α : Type) := σ → Result α × σ

namespace Call
variable {σ τ α β γ : Type}

instance : Monad (Call σ) where
  pure a := fun s => (.ok a, s)
  bind c f := fun s => match c s with
    | (.ok a, s') => f a s'
    | (.err e, s') => (.err e, s')
    | (.abort r, s') => (.abort r, s')

/-- A function that leaves the state alone. -/
def lift (r : Result α) : Call σ α := fun s => (r, s)

/-- Reading the state. -/
def view (f : σ → α) : Call σ α := fun s => (.ok (f s), s)

/-- Writing the state. -/
def modify (f : σ → σ) : Call σ Unit := fun s => (.ok (), f s)

/-- A `begin` block run only when `p` holds, as in `(and p (begin ...))`. -/
def whenever (p : Prop) [Decidable p] (c : Call σ Unit) : Call σ Unit :=
  if p then c else pure ()

/-- A public function: unless it answers `(ok v)`, its writes are rolled back. -/
def transaction (c : Call σ α) : Call σ α := fun s =>
  match c s with
  | (.ok a, s') => (.ok a, s')
  | (.err e, _) => (.err e, s)
  | (.abort r, _) => (.abort r, s)

/-- A call on the part of the state that `get` reads and `set` writes. -/
def within (get : σ → τ) (set : τ → σ → σ) (c : Call τ α) : Call σ α := fun s =>
  ((c (get s)).1, set (c (get s)).2 s)

/-- `(fold f xs init)` for a function that takes and answers with a response. -/
def fold (f : γ → Except Nat α → Call σ α) : List γ → Except Nat α → Call σ α
  | [], r => lift (.ofResponse r)
  | x :: xs, r => fun s => match f x r s with
    | (.ok a, s') => fold f xs (.ok a) s'
    | (.err e, s') => fold f xs (.error e) s'
    | (.abort e, s') => (.abort e, s')

/-! ## When a call answers `(ok v)` -/

theorem bind_apply (c : Call σ α) (f : α → Call σ β) (s : σ) :
    (c >>= f) s = match c s with
      | (.ok a, s') => f a s'
      | (.err e, s') => (.err e, s')
      | (.abort r, s') => (.abort r, s') := rfl

@[simp] theorem pure_eq_ok {a b : α} {s s' : σ} :
    (pure a : Call σ α) s = (.ok b, s') ↔ b = a ∧ s' = s := by
  show (Result.ok a, s) = (.ok b, s') ↔ _
  simp [eq_comm]

@[simp] theorem view_eq_ok {f : σ → α} {s s' : σ} {a : α} :
    view f s = (.ok a, s') ↔ a = f s ∧ s' = s := by
  simp [view, eq_comm]

@[simp] theorem modify_eq_ok {f : σ → σ} {s s' : σ} {u : Unit} :
    modify f s = (.ok u, s') ↔ s' = f s := by
  simp [modify, eq_comm]

@[simp] theorem lift_eq_ok {r : Result α} {s s' : σ} {a : α} :
    lift r s = (.ok a, s') ↔ r = .ok a ∧ s' = s := by
  simp [lift, Prod.ext_iff, eq_comm]

theorem lift_eq_err {r : Result α} {s s' : σ} {e : Nat} :
    lift r s = (.err e, s') ↔ r = .err e ∧ s' = s := by
  simp [lift, Prod.ext_iff, eq_comm]

@[simp] theorem bind_eq_ok {c : Call σ α} {f : α → Call σ β} {s s'' : σ} {b : β} :
    (c >>= f) s = (.ok b, s'') ↔ ∃ a s', c s = (.ok a, s') ∧ f a s' = (.ok b, s'') := by
  rw [bind_apply]
  rcases c s with ⟨_ | _ | _, s'⟩ <;> simp [and_assoc]

theorem bind_eq_err {c : Call σ α} {f : α → Call σ β} {s s'' : σ} {e : Nat} :
    (c >>= f) s = (.err e, s'') ↔
      c s = (.err e, s'') ∨ ∃ a s', c s = (.ok a, s') ∧ f a s' = (.err e, s'') := by
  rw [bind_apply]
  rcases c s with ⟨_ | _ | _, s'⟩ <;> simp [and_assoc]

/-- Running a bind whose first call is known to succeed. -/
theorem whenever_of_pos {p : Prop} [Decidable p] (h : p) (c : Call σ Unit) :
    whenever p c = c := if_pos h

theorem whenever_of_neg {p : Prop} [Decidable p] (h : ¬ p) (c : Call σ Unit) :
    whenever p c = pure () := if_neg h

theorem whenever_eq_ok {p : Prop} [Decidable p] {c : Call σ Unit} {s s' : σ} {u : Unit} :
    whenever p c s = (.ok u, s') ↔ p ∧ c s = (.ok u, s') ∨ ¬ p ∧ s' = s := by
  by_cases hp : p
  · rw [whenever_of_pos hp]
    simp [hp]
  · rw [whenever_of_neg hp]
    simp [hp]

theorem whenever_eq_err {p : Prop} [Decidable p] {c : Call σ Unit} {s s' : σ} {e : Nat}
    (h : whenever p c s = (.err e, s')) : c s = (.err e, s') := by
  by_cases hp : p
  · rwa [whenever_of_pos hp] at h
  · rw [whenever_of_neg hp] at h
    cases h

@[simp] theorem transaction_eq_ok {c : Call σ α} {s s' : σ} {a : α} :
    transaction c s = (.ok a, s') ↔ c s = (.ok a, s') := by
  unfold transaction
  rcases c s with ⟨_ | _ | _, t⟩ <;> simp

theorem transaction_fst (c : Call σ α) (s : σ) : (transaction c s).1 = (c s).1 := by
  unfold transaction
  rcases c s with ⟨_ | _ | _, t⟩ <;> rfl

theorem transaction_eq_err {c : Call σ α} {s s' : σ} {e : Nat} :
    transaction c s = (.err e, s') ↔ (∃ t, c s = (.err e, t)) ∧ s' = s := by
  unfold transaction
  rcases c s with ⟨_ | _ | _, t⟩ <;> simp [eq_comm]

/-- **A public function that does not answer `(ok v)` changes nothing.** -/
theorem transaction_frame {c : Call σ α} {s : σ} (h : ∀ a, (c s).1 ≠ .ok a) :
    (transaction c s).2 = s := by
  unfold transaction
  rcases hc : c s with ⟨a | _ | _, t⟩
  · exact absurd (by rw [hc]) (h a)
  · rfl
  · rfl

@[simp] theorem within_eq_ok {get : σ → τ} {set : τ → σ → σ} {c : Call τ α} {s s' : σ} {a : α} :
    within get set c s = (.ok a, s') ↔ ∃ t, c (get s) = (.ok a, t) ∧ s' = set t s := by
  unfold within
  rcases c (get s) with ⟨r, t⟩
  simp [Prod.ext_iff, and_assoc, eq_comm]

theorem within_eq_err {get : σ → τ} {set : τ → σ → σ} {c : Call τ α} {s s' : σ} {e : Nat} :
    within get set c s = (.err e, s') ↔ ∃ t, c (get s) = (.err e, t) ∧ s' = set t s := by
  unfold within
  rcases c (get s) with ⟨r, t⟩
  simp [Prod.ext_iff, and_assoc, eq_comm]

/-! ## Calls that roll back -/

/-- Unless `c` answers `(ok v)`, it changes nothing. -/
def Atomic (c : Call σ α) : Prop := ∀ s, (∀ a, (c s).1 ≠ .ok a) → (c s).2 = s

theorem Atomic.transaction (c : Call σ α) : Atomic (transaction c) := by
  intro s h
  refine transaction_frame fun a => ?_
  rw [← transaction_fst]
  exact h a

theorem Atomic.bind_pure {c : Call σ α} (hc : Atomic c) (f : α → β) :
    Atomic (c >>= fun a => pure (f a)) := by
  intro s h
  have hs := hc s
  rw [bind_apply] at h ⊢
  rcases hcs : c s with ⟨a | _ | _, s'⟩
  · rw [hcs] at h
    exact absurd rfl (h (f a))
  · rw [hcs] at hs
    exact hs fun _ => nofun
  · rw [hcs] at hs
    exact hs fun _ => nofun

theorem Atomic.within {get : σ → τ} {set : τ → σ → σ} {c : Call τ α} (hc : Atomic c)
    (hset : ∀ s, set (get s) s = s) : Atomic (within get set c) := by
  intro s h
  have hs : (c (get s)).2 = get s := hc (get s) h
  show set (c (get s)).2 s = s
  rw [hs, hset]

/-! ## Folds over responses

Both folds of the source propagate an error unchanged, so a fold that answers
`(ok v)` answered so at every element. -/

section Fold
variable {f : γ → Except Nat α → Call σ α}

theorem fold_error (hf : ∀ x e s, f x (.error e) s = (.err e, s)) (xs : List γ) (e : Nat) (s : σ) :
    fold f xs (.error e) s = (.err e, s) := by
  induction xs with
  | nil => rfl
  | cons x xs ih => simp only [fold, hf, ih]

theorem fold_cons (x : γ) (xs : List γ) (r : Except Nat α) (s : σ) :
    fold f (x :: xs) r s = match f x r s with
      | (.ok a, s') => fold f xs (.ok a) s'
      | (.err e, s') => fold f xs (.error e) s'
      | (.abort e, s') => (.abort e, s') := rfl

theorem fold_cons_eq_ok (hf : ∀ x e s, f x (.error e) s = (.err e, s))
    {x : γ} {xs : List γ} {r : Except Nat α} {a : α} {s s'' : σ} :
    fold f (x :: xs) r s = (.ok a, s'') ↔
      ∃ b s', f x r s = (.ok b, s') ∧ fold f xs (.ok b) s' = (.ok a, s'') := by
  rw [fold_cons]
  rcases f x r s with ⟨_ | _ | _, s'⟩ <;> simp [fold_error hf, and_assoc]

theorem fold_cons_eq_err (hf : ∀ x e s, f x (.error e) s = (.err e, s))
    {x : γ} {xs : List γ} {r : Except Nat α} {e : Nat} {s s'' : σ} :
    fold f (x :: xs) r s = (.err e, s'') ↔
      f x r s = (.err e, s'') ∨
        ∃ b s', f x r s = (.ok b, s') ∧ fold f xs (.ok b) s' = (.err e, s'') := by
  rw [fold_cons]
  rcases f x r s with ⟨_ | _ | _, s'⟩ <;> simp [fold_error hf, and_assoc]

/-- A fold that does not answer `(ok v)` has a first element that does not, and answers
what that element does. -/
theorem fold_first_failure (hf : ∀ x e s, f x (.error e) s = (.err e, s)) {xs : List γ} {a : α}
    {s : σ} (h : ∀ b, (fold f xs (.ok a) s).1 ≠ .ok b) :
    ∃ pre x post b s', xs = pre ++ x :: post ∧ fold f pre (.ok a) s = (.ok b, s') ∧
      (∀ c, (f x (.ok b) s').1 ≠ .ok c) ∧ (fold f xs (.ok a) s).1 = (f x (.ok b) s').1 := by
  induction xs generalizing a s with
  | nil => exact absurd rfl (h a)
  | cons x xs ih =>
      rw [fold_cons] at h ⊢
      rcases hx : f x (.ok a) s with ⟨b | e | y, s₁⟩
      · -- the first element passes, so the failure is further on
        rw [hx] at h
        obtain ⟨pre, x', post, c, s', rfl, hpre, hfail, hans⟩ := ih h
        refine ⟨x :: pre, x', post, c, s', rfl, ?_, hfail, hans⟩
        rw [fold_cons, hx]
        exact hpre
      · refine ⟨[], x, xs, a, s, rfl, rfl, ?_, ?_⟩
        · rw [hx]
          nofun
        · rw [hx]
          exact congrArg Prod.fst (fold_error hf xs e s₁)
      · refine ⟨[], x, xs, a, s, rfl, rfl, ?_, ?_⟩
        · rw [hx]
          nofun
        · rw [hx]

end Fold

/-! ## The error codes a call can answer with -/

/-- Every error code `c` can answer with satisfies `P`. -/
def RaisesOnly (P : Nat → Prop) (c : Call σ α) : Prop :=
  ∀ s e s', c s = (.err e, s') → P e

section RaisesOnly
variable {P : Nat → Prop}

theorem RaisesOnly.bind {c : Call σ α} {f : α → Call σ β} (hc : RaisesOnly P c)
    (hf : ∀ a, RaisesOnly P (f a)) : RaisesOnly P (c >>= f) := by
  intro s e s' h
  rcases bind_eq_err.mp h with h | ⟨a, t, -, h⟩
  · exact hc s e s' h
  · exact hf a t e s' h

theorem RaisesOnly.pure (a : α) : RaisesOnly P (pure a : Call σ α) := by
  intro s e s' h
  cases h

theorem RaisesOnly.view (f : σ → α) : RaisesOnly P (view f) := by
  intro s e s' h
  cases h

theorem RaisesOnly.modify (f : σ → σ) : RaisesOnly P (modify f) := by
  intro s e s' h
  cases h

theorem RaisesOnly.lift {r : Result α} (h : ∀ e, r = .err e → P e) :
    RaisesOnly P (lift r : Call σ α) :=
  fun _ e _ he => h e (lift_eq_err.mp he).1

theorem RaisesOnly.asserts {p : Prop} [Decidable p] {code : Nat} (h : P code) :
    RaisesOnly P (Call.lift (.asserts p code) : Call σ Unit) :=
  .lift fun _ he => (Result.asserts_eq_err.mp he).2 ▸ h

theorem RaisesOnly.whenever {p : Prop} [Decidable p] {c : Call σ Unit} (hc : RaisesOnly P c) :
    RaisesOnly P (whenever p c) :=
  fun s e s' h => hc s e s' (whenever_eq_err h)

theorem RaisesOnly.transaction {c : Call σ α} (hc : RaisesOnly P c) :
    RaisesOnly P (transaction c) := by
  intro s e s' h
  obtain ⟨⟨t, ht⟩, -⟩ := transaction_eq_err.mp h
  exact hc s e t ht

theorem RaisesOnly.within {get : σ → τ} {set : τ → σ → σ} {c : Call τ α} (hc : RaisesOnly P c) :
    RaisesOnly P (within get set c) := by
  intro s e s' h
  obtain ⟨t, ht, -⟩ := within_eq_err.mp h
  exact hc _ e t ht

theorem RaisesOnly.fold {f : γ → Except Nat α → Call σ α}
    (hf : ∀ x e s, f x (.error e) s = (.err e, s)) (hc : ∀ x a, RaisesOnly P (f x (.ok a)))
    (xs : List γ) (a : α) : RaisesOnly P (Call.fold f xs (.ok a)) := by
  induction xs generalizing a with
  | nil =>
      intro s e s' h
      cases h
  | cons x xs ih =>
      intro s e s' h
      rcases (fold_cons_eq_err hf).mp h with h | ⟨b, t, -, h⟩
      · exact hc x a s e s' h
      · exact ih b t e s' h

end RaisesOnly

/-! ## What a call leaves true of the state -/

/-- `c` keeps `I`, however it ends. -/
def Keeps (I : σ → Prop) (c : Call σ α) : Prop := ∀ s, I s → I (c s).2

section Keeps
variable {I : σ → Prop}

theorem Keeps.bind {c : Call σ α} {f : α → Call σ β} (hc : Keeps I c) (hf : ∀ a, Keeps I (f a)) :
    Keeps I (c >>= f) := by
  intro s hs
  have hkept := hc s hs
  rw [bind_apply]
  rcases hcs : c s with ⟨a | _ | _, s'⟩ <;> rw [hcs] at hkept
  · exact hf a s' hkept
  · exact hkept
  · exact hkept

theorem Keeps.pure (a : α) : Keeps I (pure a : Call σ α) := fun _ hs => hs

theorem Keeps.view (f : σ → α) : Keeps I (view f) := fun _ hs => hs

theorem Keeps.lift (r : Result α) : Keeps I (lift r : Call σ α) := fun _ hs => hs

theorem Keeps.modify {f : σ → σ} (h : ∀ s, I s → I (f s)) : Keeps I (modify f) := h

theorem Keeps.whenever {p : Prop} [Decidable p] {c : Call σ Unit} (hc : Keeps I c) :
    Keeps I (whenever p c) := by
  by_cases hp : p
  · rwa [whenever_of_pos hp]
  · rw [whenever_of_neg hp]
    exact .pure ()

theorem Keeps.transaction {c : Call σ α} (hc : Keeps I c) : Keeps I (transaction c) := by
  intro s hs
  have hkept := hc s hs
  unfold Call.transaction
  rcases hcs : c s with ⟨_ | _ | _, s'⟩ <;> rw [hcs] at hkept
  · exact hkept
  · exact hs
  · exact hs

theorem Keeps.within {J : τ → Prop} {get : σ → τ} {set : τ → σ → σ} {c : Call τ α}
    (hc : Keeps J c) (hget : ∀ s, I s → J (get s)) (hset : ∀ s t, I s → J t → I (set t s)) :
    Keeps I (within get set c) :=
  fun s hs => hset s _ hs (hc _ (hget s hs))

theorem Keeps.fold {f : γ → Except Nat α → Call σ α} (hf : ∀ x r, Keeps I (f x r)) (xs : List γ)
    (r : Except Nat α) : Keeps I (Call.fold f xs r) := by
  induction xs generalizing r with
  | nil => exact .lift _
  | cons x xs ih =>
      intro s hs
      have hkept := hf x r s hs
      rw [fold_cons]
      rcases hfx : f x r s with ⟨a | e | _, s'⟩ <;> rw [hfx] at hkept
      · exact ih (.ok a) s' hkept
      · exact ih (.error e) s' hkept
      · exact hkept

end Keeps

end Call
end Clarity
