import BitcoinOracle.TransactionFormat

/-! # What the readers accept

`Reads mk E read` says that the reader `read` is exact for the encoding `E`: it answers
`(ok v)` if and only if a string for `v` stands at the cursor, and then leaves the
cursor behind that string.  `mk` builds the reader's answer, which is a `Parsed` for
most of them and an accumulator for the folds.  `AbortsOn A read` says at which strings
the reader aborts; a reader is `Total` when there are none.

Both are carried through the sequencing of readers, through checks and through folds,
so that each reader of the source gets one lemma of either kind, in the order of the
source.
-/
namespace BitcoinOracle.ClarityBitcoin
open Clarity Encoding

section Readers
variable {α γ ρ ρ' : Type}

/-- `read` answers `mk v` at exactly the strings for `v`. -/
def Reads (mk : α → Ctx → ρ) (E : α → Bytes → Prop) (read : Ctx → Result ρ) : Prop :=
  ∀ (buff : Bytes) (i : Nat), buff.length < 2 ^ 64 → i ≤ buff.length → ∀ r,
    read ⟨buff, i⟩ = .ok r ↔ ∃ v b, E v b ∧ Occurs b buff i ∧ r = mk v ⟨buff, i + b.length⟩

/-- `read` aborts at exactly the strings of `A`. -/
def AbortsOn (A : Bytes → Prop) (read : Ctx → Result ρ) : Prop :=
  ∀ (buff : Bytes) (i : Nat), buff.length < 2 ^ 64 → i ≤ buff.length →
    ((∃ x, read ⟨buff, i⟩ = .abort x) ↔ ∃ b, A b ∧ Occurs b buff i)

/-- `read` never aborts. -/
def Total (read : Ctx → Result ρ) : Prop := AbortsOn (fun _ => False) read

theorem total_iff {read : Ctx → Result ρ} : Total read ↔
    ∀ (buff : Bytes) (i : Nat), buff.length < 2 ^ 64 → i ≤ buff.length →
      ∀ x, read ⟨buff, i⟩ ≠ .abort x := by
  constructor
  · intro h buff i hb hi x hx
    obtain ⟨_, hno, _⟩ := (h buff i hb hi).mp ⟨x, hx⟩
    exact hno
  · intro h buff i hb hi
    constructor
    · rintro ⟨x, hx⟩
      exact absurd hx (h buff i hb hi x)
    · rintro ⟨_, hno, _⟩
      exact hno.elim

theorem Reads.of_iff {mk : α → Ctx → ρ} {E E' : α → Bytes → Prop} {read : Ctx → Result ρ}
    (h : Reads mk E read) (hE : ∀ v b, E v b ↔ E' v b) : Reads mk E' read := by
  intro buff i hb hi r
  rw [h buff i hb hi r]
  simp only [hE]

theorem Reads.of_mk {mk mk' : α → Ctx → ρ} {E : α → Bytes → Prop} {read : Ctx → Result ρ}
    (h : Reads mk E read) (hmk : ∀ v b ctx, E v b → mk v ctx = mk' v ctx) :
    Reads mk' E read := by
  intro buff i hb hi r
  rw [h buff i hb hi r]
  constructor
  · rintro ⟨v, b, hv, hocc, rfl⟩
    exact ⟨v, b, hv, hocc, hmk v b _ hv⟩
  · rintro ⟨v, b, hv, hocc, rfl⟩
    exact ⟨v, b, hv, hocc, (hmk v b _ hv).symm⟩

/-- Reading a value that is a function of another. -/
theorem Reads.map {β : Type} {mk : β → Ctx → ρ} {E : α → Bytes → Prop} {read : Ctx → Result ρ}
    (g : α → β) (h : Reads (fun v ctx => mk (g v) ctx) E read) :
    Reads mk (fun w b => ∃ v, w = g v ∧ E v b) read := by
  intro buff i hb hi r
  rw [h buff i hb hi r]
  constructor
  · rintro ⟨v, b, hv, hocc, rfl⟩
    exact ⟨g v, b, ⟨v, rfl, hv⟩, hocc, rfl⟩
  · rintro ⟨_, b, ⟨v, rfl, hv⟩, hocc, rfl⟩
    exact ⟨v, b, hv, hocc, rfl⟩

theorem Reads.congr {mk : α → Ctx → ρ} {E : α → Bytes → Prop} {read read' : Ctx → Result ρ}
    (h : Reads mk E read) (heq : ∀ (buff : Bytes) (i : Nat), buff.length < 2 ^ 64 →
      i ≤ buff.length → ∀ r, read' ⟨buff, i⟩ = .ok r ↔ read ⟨buff, i⟩ = .ok r) :
    Reads mk E read' := by
  intro buff i hb hi r
  rw [heq buff i hb hi]
  exact h buff i hb hi r

theorem AbortsOn.congr {A : Bytes → Prop} {read read' : Ctx → Result ρ} (h : AbortsOn A read)
    (heq : ∀ (buff : Bytes) (i : Nat), buff.length < 2 ^ 64 → i ≤ buff.length →
      ∀ x, read' ⟨buff, i⟩ = .abort x ↔ read ⟨buff, i⟩ = .abort x) : AbortsOn A read' := by
  intro buff i hb hi
  simp only [heq buff i hb hi]
  exact h buff i hb hi

theorem AbortsOn.of_iff {A A' : Bytes → Prop} {read : Ctx → Result ρ} (h : AbortsOn A read)
    (hA : ∀ b, A b ↔ A' b) : AbortsOn A' read := by
  intro buff i hb hi
  rw [h buff i hb hi]
  simp only [hA]

/-! ## Sequencing -/

theorem Reads.ret {mk : α → Ctx → ρ} (a : α) :
    Reads mk (fun v b => v = a ∧ b = []) fun ctx => .ok (mk a ctx) := by
  intro buff i hb hi r
  constructor
  · intro h
    exact ⟨a, [], ⟨rfl, rfl⟩, occurs_nil_iff.mpr hi, (Result.ok.inj h).symm⟩
  · rintro ⟨v, b, ⟨rfl, rfl⟩, -, rfl⟩
    rfl

theorem Reads.err {mk : α → Ctx → ρ} (code : Nat) :
    Reads mk (fun _ _ => False) fun _ => .err code := by
  intro buff i hb hi r
  constructor
  · nofun
  · rintro ⟨_, _, hno, _⟩
    exact hno.elim

theorem Reads.abort {mk : α → Ctx → ρ} (x : RuntimeError) :
    Reads mk (fun _ _ => False) fun _ => .abort x := by
  intro buff i hb hi r
  constructor
  · nofun
  · rintro ⟨_, _, hno, _⟩
    exact hno.elim

theorem AbortsOn.abort (x : RuntimeError) :
    AbortsOn (fun b => b = []) fun _ => (.abort x : Result ρ) := by
  intro buff i hb hi
  constructor
  · intro _
    exact ⟨[], rfl, occurs_nil_iff.mpr hi⟩
  · intro _
    exact ⟨x, rfl⟩

/-- An answer that depends on a condition on what was read. -/
theorem Reads.guarded {mk : α → Ctx → ρ} {c : Prop} [Decidable c] (a : α) (code : Nat) :
    Reads mk (fun v b => c ∧ v = a ∧ b = []) fun ctx => if c then .ok (mk a ctx) else .err code := by
  by_cases hc : c
  · simp only [hc, true_and]
    exact .ret a
  · simp only [hc, false_and]
    exact .err code

theorem Total.ret (f : Ctx → ρ) : Total fun ctx => .ok (f ctx) :=
  total_iff.mpr fun _ _ _ _ _ h => nomatch h

theorem Total.err (code : Nat) : Total fun _ => (.err code : Result ρ) :=
  total_iff.mpr fun _ _ _ _ _ h => nomatch h

theorem Total.guarded {c : Prop} [Decidable c] (f : Ctx → ρ) (code : Nat) :
    Total fun ctx => if c then .ok (f ctx) else .err code := by
  by_cases hc : c
  · simp only [if_pos hc]
    exact .ret f
  · simp only [if_neg hc]
    exact .err code

section Bind
variable {β : Type} {mk₁ : α → Ctx → ρ} {mk₂ : β → Ctx → ρ'} {E₁ : α → Bytes → Prop}
  {E₂ : α → β → Bytes → Prop} {A₁ : Bytes → Prop} {A₂ : α → Bytes → Prop}
  {read : Ctx → Result ρ} {k : ρ → Result ρ'}

/-- One reader after another. -/
theorem Reads.bind (h₁ : Reads mk₁ E₁ read)
    (h₂ : ∀ a b, E₁ a b → Reads mk₂ (E₂ a) fun ctx => k (mk₁ a ctx)) :
    Reads mk₂ (Then E₁ E₂) fun ctx => read ctx >>= k := by
  intro buff i hb hi r
  rw [Result.bind_eq_ok]
  constructor
  · rintro ⟨p, hp, hk⟩
    obtain ⟨a, b₁, ha, hocc₁, rfl⟩ := (h₁ buff i hb hi p).mp hp
    obtain ⟨v, b₂, hv, hocc₂, rfl⟩ := (h₂ a b₁ ha buff _ hb hocc₁.le r).mp hk
    refine ⟨v, b₁ ++ b₂, ⟨a, b₁, b₂, ha, hv, rfl⟩, occurs_append_iff.mpr ⟨hocc₁, hocc₂⟩, ?_⟩
    rw [List.length_append, Nat.add_assoc]
  · rintro ⟨v, b, ⟨a, b₁, b₂, ha, hv, rfl⟩, hocc, rfl⟩
    obtain ⟨hocc₁, hocc₂⟩ := occurs_append_iff.mp hocc
    refine ⟨_, (h₁ buff i hb hi _).mpr ⟨a, b₁, ha, hocc₁, rfl⟩, ?_⟩
    refine (h₂ a b₁ ha buff _ hb hocc₁.le _).mpr ⟨v, b₂, hv, hocc₂, ?_⟩
    rw [List.length_append, Nat.add_assoc]

/-- Answering with what was read. -/
theorem Reads.answer {mk₃ : α → Ctx → ρ'} (h : Reads mk₁ E₁ read)
    (hk : ∀ a b ctx, E₁ a b → k (mk₁ a ctx) = .ok (mk₃ a ctx)) :
    Reads mk₃ E₁ fun ctx => read ctx >>= k := by
  intro buff i hb hi r
  rw [Result.bind_eq_ok]
  constructor
  · rintro ⟨p, hp, hr⟩
    obtain ⟨a, b, ha, hocc, rfl⟩ := (h buff i hb hi p).mp hp
    rw [hk a b _ ha] at hr
    exact ⟨a, b, ha, hocc, (Result.ok.inj hr).symm⟩
  · rintro ⟨a, b, ha, hocc, rfl⟩
    exact ⟨_, (h buff i hb hi _).mpr ⟨a, b, ha, hocc, rfl⟩, hk a b _ ha⟩

/-- Either the first reader aborts, or the second behind a string of the first. -/
theorem AbortsOn.bind (h₁ : AbortsOn A₁ read) (hread : Reads mk₁ E₁ read)
    (h₂ : ∀ a b, E₁ a b → AbortsOn (A₂ a) fun ctx => k (mk₁ a ctx)) :
    AbortsOn (fun b => A₁ b ∨ ∃ a b₁ b₂, E₁ a b₁ ∧ A₂ a b₂ ∧ b = b₁ ++ b₂)
      fun ctx => read ctx >>= k := by
  intro buff i hb hi
  show (∃ x, (read ⟨buff, i⟩ >>= k) = .abort x) ↔ _
  constructor
  · rintro ⟨x, hx⟩
    cases hp : read ⟨buff, i⟩ with
    | ok p =>
        rw [hp, Result.ok_bind] at hx
        obtain ⟨a, b₁, ha, hocc₁, rfl⟩ := (hread buff i hb hi p).mp hp
        obtain ⟨b₂, hb₂, hocc₂⟩ := (h₂ a b₁ ha buff _ hb hocc₁.le).mp ⟨x, hx⟩
        exact ⟨b₁ ++ b₂, Or.inr ⟨a, b₁, b₂, ha, hb₂, rfl⟩,
          occurs_append_iff.mpr ⟨hocc₁, hocc₂⟩⟩
    | err e =>
        rw [hp] at hx
        cases hx
    | abort y =>
        obtain ⟨b, hbad, hocc⟩ := (h₁ buff i hb hi).mp ⟨y, hp⟩
        exact ⟨b, Or.inl hbad, hocc⟩
  · rintro ⟨b, hbad | ⟨a, b₁, b₂, ha, hb₂, rfl⟩, hocc⟩
    · obtain ⟨x, hx⟩ := (h₁ buff i hb hi).mpr ⟨b, hbad, hocc⟩
      exact ⟨x, by rw [hx, Result.abort_bind]⟩
    · obtain ⟨hocc₁, hocc₂⟩ := occurs_append_iff.mp hocc
      obtain ⟨x, hx⟩ := (h₂ a b₁ ha buff _ hb hocc₁.le).mpr ⟨b₂, hb₂, hocc₂⟩
      have hp := (hread buff i hb hi _).mpr ⟨a, b₁, ha, hocc₁, rfl⟩
      refine ⟨x, ?_⟩
      rw [hp]
      exact hx

theorem Total.bind (h₁ : Total read) (hread : Reads mk₁ E₁ read)
    (h₂ : ∀ a b, E₁ a b → Total fun ctx => k (mk₁ a ctx)) : Total fun ctx => read ctx >>= k := by
  refine (AbortsOn.bind h₁ hread h₂).of_iff fun b => ⟨?_, False.elim⟩
  rintro (hno | ⟨_, _, _, _, hno, _⟩)
  · exact hno
  · exact hno

/-- The second reader decides about aborts. -/
theorem AbortsOn.after (h₁ : Total read) (hread : Reads mk₁ E₁ read)
    (h₂ : ∀ a b, E₁ a b → AbortsOn (A₂ a) fun ctx => k (mk₁ a ctx)) :
    AbortsOn (fun b => ∃ a b₁ b₂, E₁ a b₁ ∧ A₂ a b₂ ∧ b = b₁ ++ b₂)
      fun ctx => read ctx >>= k :=
  (AbortsOn.bind h₁ hread h₂).of_iff fun _ => or_iff_right id

/-- The first reader decides about aborts. -/
theorem AbortsOn.before (h₁ : AbortsOn A₁ read) (hread : Reads mk₁ E₁ read)
    (h₂ : ∀ a b, E₁ a b → Total fun ctx => k (mk₁ a ctx)) :
    AbortsOn A₁ fun ctx => read ctx >>= k := by
  refine (AbortsOn.bind h₁ hread h₂).of_iff fun b => ⟨?_, Or.inl⟩
  rintro (hbad | ⟨_, _, _, _, hno, _⟩)
  · exact hbad
  · exact hno.elim

end Bind

/-- A check that does not look at the cursor. -/
theorem Reads.check {β : Type} {mk : β → Ctx → ρ} {E : α → β → Bytes → Prop} {g : Result α}
    {k : α → Ctx → Result ρ} (h : ∀ a, g = .ok a → Reads mk (E a) (k a)) :
    Reads mk (fun v b => ∃ a, g = .ok a ∧ E a v b) fun ctx => g >>= fun a => k a ctx := by
  intro buff i hb hi r
  rw [Result.bind_eq_ok]
  constructor
  · rintro ⟨a, ha, hk⟩
    obtain ⟨v, b, hv, hocc, rfl⟩ := (h a ha buff i hb hi r).mp hk
    exact ⟨v, b, ⟨a, ha, hv⟩, hocc, rfl⟩
  · rintro ⟨v, b, ⟨a, ha, hv⟩, hocc, rfl⟩
    exact ⟨a, ha, (h a ha buff i hb hi _).mpr ⟨v, b, hv, hocc, rfl⟩⟩

theorem Total.check {g : Result α} {k : α → Ctx → Result ρ} (hg : ∀ x, g ≠ .abort x)
    (h : ∀ a, g = .ok a → Total (k a)) : Total fun ctx => g >>= fun a => k a ctx := by
  refine total_iff.mpr fun buff i hb hi x hx => ?_
  cases ha : g with
  | ok a =>
      rw [ha] at hx
      exact total_iff.mp (h a ha) buff i hb hi x hx
  | err e =>
      rw [ha] at hx
      cases hx
  | abort y => exact hg y ha

/-! ## Folds -/

section Fold
variable {σ : Type} {f : γ → Except Nat σ → Result σ} {M : List α → Ctx → σ}
  {E : α → Bytes → Prop} {A : Bytes → Prop} {bound : Nat}

/-- A fold over an error ends with an error. -/
theorem fold_error (herr : ∀ x e, ∃ e', f x (.error e) = .err e') (xs : List γ) (e : Nat) :
    ∃ e', Result.fold f xs (.error e) = .err e' := by
  induction xs generalizing e with
  | nil => exact ⟨e, rfl⟩
  | cons x xs ih =>
      obtain ⟨e', he'⟩ := herr x e
      obtain ⟨e'', he''⟩ := ih e'
      refine ⟨e'', ?_⟩
      rw [Result.fold, he']
      exact he''

theorem fold_cons_eq_ok (herr : ∀ x e, ∃ e', f x (.error e) = .err e') {x : γ} {xs : List γ}
    {r : Except Nat σ} {s : σ} : Result.fold f (x :: xs) r = .ok s ↔
      (f x r >>= fun s => Result.fold f xs (.ok s)) = .ok s := by
  rw [Result.fold]
  cases f x r with
  | ok s' => exact Iff.rfl
  | err e =>
      obtain ⟨e', he'⟩ := fold_error herr xs e
      show Result.fold f xs (.error e) = .ok s ↔ _
      rw [he']
      simp
  | abort y => exact Iff.rfl

theorem fold_cons_eq_abort (herr : ∀ x e, ∃ e', f x (.error e) = .err e') {x : γ} {xs : List γ}
    {r : Except Nat σ} {y : RuntimeError} : Result.fold f (x :: xs) r = .abort y ↔
      (f x r >>= fun s => Result.fold f xs (.ok s)) = .abort y := by
  rw [Result.fold]
  cases f x r with
  | ok s' => exact Iff.rfl
  | err e =>
      obtain ⟨e', he'⟩ := fold_error herr xs e
      show Result.fold f xs (.error e) = .abort y ↔ _
      rw [he']
      simp
  | abort y => exact Iff.rfl

/-- A fold whose steps read one element each reads as many as it has turns. -/
theorem Reads.fold (herr : ∀ x e, ∃ e', f x (.error e) = .err e')
    (hstep : ∀ x acc, acc.length < bound →
      Reads (fun a ctx => M (acc ++ [a]) ctx) E fun ctx => f x (.ok (M acc ctx)))
    (xs : List γ) (acc : List α) (hbound : acc.length + xs.length ≤ bound) :
    Reads (fun as ctx => M (acc ++ as) ctx) (fun as b => as.length = xs.length ∧ Seq E as b)
      fun ctx => .fold f xs (.ok (M acc ctx)) := by
  induction xs generalizing acc with
  | nil =>
      have hret : Reads (fun as ctx => M (acc ++ as) ctx) (fun as b => as = [] ∧ b = [])
          fun ctx => .ok (M acc ctx) := by
        have h := @Reads.ret _ _ (fun as ctx => M (acc ++ as) ctx) []
        rwa [List.append_nil] at h
      refine hret.of_iff fun as b => ⟨?_, ?_⟩
      · rintro ⟨rfl, rfl⟩
        exact ⟨rfl, .nil⟩
      · rintro ⟨hlen, hseq⟩
        obtain rfl := List.length_eq_zero_iff.mp hlen
        exact ⟨rfl, seq_nil_iff.mp hseq⟩
  | cons x xs ih =>
      rw [List.length_cons] at hbound
      have hrest : ∀ a, Reads (fun as ctx => M (acc ++ as) ctx)
          (fun v b => ∃ as, v = a :: as ∧ as.length = xs.length ∧ Seq E as b)
          fun ctx => .fold f xs (.ok (M (acc ++ [a]) ctx)) := by
        intro a
        have hmk : (fun as ctx => M (acc ++ a :: as) ctx) = fun as ctx => M (acc ++ [a] ++ as) ctx := by
          funext as ctx
          rw [List.append_cons]
        refine Reads.map (List.cons a) ?_
        show Reads (fun as ctx => M (acc ++ a :: as) ctx) _ _
        rw [hmk]
        apply ih
        rw [List.length_append, List.length_singleton]
        omega
      have hbind := Reads.bind (k := fun s => Result.fold f xs (.ok s))
        (hstep x acc (by omega)) fun a _ _ => hrest a
      refine (hbind.congr fun _ _ _ _ r => fold_cons_eq_ok herr).of_iff fun as b => ⟨?_, ?_⟩
      · rintro ⟨a, b₁, b₂, ha, ⟨as, rfl, hlen, hseq⟩, rfl⟩
        exact ⟨congrArg Nat.succ hlen, .cons ha hseq⟩
      · rintro ⟨hlen, hseq⟩
        cases hseq with
        | nil => cases hlen
        | cons ha hseq =>
            exact ⟨_, _, _, ha, ⟨_, rfl, Nat.succ.inj hlen, hseq⟩, rfl⟩

/-- It aborts where a step does, behind the elements read before. -/
theorem AbortsOn.fold (herr : ∀ x e, ∃ e', f x (.error e) = .err e')
    (hstep : ∀ x acc, acc.length < bound →
      Reads (fun a ctx => M (acc ++ [a]) ctx) E fun ctx => f x (.ok (M acc ctx)))
    (habort : ∀ x acc, acc.length < bound → AbortsOn A fun ctx => f x (.ok (M acc ctx)))
    (xs : List γ) (acc : List α) (hbound : acc.length + xs.length ≤ bound) :
    AbortsOn (fun b => ∃ as b₁ b₂, as.length < xs.length ∧ Seq E as b₁ ∧ A b₂ ∧ b = b₁ ++ b₂)
      fun ctx => .fold f xs (.ok (M acc ctx)) := by
  induction xs generalizing acc with
  | nil =>
      refine (Total.ret (M acc)).of_iff fun b => ⟨False.elim, ?_⟩
      rintro ⟨as, _, _, hlen, _⟩
      exact absurd hlen (Nat.not_lt_zero as.length)
  | cons x xs ih =>
      rw [List.length_cons] at hbound
      have hbind := AbortsOn.bind (k := fun s => Result.fold f xs (.ok s))
        (habort x acc (by omega)) (hstep x acc (by omega)) fun a _ _ => ih (acc ++ [a]) (by
          rw [List.length_append, List.length_singleton]
          omega)
      refine (hbind.congr fun _ _ _ _ y => fold_cons_eq_abort herr).of_iff fun b => ⟨?_, ?_⟩
      · rintro (hbad | ⟨a, b₁, b₂, ha, ⟨as, b₃, b₄, hlen, hseq, hbad, rfl⟩, rfl⟩)
        · exact ⟨[], [], b, Nat.succ_pos _, .nil, hbad, rfl⟩
        · exact ⟨a :: as, b₁ ++ b₃, b₄, Nat.succ_lt_succ hlen, .cons ha hseq, hbad,
            (List.append_assoc ..).symm⟩
      · rintro ⟨as, b₁, b₂, hlen, hseq, hbad, rfl⟩
        cases hseq with
        | nil => exact Or.inl hbad
        | cons ha hseq =>
            exact Or.inr ⟨_, _, _, ha, ⟨_, _, _, Nat.lt_of_succ_lt_succ hlen, hseq, hbad, rfl⟩,
              List.append_assoc ..⟩

theorem Total.fold (herr : ∀ x e, ∃ e', f x (.error e) = .err e')
    (hstep : ∀ x acc, acc.length < bound →
      Reads (fun a ctx => M (acc ++ [a]) ctx) E fun ctx => f x (.ok (M acc ctx)))
    (htotal : ∀ x acc, acc.length < bound → Total fun ctx => f x (.ok (M acc ctx)))
    (xs : List γ) (acc : List α) (hbound : acc.length + xs.length ≤ bound) :
    Total fun ctx => .fold f xs (.ok (M acc ctx)) := by
  refine (AbortsOn.fold herr hstep htotal xs acc hbound).of_iff fun b => ⟨?_, False.elim⟩
  rintro ⟨_, _, _, _, _, hno, _⟩
  exact hno

end Fold
end Readers
end BitcoinOracle.ClarityBitcoin
