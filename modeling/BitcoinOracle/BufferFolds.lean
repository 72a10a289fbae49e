import BitcoinOracle.ClarityData

/-! # Folds that fill a buffer

A contract that writes a list folds over it, concatenates a piece for each element to
what it has written, and checks after each that the buffer still has room.  Such a fold
answers exactly if every piece does and all of them fit (`foldlM_concat`).
-/
namespace Clarity

variable {γ : Type} {f : γ → Result Bytes} {p : γ → Prop} {g : γ → Bytes}

theorem length_le_of_append {a b : Bytes} {limit : Nat} (h : (a ++ b).length ≤ limit) :
    a.length ≤ limit := by
  rw [List.length_append] at h
  omega

/-- **A fold that concatenates.**  The pieces are `g x`, and `f` answers with them where
`p` holds. -/
theorem foldlM_concat (hf : ∀ x c, f x = .ok c ↔ p x ∧ c = g x) {limit : Nat} (xs : List γ)
    {a b : Bytes} (ha : a.length ≤ limit) :
    xs.foldlM (fun a x => do
        let c ← f x
        Result.unwrapPanic (asMaxLen (a ++ c) limit)) a = .ok b ↔
      (∀ x ∈ xs, p x) ∧ b = a ++ xs.flatMap g ∧ b.length ≤ limit := by
  induction xs generalizing a with
  | nil =>
      simp only [List.foldlM_nil, Result.pure_def, Result.ok.injEq, List.not_mem_nil,
        false_implies, implies_true, List.flatMap_nil, List.append_nil, true_and]
      constructor
      · rintro rfl
        exact ⟨rfl, ha⟩
      · rintro ⟨rfl, -⟩
        rfl
  | cons x xs ih =>
      simp only [List.foldlM_cons, Result.bind_eq_ok, hf, Result.unwrapPanic_eq_ok,
        asMaxLen_eq_some, List.forall_mem_cons, List.flatMap_cons]
      constructor
      · rintro ⟨_, ⟨_, ⟨hx, rfl⟩, hroom, rfl⟩, hrest⟩
        obtain ⟨hxs, rfl, hlength⟩ := (ih hroom).mp hrest
        exact ⟨⟨hx, hxs⟩, List.append_assoc .., hlength⟩
      · rintro ⟨⟨hx, hxs⟩, rfl, hlength⟩
        -- if all of it fits, so does what is there after the first piece
        rw [← List.append_assoc] at hlength
        have hroom := length_le_of_append hlength
        exact ⟨a ++ g x, ⟨g x, ⟨hx, rfl⟩, hroom, rfl⟩,
          (ih hroom).mpr ⟨hxs, (List.append_assoc ..).symm, by rwa [← List.append_assoc]⟩⟩

/-- Lists of pieces that are no longer piece by piece are no longer as a whole, and if
they are of one length, so are the pieces. -/
theorem length_flatMap_le {h : γ → Bytes} (xs : List γ)
    (hle : ∀ x ∈ xs, (g x).length ≤ (h x).length) :
    (xs.flatMap g).length ≤ (xs.flatMap h).length ∧
      ((xs.flatMap g).length = (xs.flatMap h).length →
        ∀ x ∈ xs, (g x).length = (h x).length) := by
  induction xs with
  | nil => simp
  | cons x xs ih =>
      obtain ⟨hrest, heq⟩ := ih fun y hy => hle y (List.mem_cons_of_mem x hy)
      have hx := hle x List.mem_cons_self
      simp only [List.flatMap_cons, List.length_append, List.forall_mem_cons]
      refine ⟨by omega, fun hlength => ⟨by omega, heq (by omega)⟩⟩

end Clarity
