import Mathlib.Data.List.Perm.Basic

/-! # Work in stages

Items go through two stages, in each of which any number of them is worked on at the same
time, and then through a queue that takes one after the other.  A stage adds something to
an item and passes it on, or the item leaves there, and it is noted what has become of it.

Whatever the order in which the stages get done, no item is lost and none is doubled
(`Move.perm`), and what has been added was added by the stage (`Move.holds`).
-/
namespace StagedWork
variable {α κ σ δ : Type*}

/-- The items of each stage, with what they have got, and those that have left. -/
structure Work (α κ σ δ : Type*) where
  first : List α
  second : List (α × κ)
  queue : List (α × κ × σ)
  left : List (α × δ)
  deriving DecidableEq

namespace Work

/-- Items that leave at once, and those that enter the first stage. -/
def sort (fate : α → Option δ) (items : List α) : Work α κ σ δ where
  first := items.filter fun a => (fate a).isNone
  second := []
  queue := []
  left := items.filterMap fun a => (fate a).map fun d => (a, d)

/-- Every item, wherever it is. -/
def items (w : Work α κ σ δ) : List α :=
  w.first ++ w.second.map Prod.fst ++ w.queue.map Prod.fst ++ w.left.map Prod.fst

/-- No item is in a stage any more. -/
def Done (w : Work α κ σ δ) : Prop := w.first = [] ∧ w.second = [] ∧ w.queue = []

instance (w : Work α κ σ δ) : Decidable w.Done := inferInstanceAs (Decidable (_ ∧ _))

theorem sort_perm (fate : α → Option δ) (items : List α) :
    (sort fate items : Work α κ σ δ).items.Perm items := by
  induction items with
  | nil => exact .nil
  | cons a items ih =>
    cases h : fate a with
    | none =>
      have hsort : (sort fate (a :: items) : Work α κ σ δ).items =
          a :: (sort fate items : Work α κ σ δ).items := by simp [Work.items, sort, h]
      rw [hsort]
      exact ih.cons a
    | some d =>
      have hsort : (sort fate (a :: items) : Work α κ σ δ).items.Perm
          (a :: (sort fate items : Work α κ σ δ).items) := by
        simp [Work.items, sort, h, List.perm_middle]
      exact hsort.trans (ih.cons a)

/-- All that is done has been noted. -/
theorem Done.items_eq {w : Work α κ σ δ} (h : w.Done) : w.items = w.left.map Prod.fst := by
  obtain ⟨hfirst, hsecond, hqueue⟩ := h
  simp [Work.items, hfirst, hsecond, hqueue]

end Work

section
variable (First : α → Prop) (Second : α → κ → Prop) (Queued : α → κ → σ → Prop)
  (Left : α → δ → Prop)

/-- What each item has got is right for it. -/
structure Work.Holds (w : Work α κ σ δ) : Prop where
  first : ∀ a ∈ w.first, First a
  second : ∀ x ∈ w.second, Second x.1 x.2
  queue : ∀ x ∈ w.queue, Queued x.1 x.2.1 x.2.2
  left : ∀ x ∈ w.left, Left x.1 x.2

/-- One item is passed on, or leaves. -/
inductive Move (w : Work α κ σ δ) : Work α κ σ δ → Prop
  | pass {n : Nat} {a : α} {k : κ} (h : w.first[n]? = some a) (hk : Second a k) :
      Move w { w with first := w.first.eraseIdx n, second := w.second ++ [(a, k)] }
  | leave {n : Nat} {a : α} {d : δ} (h : w.first[n]? = some a) (hd : Left a d) :
      Move w { w with first := w.first.eraseIdx n, left := w.left ++ [(a, d)] }
  | passSecond {n : Nat} {a : α} {k : κ} {r : σ} (h : w.second[n]? = some (a, k))
      (hr : Queued a k r) :
      Move w { w with second := w.second.eraseIdx n, queue := w.queue ++ [(a, k, r)] }
  | leaveSecond {n : Nat} {a : α} {k : κ} {d : δ} (h : w.second[n]? = some (a, k))
      (hd : Left a d) :
      Move w { w with second := w.second.eraseIdx n, left := w.left ++ [(a, d)] }
  | leaveQueue {a : α} {k : κ} {r : σ} {rest : List (α × κ × σ)} {d : δ}
      (h : w.queue = (a, k, r) :: rest) (hd : Left a d) :
      Move w { w with queue := rest, left := w.left ++ [(a, d)] }

variable {First Second Queued Left} {w w' : Work α κ σ δ}

theorem perm_cons_eraseIdx {l : List α} {n : Nat} {a : α} (h : l[n]? = some a) :
    l.Perm (a :: l.eraseIdx n) := by
  obtain ⟨hn, rfl⟩ := List.getElem?_eq_some_iff.mp h
  exact (List.getElem_cons_eraseIdx_perm hn).symm

/-- **No item is lost, and none is doubled.** -/
theorem Move.perm (h : Move Second Queued Left w w') : w'.items.Perm w.items := by
  classical
  rw [List.perm_iff_count]
  intro x
  cases h with
  | pass h hk =>
    have hcount := (perm_cons_eraseIdx h).count_eq x
    simp only [Work.items, List.count_append, List.map_append, List.map_cons, List.map_nil,
      List.count_cons, List.count_nil] at hcount ⊢
    omega
  | leave h hd =>
    have hcount := (perm_cons_eraseIdx h).count_eq x
    simp only [Work.items, List.count_append, List.map_append, List.map_cons, List.map_nil,
      List.count_cons, List.count_nil] at hcount ⊢
    omega
  | passSecond h hr =>
    have hcount := ((perm_cons_eraseIdx h).map Prod.fst).count_eq x
    simp only [Work.items, List.count_append, List.map_append, List.map_cons, List.map_nil,
      List.count_cons, List.count_nil] at hcount ⊢
    omega
  | leaveSecond h hd =>
    have hcount := ((perm_cons_eraseIdx h).map Prod.fst).count_eq x
    simp only [Work.items, List.count_append, List.map_append, List.map_cons, List.map_nil,
      List.count_cons, List.count_nil] at hcount ⊢
    omega
  | leaveQueue h hd =>
    simp only [Work.items, h, List.count_append, List.map_append, List.map_cons, List.map_nil,
      List.count_cons, List.count_nil]
    omega

theorem forall_mem_concat {β : Type*} {l : List β} {x : β} {Q : β → Prop}
    (h : ∀ y ∈ l, Q y) (hx : Q x) : ∀ y ∈ l ++ [x], Q y := by
  intro y hy
  rcases List.mem_append.mp hy with hold | hnew
  · exact h y hold
  · obtain rfl := List.mem_singleton.mp hnew
    exact hx

theorem forall_mem_eraseIdx {β : Type*} {l : List β} {n : Nat} {Q : β → Prop}
    (h : ∀ y ∈ l, Q y) : ∀ y ∈ l.eraseIdx n, Q y :=
  fun y hy => h y (List.mem_of_mem_eraseIdx hy)

/-- **What an item has got stays right for it.** -/
theorem Move.holds (h : Move Second Queued Left w w') (hw : w.Holds First Second Queued Left) :
    w'.Holds First Second Queued Left := by
  cases h with
  | pass h hk =>
    exact ⟨forall_mem_eraseIdx hw.first, forall_mem_concat hw.second hk, hw.queue, hw.left⟩
  | leave h hd =>
    exact ⟨forall_mem_eraseIdx hw.first, hw.second, hw.queue, forall_mem_concat hw.left hd⟩
  | passSecond h hr =>
    exact ⟨hw.first, forall_mem_eraseIdx hw.second, forall_mem_concat hw.queue hr, hw.left⟩
  | leaveSecond h hd =>
    exact ⟨hw.first, forall_mem_eraseIdx hw.second, hw.queue, forall_mem_concat hw.left hd⟩
  | leaveQueue h hd =>
    refine ⟨hw.first, hw.second, fun x hx => ?_, forall_mem_concat hw.left hd⟩
    exact hw.queue x (h ▸ List.mem_cons_of_mem _ hx)

theorem Work.Holds.mono {Left' : α → δ → Prop} (h : w.Holds First Second Queued Left)
    (hmono : ∀ a d, Left a d → Left' a d) : w.Holds First Second Queued Left' :=
  ⟨h.first, h.second, h.queue, fun x hx => hmono _ _ (h.left x hx)⟩

/-- Items that enter have got nothing yet. -/
theorem Work.holds_sort {fate : α → Option δ} {items : List α}
    (hfirst : ∀ a ∈ items, fate a = none → First a)
    (hleft : ∀ a ∈ items, ∀ d, fate a = some d → Left a d) :
    (Work.sort fate items : Work α κ σ δ).Holds First Second Queued Left where
  first a ha := by
    obtain ⟨hmem, hnone⟩ := List.mem_filter.mp ha
    exact hfirst a hmem (Option.isNone_iff_eq_none.mp hnone)
  second _ hx := nomatch hx
  queue _ hx := nomatch hx
  left x hx := by
    obtain ⟨a, ha, heq⟩ := List.mem_filterMap.mp hx
    obtain ⟨d, hd, rfl⟩ := Option.map_eq_some_iff.mp heq
    exact hleft a ha d hd

end
end StagedWork
