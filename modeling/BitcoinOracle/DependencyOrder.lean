import BitcoinOracle.KeyedTable
import Mathlib.Data.Finset.Card
import Mathlib.Logic.Relation

/-! # Orders of what depends on each other

`deps a` lists what `a` needs.  A list is `DepsFirst` if each element stands after all it
needs.  Lists one behind the other keep that, and so does the removal of all but the first
occurrences (`DepsFirst.eraseDups`).  `rank` is how much an element needs at all, directly
or not.  Without cycles it is smaller for what is needed than for what needs it
(`rank_lt`).
-/
namespace DependencyOrder

variable {α : Type*} (deps : α → List α)

/-- `a` needs `b`. -/
def Needs (a b : α) : Prop := b ∈ deps a

/-- Each element stands after what it needs. -/
def DepsFirst (l : List α) : Prop :=
  ∀ before a after, l = before ++ a :: after → ∀ b ∈ deps a, b ∈ before

variable {deps}

section DepsFirst
variable {l l' : List α} {a b : α}

theorem depsFirst_nil : DepsFirst deps [] := by
  intro before a after h
  simp at h

theorem depsFirst_concat :
    DepsFirst deps (l ++ [a]) ↔ DepsFirst deps l ∧ ∀ b ∈ deps a, b ∈ l := by
  constructor
  · intro h
    refine ⟨fun before c after heq => ?_, h l a [] rfl⟩
    exact h before c (after ++ [a]) (by simp [heq])
  · -- the element is the new one, or it is followed by it
    rintro ⟨hl, ha⟩ before c after heq
    rcases List.eq_nil_or_concat after with rfl | ⟨rest, d, rfl⟩
    · obtain ⟨rfl, hc⟩ := List.append_inj' heq rfl
      obtain rfl : a = c := by simpa using hc
      exact ha
    · have heq' : l ++ [a] = (before ++ c :: rest) ++ [d] := by simp [heq]
      exact hl before c rest (List.append_inj' heq' rfl).1

theorem DepsFirst.append (h : DepsFirst deps l) (h' : DepsFirst deps l') :
    DepsFirst deps (l ++ l') := by
  induction l' using List.reverseRecOn with
  | nil => simpa using h
  | append_singleton l' a ih =>
      obtain ⟨hl', ha⟩ := depsFirst_concat.mp h'
      rw [← List.append_assoc]
      exact depsFirst_concat.mpr
        ⟨ih hl', fun b hb => List.mem_append_right l (ha b hb)⟩

theorem DepsFirst.flatMap {g : α → List α} {l : List α} (h : ∀ a ∈ l, DepsFirst deps (g a)) :
    DepsFirst deps (l.flatMap g) := by
  induction l with
  | nil => exact depsFirst_nil
  | cons a l ih =>
      rw [List.flatMap_cons]
      exact (h a List.mem_cons_self).append (ih fun b hb => h b (List.mem_cons_of_mem a hb))

/-- The first occurrence of an element is still after those of what it needs. -/
theorem DepsFirst.eraseDups [BEq α] [LawfulBEq α] (h : DepsFirst deps l) :
    DepsFirst deps l.eraseDups := by
  induction l using List.reverseRecOn with
  | nil => exact depsFirst_nil
  | append_singleton l a ih =>
      obtain ⟨hl, ha⟩ := depsFirst_concat.mp h
      rw [List.eraseDups_append]
      by_cases hmem : a ∈ l
      · simpa [List.removeAll, hmem] using ih hl
      · have hnew : ([a].removeAll l).eraseDups = [a] := by
          simp [List.removeAll, hmem, List.eraseDups_cons]
        rw [hnew]
        exact depsFirst_concat.mpr
          ⟨ih hl, fun b hb => List.mem_eraseDups.mpr (ha b hb)⟩

end DepsFirst

/-! ## How much is needed -/

open Classical in
/-- How many of the names `a` needs, directly or not. -/
noncomputable def rank (deps : α → List α) (names : List α) (a : α) : Nat :=
  (names.toFinset.filter (Relation.TransGen (Needs deps) a)).card

variable {names : List α} {a b : α}

theorem rank_le_length : rank deps names a ≤ names.length := by
  classical
  calc rank deps names a ≤ names.toFinset.card := Finset.card_filter_le _ _
    _ ≤ names.length := List.toFinset_card_le names

/-- **Without cycles, what is needed has the smaller rank.** -/
theorem rank_lt (hacyclic : ∀ a, ¬ Relation.TransGen (Needs deps) a a) (h : Needs deps a b)
    (hb : b ∈ names) : rank deps names b < rank deps names a := by
  classical
  refine Finset.card_lt_card (Finset.ssubset_iff_of_subset ?_ |>.mpr ⟨b, ?_, ?_⟩)
  · intro c hc
    obtain ⟨hmem, hbc⟩ := Finset.mem_filter.mp hc
    exact Finset.mem_filter.mpr ⟨hmem, hbc.head h⟩
  · exact Finset.mem_filter.mpr ⟨List.mem_toFinset.mpr hb, .single h⟩
  · intro hself
    exact hacyclic b (Finset.mem_filter.mp hself).2

/-- A measure that falls along every edge leaves no room for a cycle. -/
theorem acyclic_of_measure (f : α → Nat) (h : ∀ a b, Needs deps a b → f b < f a) (a : α) :
    ¬ Relation.TransGen (Needs deps) a a := by
  have hlt : ∀ b, Relation.TransGen (Needs deps) a b → f b < f a := by
    intro b hab
    induction hab with
    | single hab => exact h a _ hab
    | tail _ hbc ih => exact (h _ _ hbc).trans ih
  exact fun hcycle => Nat.lt_irrefl _ (hlt a hcycle)

end DependencyOrder
