import Mathlib.Data.List.Nodup
import Mathlib.Data.List.Perm.Basic

/-! # Rows by groups

The rows of some keys, one key after another, and the rows of a key in any order.
-/
namespace GroupedRows
variable {α κ : Type*} [DecidableEq κ] (key : α → κ)

/-- For each key some arrangement of its rows. -/
structure Arrangement (rows : List α) (keys : List κ) where
  group : κ → List α
  perm : ∀ k ∈ keys, (group k).Perm (rows.filter fun a => key a = k)

variable {key} {rows : List α} {keys : List κ}

namespace Arrangement
variable (A : Arrangement key rows keys)
include A

theorem key_eq {k : κ} (hk : k ∈ keys) {a : α} (ha : a ∈ A.group k) : key a = k := by
  have hmem := (A.perm k hk).mem_iff.mp ha
  exact of_decide_eq_true (List.mem_filter.mp hmem).2

theorem mem_flatMap {a : α} : a ∈ keys.flatMap A.group ↔ a ∈ rows ∧ key a ∈ keys := by
  rw [List.mem_flatMap]
  constructor
  · rintro ⟨k, hk, ha⟩
    have hkey := A.key_eq hk ha
    exact ⟨(List.mem_filter.mp ((A.perm k hk).mem_iff.mp ha)).1, hkey ▸ hk⟩
  · rintro ⟨ha, hk⟩
    exact ⟨key a, hk, (A.perm _ hk).mem_iff.mpr (List.mem_filter.mpr ⟨ha, decide_eq_true rfl⟩)⟩

/-- Without the first key. -/
def tail {k : κ} {keys : List κ} (A : Arrangement key rows (k :: keys)) :
    Arrangement key rows keys where
  group := A.group
  perm := fun k hk => A.perm k (List.mem_cons_of_mem _ hk)

end Arrangement

/-- The groups together are the rows of the keys. -/
theorem Arrangement.flatMap_perm (A : Arrangement key rows keys) (hkeys : keys.Nodup) :
    (keys.flatMap A.group).Perm (rows.filter fun a => key a ∈ keys) := by
  induction keys with
  | nil => simp
  | cons k keys ih =>
      obtain ⟨hnew, hnodup⟩ := List.nodup_cons.mp hkeys
      have hfirst : (rows.filter fun a => key a ∈ k :: keys).filter (fun a => key a = k) =
          rows.filter fun a => key a = k := by
        rw [List.filter_filter]
        refine List.filter_congr fun a _ => ?_
        by_cases hk : key a = k <;> simp [hk]
      have hrest : (rows.filter fun a => key a ∈ k :: keys).filter (fun a => !decide (key a = k)) =
          rows.filter fun a => key a ∈ keys := by
        rw [List.filter_filter]
        refine List.filter_congr fun a _ => ?_
        by_cases hk : key a = k
        · simp [hk, hnew]
        · simp [hk]
      have hsplit := List.filter_append_perm (fun a => decide (key a = k))
        (rows.filter fun a => key a ∈ k :: keys)
      rw [hfirst, hrest] at hsplit
      rw [List.flatMap_cons]
      exact ((A.perm k List.mem_cons_self).append (ih A.tail hnodup)).trans hsplit

/-- The rows of a key are its group. -/
theorem Arrangement.filter_flatMap (A : Arrangement key rows keys) (hkeys : keys.Nodup) {k : κ}
    (hk : k ∈ keys) : ((keys.flatMap A.group).filter fun a => key a = k) = A.group k := by
  induction keys with
  | nil => cases hk
  | cons k' keys ih =>
      obtain ⟨hnew, hnodup⟩ := List.nodup_cons.mp hkeys
      have hkey : ∀ a ∈ A.group k', key a = k' := fun a => A.key_eq List.mem_cons_self
      rw [List.flatMap_cons, List.filter_append]
      by_cases heq : k' = k
      · subst heq
        have hrest : (keys.flatMap A.group).filter (fun a => key a = k') = [] := by
          refine List.filter_eq_nil_iff.mpr fun a ha => ?_
          have hmem := (A.tail.mem_flatMap.mp ha).2
          rw [decide_eq_true_iff]
          exact fun h => hnew (h ▸ hmem)
        rw [hrest, List.append_nil]
        exact List.filter_eq_self.mpr fun a ha => decide_eq_true (hkey a ha)
      · have hfirst : (A.group k').filter (fun a => key a = k) = [] := by
          refine List.filter_eq_nil_iff.mpr fun a ha => ?_
          rw [decide_eq_true_iff, hkey a ha]
          exact heq
        rw [hfirst, List.nil_append]
        exact ih A.tail hnodup ((List.mem_cons.mp hk).resolve_left fun h => heq h.symm)

end GroupedRows
