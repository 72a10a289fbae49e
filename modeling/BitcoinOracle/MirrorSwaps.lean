import Mathlib.Data.List.Basic

/-! # Lists reversed from the outside in

A list can be reversed without a second pass: position `k` and its mirror image are
written together, for `k` from zero up to the middle.  The values come from the list
itself (`Mirrored`), or from what the writes before have left of it, which in the middle
is still the list (`MirroredInPlace`).  A position that is its own mirror image is written
twice, with the same value.
-/

/-- The `k` outermost positions of `l` on either side hold what `src` has at their mirror
images. -/
structure Mirrored {α : Type*} (src : List α) (k : Nat) (l : List α) : Prop where
  length : l.length = src.length
  outer : ∀ i < src.length, i < k ∨ src.length - 1 - i < k → l[i]? = src[src.length - 1 - i]?

/-- Moreover the others hold what they held in `src`. -/
structure MirroredInPlace {α : Type*} (src : List α) (k : Nat) (l : List α) : Prop
    extends Mirrored src k l where
  inner : ∀ i < src.length, ¬ (i < k ∨ src.length - 1 - i < k) → l[i]? = src[i]?

section Mirrored
variable {α : Type*} {src l : List α} {k : Nat} {near far : α}

theorem mirrored_zero (h : l.length = src.length) : Mirrored src 0 l :=
  ⟨h, fun i _ hout => by omega⟩

theorem mirroredInPlace_zero (src : List α) : MirroredInPlace src 0 src :=
  ⟨mirrored_zero rfl, fun _ _ _ => rfl⟩

theorem Mirrored.eq_reverse (h : Mirrored src k l) (hk : src.length ≤ 2 * k) : l = src.reverse := by
  refine List.ext_getElem? fun i => ?_
  by_cases hi : i < src.length
  · -- past the middle every position is among the outermost, the middle itself included
    rw [h.outer i hi (by omega), List.getElem?_reverse hi]
  · have hlen := h.length
    rw [List.getElem?_eq_none (by omega),
      List.getElem?_eq_none (by rw [List.length_reverse]; omega)]

/-- What two writes leave at a position. -/
theorem getElem?_set_set {i j m : Nat} (hi : i < l.length) (hj : j < l.length) :
    ((l.set i far).set j near)[m]? =
      if m = j then some near else if m = i then some far else l[m]? := by
  by_cases hmj : m = j
  · subst hmj
    rw [if_pos rfl, List.getElem?_set_self (by rwa [List.length_set])]
  · rw [if_neg hmj, List.getElem?_set_ne (Ne.symm hmj)]
    by_cases hmi : m = i
    · subst hmi
      rw [if_pos rfl, List.getElem?_set_self hi]
    · rw [if_neg hmi, List.getElem?_set_ne (Ne.symm hmi)]

theorem Mirrored.set (h : Mirrored src k l) (hk : 2 * k < src.length) (hnear : src[k]? = some near)
    (hfar : src[src.length - 1 - k]? = some far) :
    Mirrored src (k + 1) ((l.set k far).set (src.length - 1 - k) near) := by
  have hlen := h.length
  refine ⟨by rw [List.length_set, List.length_set, hlen], fun i hi hout => ?_⟩
  rw [getElem?_set_set (by omega) (by omega)]
  by_cases hilast : i = src.length - 1 - k
  · rw [if_pos hilast, ← hnear]
    congr 1
    omega
  · rw [if_neg hilast]
    by_cases hik : i = k
    · rw [if_pos hik, ← hfar, hik]
    · rw [if_neg hik]
      exact h.outer i hi (by omega)

/-- The two values may be read off the list that is being written. -/
theorem MirroredInPlace.set (h : MirroredInPlace src k l) (hk : 2 * k < src.length)
    (hnear : l[k]? = some near) (hfar : l[src.length - 1 - k]? = some far) :
    MirroredInPlace src (k + 1) ((l.set k far).set (src.length - 1 - k) near) := by
  have hlen := h.length
  rw [h.inner k (by omega) (by omega)] at hnear
  rw [h.inner (src.length - 1 - k) (by omega) (by omega)] at hfar
  refine ⟨h.toMirrored.set hk hnear hfar, fun i hi hin => ?_⟩
  rw [getElem?_set_set (by omega) (by omega), if_neg (by omega), if_neg (by omega)]
  exact h.inner i hi (by omega)

end Mirrored
