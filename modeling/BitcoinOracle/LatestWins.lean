import Mathlib.Data.List.Basic
import Mathlib.Order.BoundedOrder.Basic
import Mathlib.Order.Lattice
import Mathlib.Data.List.Perm.Basic

/-! # Cells in which the latest value wins

Offers arrive at a cell one after the other, each with the time it is of, and an
offer replaces what the cell holds when it is strictly later (`absorb`).  An empty
cell counts as of the bottom time, so an offer of the bottom time is never taken.

Whatever the offers are, the time of a cell never goes back and what a cell holds
was offered (`time_le_settle`, `settle_eq_or_mem`).  When offers of one time agree
and none is of the bottom time, an empty cell ends with an offer of the greatest
time, whatever the order of arrival (`settle_eq_some_iff`, `settle_perm`).
-/
namespace LatestWins
variable {V T : Type*} [LinearOrder T] [OrderBot T] (time : V → T)

/-- The time of a cell. -/
def cellTime (c : Option V) : T := c.elim ⊥ time

/-- The cell after an offer. -/
def absorb (c : Option V) (v : V) : Option V := if cellTime time c < time v then some v else c

/-- The cell after a list of offers. -/
def settle (c : Option V) (vs : List V) : Option V := vs.foldl (absorb time) c

variable {time} {c : Option V} {u v : V} {vs ws : List V}

@[simp] theorem cellTime_none : cellTime time (none : Option V) = ⊥ := rfl

@[simp] theorem cellTime_some : cellTime time (some v) = time v := rfl

@[simp] theorem settle_nil : settle time c [] = c := rfl

theorem settle_cons : settle time c (v :: vs) = settle time (absorb time c v) vs := rfl

theorem settle_append : settle time c (vs ++ ws) = settle time (settle time c vs) ws :=
  List.foldl_append

/-! ## One offer -/

theorem time_le_absorb : cellTime time c ≤ cellTime time (absorb time c v) := by
  unfold absorb
  split
  · next hlt => exact le_of_lt hlt
  · exact le_refl _

theorem offer_le_absorb : time v ≤ cellTime time (absorb time c v) := by
  unfold absorb
  split
  · exact le_refl _
  · next hlt => exact not_lt.mp hlt

theorem absorb_eq_or (time : V → T) (c : Option V) (v : V) :
    absorb time c v = c ∨ absorb time c v = some v := by
  unfold absorb
  split
  · exact Or.inr rfl
  · exact Or.inl rfl

theorem isSome_absorb (h : c.isSome = true) : (absorb time c v).isSome = true := by
  rcases absorb_eq_or time c v with heq | heq
  · rw [heq]
    exact h
  · rw [heq]
    rfl

/-! ## A list of offers -/

/-- **The time of a cell never goes back.** -/
theorem time_le_settle : cellTime time c ≤ cellTime time (settle time c vs) := by
  induction vs generalizing c with
  | nil => exact le_refl _
  | cons v vs ih => exact le_trans time_le_absorb ih

theorem offer_le_settle (hv : v ∈ vs) : time v ≤ cellTime time (settle time c vs) := by
  induction vs generalizing c with
  | nil => cases hv
  | cons w vs ih =>
      rcases List.mem_cons.mp hv with rfl | hv
      · exact le_trans offer_le_absorb time_le_settle
      · exact ih hv

/-- **What a cell holds, it held before or was offered.** -/
theorem settle_eq_or_mem (time : V → T) (c : Option V) (vs : List V) :
    settle time c vs = c ∨ ∃ v ∈ vs, settle time c vs = some v := by
  induction vs generalizing c with
  | nil => exact Or.inl rfl
  | cons w vs ih =>
      rw [settle_cons]
      rcases ih (absorb time c w) with heq | ⟨v, hv, heq⟩
      · rw [heq]
        rcases absorb_eq_or time c w with hc | hw
        · exact Or.inl hc
        · exact Or.inr ⟨w, List.mem_cons_self, hw⟩
      · exact Or.inr ⟨v, List.mem_cons_of_mem w hv, heq⟩

/-- A full cell is never emptied. -/
theorem isSome_settle (h : c.isSome = true) : (settle time c vs).isSome = true := by
  induction vs generalizing c with
  | nil => exact h
  | cons v vs ih => exact ih (isSome_absorb h)

/-! ## Offers that agree -/

/-- `v` is an offer of the greatest time. -/
def IsLatest (time : V → T) (vs : List V) (v : V) : Prop := v ∈ vs ∧ ∀ u ∈ vs, time u ≤ time v

/-- Offers of one time are one offer. -/
def Agree (time : V → T) (vs : List V) : Prop := ∀ u ∈ vs, ∀ v ∈ vs, time u = time v → u = v

/-- **An empty cell ends with the offer of the greatest time.** -/
theorem settle_eq_some_iff (hpos : ∀ u ∈ vs, ⊥ < time u) (hagree : Agree time vs) :
    settle time none vs = some v ↔ IsLatest time vs v := by
  have hmax : ∀ u ∈ vs, time u ≤ cellTime time (settle time none vs) := fun u hu =>
    offer_le_settle hu
  constructor
  · intro h
    rw [h] at hmax
    rcases settle_eq_or_mem time none vs with hnone | ⟨w, hw, hsome⟩
    · rw [h] at hnone
      cases hnone
    · rw [h] at hsome
      cases hsome
      exact ⟨hw, hmax⟩
  · rintro ⟨hv, hlatest⟩
    rcases settle_eq_or_mem time none vs with hnone | ⟨w, hw, hsome⟩
    · have hle := hmax v hv
      rw [hnone] at hle
      exact absurd (hpos v hv) (not_lt.mpr hle)
    · rw [hsome] at hmax ⊢
      rw [hagree w hw v hv (le_antisymm (hlatest w hw) (hmax v hv))]

/-- **The order of arrival does not matter.** -/
theorem settle_perm (hpos : ∀ u ∈ vs, ⊥ < time u) (hagree : Agree time vs) (hperm : vs.Perm ws) :
    settle time none vs = settle time none ws := by
  have hmem : ∀ u, u ∈ ws ↔ u ∈ vs := fun u => hperm.mem_iff.symm
  refine Option.ext fun v => ?_
  rw [settle_eq_some_iff hpos hagree,
    settle_eq_some_iff (fun u hu => hpos u ((hmem u).mp hu))
      (fun u hu w hw => hagree u ((hmem u).mp hu) w ((hmem w).mp hw))]
  simp only [IsLatest, hmem]

end LatestWins
