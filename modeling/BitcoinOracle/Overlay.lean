import Mathlib.Logic.Function.Basic
import Mathlib.Data.List.Basic

/-! # A map under a frozen one

Two contents, one under the other: a read looks into the frozen `base` first and
into the other only where `base` has nothing; a write goes to the other.  Such a
pair looks like one ordinary map until a key of `base` is written with a new value
and read again: from then on the ordinary map answers with what was written and the
pair with what `base` holds.  `layered_eq_plain_iff` says that this is all that can
go wrong.

Values may depend on their keys, so that several maps are one by a sum of their keys.
-/
namespace Overlay
variable {K : Type*} {V : K → Type*}

/-- What a map holds. -/
abbrev Content (V : K → Type*) := ∀ k, Option (V k)

/-- The calls on a map. -/
inductive Op (V : K → Type*) where
  | set (k : K) (v : V k)
  | get (k : K)

/-- Their answers. -/
inductive Answer (V : K → Type*) where
  | done
  | found (k : K) (v : Option (V k))

/-- What the pair serves. -/
def merge (base m : Content V) : Content V := fun k => (base k).or (m k)

variable [DecidableEq K]

def set (m : Content V) (k : K) (v : V k) : Content V := Function.update m k (some v)

@[simp] theorem set_self (m : Content V) (k : K) (v : V k) : set m k v k = some v :=
  Function.update_self ..

theorem set_of_ne {m : Content V} {k k' : K} {v : V k} (h : k' ≠ k) : set m k v k' = m k' :=
  Function.update_of_ne h ..

/-- The answers of an ordinary map. -/
def plain : Content V → List (Op V) → List (Answer V)
  | _, [] => []
  | m, .set k v :: ops => .done :: plain (set m k v) ops
  | m, .get k :: ops => .found k (m k) :: plain m ops

/-- The answers of a map under `base`. -/
def layered (base : Content V) : Content V → List (Op V) → List (Answer V)
  | _, [] => []
  | m, .set k v :: ops => .done :: layered base (set m k v) ops
  | m, .get k :: ops => .found k (merge base m k) :: layered base m ops

/-- The last value a list of calls sets a key to. -/
def lastSet (k : K) : List (Op V) → Option (V k)
  | [] => none
  | .set k' v :: ops => (lastSet k ops).or (set (fun _ => none) k' v k)
  | .get _ :: ops => lastSet k ops

/-- No key of `base` is read after it was last set to a value other than the one
`base` holds. -/
def Unshadowed (base : Content V) (ops : List (Op V)) : Prop :=
  ∀ before k after v, ops = before ++ .get k :: after → base k = some v →
    lastSet k before = none ∨ lastSet k before = some v

theorem set_merge_set (d m : Content V) (k : K) (v : V k) :
    set (merge d m) k v = merge (set d k v) m := by
  funext k'
  unfold merge
  by_cases hk : k' = k
  · subst hk
    rw [set_self, set_self]
    rfl
  · rw [set_of_ne hk, set_of_ne hk]

theorem lastSet_set_or (d : Content V) (k k' : K) (v : V k) (ops : List (Op V)) :
    (lastSet k' (.set k v :: ops)).or (d k') = (lastSet k' ops).or (set d k v k') := by
  show ((lastSet k' ops).or _).or (d k') = _
  rw [Option.or_assoc]
  congr 1
  by_cases hk : k' = k
  · subst hk
    rw [set_self, set_self]
    rfl
  · rw [set_of_ne hk, set_of_ne hk]
    rfl

/-- At one key, whose last written value is `d`, the pair and the map agree just
when `base` has nothing there, nothing was written, or what `base` has was. -/
theorem or_eq_or_iff {α : Type*} (base d m : Option α) :
    base.or (d.or m) = d.or (base.or m) ↔ ∀ v, base = some v → d = none ∨ d = some v := by
  cases base with
  | none => simp
  | some v =>
      cases d with
      | none => simp
      | some w => simp [eq_comm]

/-- The induction carries in `d` what has been written so far. -/
theorem layered_eq_plain_iff_from (base d m : Content V) (ops : List (Op V)) :
    layered base (merge d m) ops = plain (merge d (merge base m)) ops ↔
      ∀ before k after v, ops = before ++ .get k :: after → base k = some v →
        (lastSet k before).or (d k) = none ∨ (lastSet k before).or (d k) = some v := by
  induction ops generalizing d with
  | nil =>
      refine iff_of_true rfl fun before k after v hops => ?_
      cases before with
      | nil => cases hops
      | cons op before => cases hops
  | cons op ops ih =>
      cases op with
      | set k v =>
          rw [layered, plain, List.cons.injEq, eq_self_iff_true, true_and, set_merge_set,
            set_merge_set, ih]
          constructor
          · intro h before k' after v' hops hbase
            cases before with
            | nil => cases hops
            | cons op before =>
                -- what the set changes is the layer the rest starts from
                obtain ⟨rfl, rfl⟩ := List.cons.inj hops
                rw [lastSet_set_or]
                exact h before k' after v' rfl hbase
          · intro h before k' after v' hops hbase
            rw [← lastSet_set_or]
            exact h (.set k v :: before) k' after v' (by rw [hops]; rfl) hbase
      | get k =>
          have hhead : (Answer.found k (merge base (merge d m) k) : Answer V) =
              .found k (merge d (merge base m) k) ↔
                ∀ v, base k = some v → d k = none ∨ d k = some v := by
            rw [← or_eq_or_iff (base k) (d k) (m k)]
            constructor
            · intro h
              injection h
            · exact congrArg (Answer.found k)
          rw [layered, plain, List.cons.injEq, hhead, ih]
          constructor
          · rintro ⟨hk, h⟩ before k' after v' hops hbase
            cases before with
            | nil =>
                -- the get at hand is this one
                obtain ⟨hop, -⟩ := List.cons.inj hops
                cases hop
                exact hk v' hbase
            | cons op before =>
                obtain ⟨rfl, rfl⟩ := List.cons.inj hops
                exact h before k' after v' rfl hbase
          · intro h
            refine ⟨fun v hbase => h [] k ops v rfl hbase, ?_⟩
            intro before k' after v' hops hbase
            exact h (.get k :: before) k' after v' (by rw [hops]; rfl) hbase

/-- **A map under a frozen one answers like one ordinary map exactly when no key of
the frozen one is read after it was last set to another value.** -/
theorem layered_eq_plain_iff (base m : Content V) (ops : List (Op V)) :
    layered base m ops = plain (merge base m) ops ↔ Unshadowed base ops := by
  have h := layered_eq_plain_iff_from base (fun _ => none) m ops
  simp only [Option.or_none] at h
  exact h

end Overlay
