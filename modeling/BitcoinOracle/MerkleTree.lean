import Mathlib.Data.Nat.Log
import Mathlib.Data.List.Basic

/-! # Merkle trees whose odd levels repeat their last node

A tree is its list of leaves.  A level becomes the next one by combining
neighbours with `node`, the last entry with itself when it has no neighbour
(`parents`); the root is the single entry of level `Nat.clog 2 n`.

A *step* of a path is a sibling and the side it stands on, `climb` the value a
path computes from a leaf.  `IsBranch` says that a path really is a branch of the
tree, from the level it starts at up to the root.  Every branch climbs to the root
(`IsBranch.climb_eq`); conversely a path as long as the tree is high that climbs
to the root is a branch, provided `node` has no collision between the pairs the
tree combines and those the path does (`isBranch_of_climb_eq`).  A shorter path that
climbs to the root starts at an inner node (`isBranch_of_climb_eq_root`), and a longer
one ends in a branch (`isBranch_drop_of_climb_eq_root`).
-/
namespace MerkleTree
variable {H : Type*}

/-- The pairs of neighbours of a level. -/
def pairs : List H → List (H × H)
  | [] => []
  | [a] => [(a, a)]
  | a :: b :: l => (a, b) :: pairs l

theorem mem_of_mem_pairs {l : List H} {p : H × H} (h : p ∈ pairs l) : p.1 ∈ l ∧ p.2 ∈ l := by
  induction l using pairs.induct with
  | case1 => cases h
  | case2 a =>
      rw [pairs, List.mem_singleton] at h
      subst h
      simp
  | case3 a b l ih =>
      rcases List.mem_cons.mp h with rfl | h
      · simp
      · obtain ⟨h1, h2⟩ := ih h
        exact ⟨List.mem_cons_of_mem _ (List.mem_cons_of_mem _ h1),
          List.mem_cons_of_mem _ (List.mem_cons_of_mem _ h2)⟩

theorem pairs_length (l : List H) : (pairs l).length = (l.length + 1) / 2 := by
  induction l using pairs.induct with
  | case1 => simp [pairs]
  | case2 a => simp [pairs]
  | case3 a b l ih =>
      simp only [pairs, List.length_cons, ih]
      omega

variable (node : H → H → H)

/-- The level above `l`. -/
def parents (l : List H) : List H := (pairs l).map fun p => node p.1 p.2

/-- The level `k` above `l`. -/
def level : List H → Nat → List H
  | l, 0 => l
  | l, k + 1 => level (parents node l) k

/-- The height of a tree over `n` leaves. -/
def height (n : Nat) : Nat := Nat.clog 2 n

/-- The root of the tree over `l`. -/
def root (l : List H) : Option H := (level node l (height l.length)).head?

@[simp] theorem level_zero (l : List H) : level node l 0 = l := rfl

theorem level_succ (l : List H) (k : Nat) :
    level node l (k + 1) = level node (parents node l) k := rfl

theorem level_add (l : List H) (j k : Nat) :
    level node l (j + k) = level node (level node l j) k := by
  induction j generalizing l with
  | zero => rw [Nat.zero_add, level_zero]
  | succ j ih => rw [Nat.succ_add, level_succ, level_succ, ih]

theorem level_succ_eq_parents (l : List H) (k : Nat) :
    level node l (k + 1) = parents node (level node l k) := by
  rw [level_add]
  rfl

theorem parents_length (l : List H) : (parents node l).length = (l.length + 1) / 2 := by
  rw [parents, List.length_map, pairs_length]

/-- The level at the tree's height is a single node, its root. -/
theorem level_height {l : List H} (hl : l ≠ []) :
    ∃ r, level node l (height l.length) = [r] ∧ root node l = some r := by
  suffices key : ∀ n (l : List H), l.length = n → l ≠ [] →
      ∃ r, level node l (height n) = [r] by
    obtain ⟨r, hr⟩ := key l.length l rfl hl
    exact ⟨r, hr, by rw [root, hr]; rfl⟩
  intro n
  induction n using Nat.strongRecOn with
  | ind n ih =>
      intro l hn hl
      have hpos : 0 < l.length := List.length_pos_iff.mpr hl
      rcases Nat.lt_or_ge n 2 with h1 | h2
      · obtain ⟨r, rfl⟩ := List.length_eq_one_iff.mp (show l.length = 1 by omega)
        exact ⟨r, by rw [height, Nat.clog_of_right_le_one (by omega)]; rfl⟩
      · have hlen : (parents node l).length = (n + 2 - 1) / 2 := by
          rw [parents_length, hn]
          omega
        rw [height, Nat.clog_of_two_le (by omega) h2, level_succ]
        refine ih _ (by omega) _ hlen (List.length_pos_iff.mp ?_)
        omega

/-! ## Paths -/

/-- A sibling, and whether it stands on the left. -/
abbrev Step (H : Type*) := Bool × H

/-- The pair a step combines. -/
def stepPair (x : H) (s : Step H) : H × H := if s.1 then (s.2, x) else (x, s.2)

def climbStep (x : H) (s : Step H) : H := node (stepPair x s).1 (stepPair x s).2

/-- The value a path computes from `x`. -/
def climb (x : H) (path : List (Step H)) : H := path.foldl (climbStep node) x

/-- The pairs a path combines. -/
def climbPairs : H → List (Step H) → List (H × H)
  | _, [] => []
  | x, s :: path => stepPair x s :: climbPairs (climbStep node x s) path

/-- `path` is a branch of the tree from the node `x` of level `l` to the root. -/
def IsBranch : List H → H → List (Step H) → Prop
  | l, x, [] => l = [x]
  | l, x, s :: path => stepPair x s ∈ pairs l ∧ IsBranch (parents node l) (climbStep node x s) path

@[simp] theorem climb_nil (x : H) : climb node x [] = x := rfl

theorem climb_cons (x : H) (s : Step H) (path : List (Step H)) :
    climb node x (s :: path) = climb node (climbStep node x s) path := rfl

theorem climb_append (x : H) (p q : List (Step H)) :
    climb node x (p ++ q) = climb node (climb node x p) q :=
  List.foldl_append

theorem climbPairs_append (x : H) (p q : List (Step H)) :
    climbPairs node x (p ++ q) = climbPairs node x p ++ climbPairs node (climb node x p) q := by
  induction p generalizing x with
  | nil => rfl
  | cons s p ih => simp only [List.cons_append, climbPairs, ih, climb_cons]

/-- A step's pair contains the value it starts from. -/
theorem mem_of_stepPair_mem {l : List H} {x : H} {s : Step H} (h : stepPair x s ∈ pairs l) :
    x ∈ l := by
  have hmem := mem_of_mem_pairs h
  unfold stepPair at hmem
  split at hmem
  · exact hmem.2
  · exact hmem.1

theorem IsBranch.climb_eq {l : List H} {x r : H} {path : List (Step H)}
    (h : IsBranch node l x path) (hr : level node l path.length = [r]) : climb node x path = r := by
  induction path generalizing l x with
  | nil =>
      have hx : [x] = [r] := (show l = [x] from h).symm.trans hr
      exact List.singleton_injective hx
  | cons s path ih => exact ih h.2 hr

theorem IsBranch.mem {l : List H} {x : H} {path : List (Step H)} (h : IsBranch node l x path) :
    x ∈ l := by
  cases path with
  | nil =>
      rw [show l = [x] from h]
      exact List.mem_singleton_self x
  | cons s path => exact mem_of_stepPair_mem h.1

/-- **A path as long as the tree is high that climbs to the root is a branch.**  The
induction runs down from the root: the pair combined last is the pair of the root,
hence the one before it a pair of the level below. -/
theorem isBranch_of_climb_eq {l : List H} {x r : H} {path : List (Step H)}
    (hinj : ∀ k < path.length, ∀ p ∈ pairs (level node l k), ∀ q ∈ climbPairs node x path,
      node p.1 p.2 = node q.1 q.2 → p = q)
    (hr : level node l path.length = [r]) (h : climb node x path = r) : IsBranch node l x path := by
  induction path generalizing l x with
  | nil =>
      rw [← h] at hr
      exact hr
  | cons s path ih =>
      have hbranch := ih (l := parents node l) (x := climbStep node x s)
        (fun k hk p hp q hq => hinj (k + 1) (Nat.succ_lt_succ hk) p hp q
          (List.mem_cons_of_mem _ hq)) hr h
      obtain ⟨p, hp, hpx⟩ := List.mem_map.mp hbranch.mem
      have hpair : p = stepPair x s :=
        hinj 0 (Nat.succ_pos path.length) p hp _ List.mem_cons_self hpx
      have hin : stepPair x s ∈ pairs l := hpair ▸ hp
      exact ⟨hin, hbranch⟩

/-! ## The branch of a leaf

What a server that knows the tree answers: at each level the neighbour of the node, or
the node itself where it has none. -/

/-- The neighbour of entry `j`, which may be the entry itself. -/
def sibling (l : List H) (j : Nat) : Option H :=
  if j % 2 = 0 then l[j + 1]?.or l[j]? else l[j - 1]?

/-- The siblings of entry `j` over `k` levels. -/
def siblings : Nat → List H → Nat → List H
  | 0, _, _ => []
  | k + 1, l, j => (sibling l j).toList ++ siblings k (parents node l) (j / 2)

/-- A path whose sides are the bits of an index. -/
def sided (j : Nat) (hs : List H) : List (Step H) := hs.mapIdx fun k h => (j.testBit k, h)

theorem sided_cons (j : Nat) (h : H) (hs : List H) :
    sided j (h :: hs) = (j.testBit 0, h) :: sided (j / 2) hs := by
  simp only [sided, List.mapIdx_cons, Nat.testBit_succ]

theorem pairs_getElem? {l : List H} {j : Nat} {x : H} (hx : l[j]? = some x) :
    ∃ s, sibling l j = some s ∧ (pairs l)[j / 2]? = some (stepPair x (j.testBit 0, s)) := by
  induction l using pairs.induct generalizing j with
  | case1 => simp at hx
  | case2 a =>
      obtain rfl : j = 0 := by
        have := (List.getElem?_eq_some_iff.mp hx).1
        simp only [List.length_singleton] at this
        omega
      exact ⟨x, by simpa [sibling] using hx, by simpa [pairs, stepPair] using hx⟩
  | case3 a b l ih =>
      rcases Nat.lt_or_ge j 2 with hlt | hge
      · obtain rfl | rfl : j = 0 ∨ j = 1 := by omega
        · obtain rfl : a = x := Option.some.inj hx
          exact ⟨b, rfl, rfl⟩
        · obtain rfl : b = x := Option.some.inj hx
          exact ⟨a, rfl, rfl⟩
      · -- further on the first pair is skipped
        obtain ⟨i, rfl⟩ := Nat.exists_eq_add_of_le' hge
        obtain ⟨s, hs, hpair⟩ := ih hx
        refine ⟨s, ?_, ?_⟩
        · rw [← hs, sibling, sibling, Nat.add_mod_right]
          by_cases heven : i % 2 = 0
          · rw [if_pos heven, if_pos heven]
            rfl
          · rw [if_neg heven, if_neg heven]
            obtain ⟨i, rfl⟩ := Nat.exists_eq_succ_of_ne_zero (show i ≠ 0 by omega)
            rfl
        · have hbit : (i + 2).testBit 0 = i.testBit 0 := by
            rw [Nat.testBit_zero, Nat.testBit_zero, Nat.add_mod_right]
          rw [hbit, ← hpair, show (i + 2) / 2 = i / 2 + 1 by omega]
          rfl

theorem parents_getElem? {l : List H} {j : Nat} {x : H} (hx : l[j]? = some x) :
    ∃ s, sibling l j = some s ∧ stepPair x (j.testBit 0, s) ∈ pairs l ∧
      (parents node l)[j / 2]? = some (climbStep node x (j.testBit 0, s)) := by
  obtain ⟨s, hs, hpair⟩ := pairs_getElem? hx
  refine ⟨s, hs, List.mem_of_getElem? hpair, ?_⟩
  rw [parents, List.getElem?_map, hpair]
  rfl

theorem siblings_length {l : List H} {j k : Nat} {x : H} (hx : l[j]? = some x) :
    (siblings node k l j).length = k := by
  induction k generalizing l j x with
  | zero => rfl
  | succ k ih =>
      obtain ⟨s, hs, -, hparent⟩ := parents_getElem? node hx
      rw [siblings, hs, List.length_append, ih hparent]
      exact Nat.add_comm 1 k

theorem exists_level_of_mem_siblings {l : List H} {j k : Nat} {h : H}
    (hmem : h ∈ siblings node k l j) : ∃ i, h ∈ level node l i := by
  induction k generalizing l j with
  | zero => cases hmem
  | succ k ih =>
      rcases List.mem_append.mp hmem with hhere | habove
      · refine ⟨0, ?_⟩
        have hs : sibling l j = some h := Option.mem_toList.mp hhere
        unfold sibling at hs
        split at hs
        · rcases Option.or_eq_some_iff.mp hs with hs | ⟨-, hs⟩
          · exact List.mem_of_getElem? hs
          · exact List.mem_of_getElem? hs
        · exact List.mem_of_getElem? hs
      · obtain ⟨i, hi⟩ := ih habove
        exact ⟨i + 1, hi⟩

/-- **The siblings of a leaf are its branch.** -/
theorem isBranch_siblings {l : List H} {j k : Nat} {x r : H} (hx : l[j]? = some x)
    (hr : level node l k = [r]) : IsBranch node l x (sided j (siblings node k l j)) := by
  induction k generalizing l j x with
  | zero =>
      -- a level of one entry
      obtain rfl : l = [r] := hr
      obtain ⟨hj, rfl⟩ := List.getElem?_eq_some_iff.mp hx
      obtain rfl : j = 0 := Nat.lt_one_iff.mp hj
      rfl
  | succ k ih =>
      obtain ⟨s, hs, hpair, hparent⟩ := parents_getElem? node hx
      rw [siblings, hs]
      show IsBranch node l x (sided j (s :: siblings node k (parents node l) (j / 2)))
      rw [sided_cons]
      exact ⟨hpair, ih hparent hr⟩

/-! ## Paths of any length -/

/-- The pairs a tree over `l` combines. -/
def treePairs (l : List H) : List (H × H) :=
  (List.range (height l.length)).flatMap fun k => pairs (level node l k)

theorem mem_treePairs {l : List H} {p : H × H} :
    p ∈ treePairs node l ↔ ∃ k < height l.length, p ∈ pairs (level node l k) := by
  simp only [treePairs, List.mem_flatMap, List.mem_range]

variable {node} {l : List H} {x r : H} {path : List (Step H)}

/-- A path at most as long as the tree is high is a branch from the level it can start
at: of a shorter one, that is no level of leaves. -/
theorem isBranch_of_climb_eq_root (hl : l ≠ []) (hroot : root node l = some r)
    (hinj : ∀ p ∈ treePairs node l, ∀ q ∈ climbPairs node x path,
      node p.1 p.2 = node q.1 q.2 → p = q)
    (hle : path.length ≤ height l.length) (h : climb node x path = r) :
    IsBranch node (level node l (height l.length - path.length)) x path := by
  obtain ⟨r', hlevel, hr'⟩ := level_height node hl
  obtain rfl : r' = r := Option.some.inj (hr'.symm.trans hroot)
  refine isBranch_of_climb_eq node ?_ ?_ h
  · intro k hk p hp
    rw [← level_add] at hp
    exact hinj p ((mem_treePairs node).mpr ⟨_, by omega, hp⟩)
  · rw [← level_add, Nat.sub_add_cancel hle]
    exact hlevel

/-- The last steps of a path at least as long as the tree is high are a branch from
the leaves. -/
theorem isBranch_drop_of_climb_eq_root {low high : List (Step H)} (hl : l ≠ [])
    (hroot : root node l = some r)
    (hinj : ∀ p ∈ treePairs node l, ∀ q ∈ climbPairs node x (low ++ high),
      node p.1 p.2 = node q.1 q.2 → p = q)
    (hhigh : high.length = height l.length) (h : climb node x (low ++ high) = r) :
    IsBranch node l (climb node x low) high := by
  rw [climb_append] at h
  have hbranch := isBranch_of_climb_eq_root hl hroot (fun p hp q hq => hinj p hp q (by
    rw [climbPairs_append]
    exact List.mem_append_right _ hq)) (le_of_eq hhigh) h
  rwa [hhigh, Nat.sub_self, level_zero] at hbranch

end MerkleTree
