import Mathlib.Data.List.Basic
import Mathlib.Data.List.Forall2

/-! # Encodings as relations

An encoding relates values to the strings that stand for them; several strings may
stand for one value.  `Occurs` says where a string occurs in a longer one, `Seq` is
the encoding of a list as the encodings of its elements one after another.

A function `f` is `Shortest` for an encoding when no string for `x` is shorter than
`f x` and none but `f x` is as short: `f` then is the canonical form, and a string is
canonical as soon as it is as short as the canonical one.
-/
namespace Encoding
variable {α β : Type*}

/-! ## Occurrences -/

/-- `w` stands in `xs` from position `i` on. -/
def Occurs (w xs : List β) (i : Nat) : Prop := ∃ pre post, pre.length = i ∧ xs = pre ++ (w ++ post)

theorem occurs_start (w post : List β) : Occurs w (w ++ post) 0 := ⟨[], post, rfl, rfl⟩

theorem occurs_self (w : List β) : Occurs w w 0 := ⟨[], [], rfl, (List.append_nil w).symm⟩

theorem Occurs.le {w xs : List β} {i : Nat} (h : Occurs w xs i) : i + w.length ≤ xs.length := by
  obtain ⟨pre, post, rfl, rfl⟩ := h
  rw [List.length_append, List.length_append]
  omega

theorem occurs_nil_iff {xs : List β} {i : Nat} : Occurs [] xs i ↔ i ≤ xs.length := by
  constructor
  · intro h
    exact h.le
  · intro h
    exact ⟨xs.take i, xs.drop i, by rw [List.length_take, Nat.min_eq_left h],
      (List.take_append_drop i xs).symm⟩

theorem occurs_append_iff {v w xs : List β} {i : Nat} :
    Occurs (v ++ w) xs i ↔ Occurs v xs i ∧ Occurs w xs (i + v.length) := by
  constructor
  · rintro ⟨pre, post, rfl, rfl⟩
    refine ⟨⟨pre, w ++ post, rfl, by rw [List.append_assoc]⟩, pre ++ v, post, ?_, ?_⟩
    · rw [List.length_append]
    · rw [List.append_assoc, List.append_assoc]
  · rintro ⟨⟨pre, post, rfl, rfl⟩, pre', post', hlen, heq⟩
    have hsplit : (pre ++ v) ++ post = pre' ++ (w ++ post') := by
      rw [List.append_assoc]
      exact heq
    obtain ⟨-, rfl⟩ := List.append_inj hsplit (by rw [List.length_append, hlen])
    exact ⟨pre, post', rfl, by rw [List.append_assoc]⟩

theorem occurs_iff {w xs : List β} {i : Nat} :
    Occurs w xs i ↔ i + w.length ≤ xs.length ∧ w = (xs.take (i + w.length)).drop i := by
  constructor
  · intro h
    refine ⟨h.le, ?_⟩
    obtain ⟨pre, post, rfl, rfl⟩ := h
    rw [← List.append_assoc, List.take_left' (List.length_append ..), List.drop_left]
  · rintro ⟨hle, heq⟩
    refine ⟨xs.take i, xs.drop (i + w.length), by rw [List.length_take]; omega, ?_⟩
    rw [List.drop_take, Nat.add_sub_cancel_left] at heq
    have hdrop : xs.drop i = w ++ xs.drop (i + w.length) := by
      have h := List.take_append_drop w.length (xs.drop i)
      rw [← heq, List.drop_drop] at h
      exact h.symm
    rw [← hdrop, List.take_append_drop]

/-- Where there is room, some string occurs. -/
theorem exists_occurs {xs : List β} {i n : Nat} (h : i + n ≤ xs.length) :
    ∃ w, Occurs w xs i ∧ w.length = n := by
  have hlen : ((xs.take (i + n)).drop i).length = n := by
    rw [List.length_drop, List.length_take]
    omega
  refine ⟨_, occurs_iff.mpr ⟨?_, ?_⟩, hlen⟩
  · rwa [hlen]
  · rw [hlen]

/-- Two strings of one length that occur at one place are the same. -/
theorem Occurs.unique {v w xs : List β} {i : Nat} (hv : Occurs v xs i) (hw : Occurs w xs i)
    (hlen : v.length = w.length) : v = w := by
  rw [(occurs_iff.mp hv).2, (occurs_iff.mp hw).2, hlen]

/-! ## Sequences -/

/-- The encodings of the elements of a list, one after another. -/
inductive Seq (E : α → List β → Prop) : List α → List β → Prop
  | nil : Seq E [] []
  | cons {x : α} {xs : List α} {b bs : List β} : E x b → Seq E xs bs → Seq E (x :: xs) (b ++ bs)

variable {E F : α → List β → Prop} {f : α → List β}

theorem seq_nil_iff {bs : List β} : Seq E [] bs ↔ bs = [] := by
  constructor
  · intro h
    cases h
    rfl
  · rintro rfl
    exact .nil

theorem Seq.mono (h : ∀ x b, E x b → F x b) {xs : List α} {bs : List β} (hs : Seq E xs bs) :
    Seq F xs bs := by
  induction hs with
  | nil => exact .nil
  | cons hx hxs ih => exact .cons (h _ _ hx) ih

theorem Seq.forall_mem {p : α → Prop} (h : ∀ x b, E x b → p x) {xs : List α} {bs : List β}
    (hs : Seq E xs bs) : ∀ x ∈ xs, p x := by
  induction hs with
  | nil => nofun
  | cons hx hxs ih =>
      intro y hy
      rcases List.mem_cons.mp hy with rfl | hy
      · exact h _ _ hx
      · exact ih y hy

theorem seq_flatMap {xs : List α} (h : ∀ x ∈ xs, E x (f x)) : Seq E xs (xs.flatMap f) := by
  induction xs with
  | nil => exact .nil
  | cons x xs ih =>
      exact .cons (h x List.mem_cons_self) (ih fun y hy => h y (List.mem_cons_of_mem x hy))

theorem length_le_flatMap_of_mem {xs : List α} {x : α} (h : x ∈ xs) :
    (f x).length ≤ (xs.flatMap f).length := by
  rw [List.flatMap_def]
  exact (List.sublist_flatten_of_mem (List.mem_map_of_mem h)).length_le

theorem length_le_flatMap (hf : ∀ x, 0 < (f x).length) (xs : List α) :
    xs.length ≤ (xs.flatMap f).length := by
  induction xs with
  | nil => exact Nat.zero_le _
  | cons x xs ih =>
      have hx := hf x
      rw [List.length_cons, List.flatMap_cons, List.length_append]
      omega

/-- At each place of `xs` stands at most one string of `E`, and it stands for one value. -/
def PrefixFreeOn (xs : List β) (E : α → List β → Prop) : Prop :=
  ∀ i x y b c, E x b → E y c → Occurs b xs i → Occurs c xs i → x = y ∧ b = c

theorem PrefixFreeOn.mono {xs : List β} (h : PrefixFreeOn xs F) (hE : ∀ x b, E x b → F x b) :
    PrefixFreeOn xs E :=
  fun i x y b c hx hy => h i x y b c (hE x b hx) (hE y c hy)

/-- As many strings of a prefix-free encoding one after another are read in one way. -/
theorem PrefixFreeOn.seq {xs : List β} (h : PrefixFreeOn xs E) {as as' : List α} {b c : List β}
    {i : Nat} (hb : Seq E as b) (hc : Seq E as' c) (hlen : as.length = as'.length)
    (hib : Occurs b xs i) (hic : Occurs c xs i) : as = as' ∧ b = c := by
  induction hb generalizing as' c i with
  | nil =>
      obtain rfl := List.length_eq_zero_iff.mp hlen.symm
      exact ⟨rfl, (seq_nil_iff.mp hc).symm⟩
  | cons hx _ ih =>
      cases hc with
      | nil => cases hlen
      | cons hy hys =>
          obtain ⟨hib, hib'⟩ := occurs_append_iff.mp hib
          obtain ⟨hic, hic'⟩ := occurs_append_iff.mp hic
          obtain ⟨rfl, rfl⟩ := h i _ _ _ _ hx hy hib hic
          obtain ⟨rfl, rfl⟩ := ih hys (Nat.succ.inj hlen) hib' hic'
          exact ⟨rfl, rfl⟩

/-- A string of `E`, and behind it one of the encoding that its value calls for. -/
def Then {γ : Type*} (E : α → List β → Prop) (F : α → γ → List β → Prop) (v : γ) (b : List β) :
    Prop :=
  ∃ a b₁ b₂, E a b₁ ∧ F a v b₂ ∧ b = b₁ ++ b₂

/-! ## Shortest strings -/

/-- Of all strings for `x`, `f x` is the shortest, and the only one of its length. -/
def Shortest (E : α → List β → Prop) (f : α → List β) : Prop :=
  ∀ x b, E x b → (f x).length ≤ b.length ∧ (b.length = (f x).length → b = f x)

/-- Concatenations of shortest strings are shortest. -/
theorem append_shortest {v v' w w' : List β}
    (hv : v.length ≤ v'.length ∧ (v'.length = v.length → v' = v))
    (hw : w.length ≤ w'.length ∧ (w'.length = w.length → w' = w)) :
    (v ++ w).length ≤ (v' ++ w').length ∧ ((v' ++ w').length = (v ++ w).length → v' ++ w' = v ++ w) := by
  rw [List.length_append, List.length_append]
  refine ⟨by omega, fun hlen => ?_⟩
  rw [hv.2 (by omega), hw.2 (by omega)]

theorem shortest_refl (v : List β) : v.length ≤ v.length ∧ (v.length = v.length → v = v) :=
  ⟨Nat.le_refl _, fun _ => rfl⟩

theorem Shortest.seq (h : Shortest E f) : Shortest (Seq E) (List.flatMap f) := by
  intro xs bs hs
  induction hs with
  | nil => exact shortest_refl []
  | cons hx hxs ih => exact append_shortest (h _ _ hx) ih

end Encoding
