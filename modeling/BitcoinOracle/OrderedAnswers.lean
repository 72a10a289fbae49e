import Mathlib.Data.List.Sort
import Mathlib.Order.Basic

/-! # Answers in an order, up to a limit

A query that orders its rows by a key and takes so many of them leaves open how rows of
one key are ordered, and so which of them it takes.  A row is in some answer exactly if
fewer rows than the limit are before it in the order (`exists_answer_mem_iff`).
-/
namespace OrderedAnswers
variable {α κ : Type*} [LinearOrder κ]

/-- The first `limit` of the rows, in some descending order of their keys. -/
def Answer (key : α → κ) (limit : Nat) (rows answer : List α) : Prop :=
  ∃ ordered : List α, ordered.Perm rows ∧ (ordered.Pairwise fun a b => key b ≤ key a) ∧
    answer = ordered.take limit

/-- In descending order. -/
def descending (key : α → κ) (rows : List α) : List α :=
  rows.insertionSort fun a b => key b ≤ key a

theorem descending_perm (key : α → κ) (rows : List α) : (descending key rows).Perm rows :=
  List.perm_insertionSort _ rows

theorem pairwise_descending (key : α → κ) (rows : List α) :
    (descending key rows).Pairwise fun a b => key b ≤ key a := by
  have htotal : Std.Total fun a b : α => key b ≤ key a := ⟨fun a b => le_total (key b) (key a)⟩
  have htrans : IsTrans α fun a b => key b ≤ key a := ⟨fun _ _ _ hab hbc => hbc.trans hab⟩
  exact List.pairwise_insertionSort _ rows

theorem exists_answer (key : α → κ) (limit : Nat) (rows : List α) :
    ∃ answer, Answer key limit rows answer :=
  ⟨(descending key rows).take limit, descending key rows, descending_perm key rows,
    pairwise_descending key rows, rfl⟩

variable {key : α → κ} {limit : Nat} {rows answer : List α}

theorem Answer.subset (h : Answer key limit rows answer) : answer ⊆ rows := by
  obtain ⟨ordered, hperm, -, rfl⟩ := h
  exact fun a ha => hperm.subset (List.mem_of_mem_take ha)

/-- Whatever is before a row in an answer leaves room for it. -/
theorem Answer.countP_lt (h : Answer key limit rows answer) {a : α} (ha : a ∈ answer) :
    rows.countP (fun b => key a < key b) < limit := by
  obtain ⟨ordered, hperm, horder, rfl⟩ := h
  obtain ⟨front, behind, hfront⟩ := List.append_of_mem ha
  have hordered : ordered = front ++ a :: (behind ++ ordered.drop limit) := by
    calc ordered = ordered.take limit ++ ordered.drop limit := (List.take_append_drop ..).symm
      _ = front ++ a :: (behind ++ ordered.drop limit) := by rw [hfront, List.append_assoc]; rfl
  have hnone : ∀ b ∈ a :: (behind ++ ordered.drop limit), ¬ key a < key b := by
    rw [hordered] at horder
    intro b hb
    rcases List.mem_cons.mp hb with rfl | hb
    · exact lt_irrefl _
    · exact not_lt.mpr
        ((List.pairwise_cons.mp (List.pairwise_append.mp horder).2.1).1 b hb)
  have hlength : front.length < limit := by
    have htake := List.length_take_le limit ordered
    rw [hfront, List.length_append, List.length_cons] at htake
    omega
  have hbehind : (a :: (behind ++ ordered.drop limit)).countP (fun b => key a < key b) = 0 :=
    List.countP_eq_zero.mpr fun b hb => by simpa using hnone b hb
  calc rows.countP (fun b => key a < key b)
      = (front ++ a :: (behind ++ ordered.drop limit)).countP (fun b => key a < key b) := by
        rw [← hordered, hperm.countP_eq]
    _ = front.countP (fun b => key a < key b) := by
        rw [List.countP_append, hbehind, Nat.add_zero]
    _ ≤ front.length := List.countP_le_length
    _ < limit := hlength

/-- **A row is in some answer exactly if fewer rows than the limit are before it.** -/
theorem exists_answer_mem_iff {a : α} :
    (∃ answer, Answer key limit rows answer ∧ a ∈ answer) ↔
      a ∈ rows ∧ rows.countP (fun b => key a < key b) < limit := by
  constructor
  · rintro ⟨answer, hanswer, ha⟩
    exact ⟨hanswer.subset ha, hanswer.countP_lt ha⟩
  · rintro ⟨ha, hlt⟩
    classical
    -- what has a larger key, the row, and everything else
    let before := rows.filter fun b => key a < key b
    let rest := rows.filter fun b => !decide (key a < key b)
    have hrest : a ∈ rest := by simp [rest, ha]
    let ordered := descending key before ++ a :: descending key (rest.erase a)
    have hperm : ordered.Perm rows := by
      have hbehind : (a :: descending key (rest.erase a)).Perm rest :=
        ((descending_perm key _).cons a).trans (List.perm_cons_erase hrest).symm
      exact ((descending_perm key before).append hbehind).trans
        (List.filter_append_perm (fun b => decide (key a < key b)) rows)
    have hbefore : ∀ b ∈ descending key before, key a < key b := by
      intro b hb
      simpa [before] using (List.mem_filter.mp ((descending_perm key before).subset hb)).2
    have hafter : ∀ b ∈ descending key (rest.erase a), key b ≤ key a := by
      intro b hb
      have hmem := List.mem_of_mem_erase ((descending_perm key _).subset hb)
      simpa [rest] using (List.mem_filter.mp hmem).2
    have horder : ordered.Pairwise fun b c => key c ≤ key b := by
      refine List.pairwise_append.mpr ⟨pairwise_descending key before,
        List.pairwise_cons.mpr ⟨hafter, pairwise_descending key _⟩, fun b hb c hc => ?_⟩
      rcases List.mem_cons.mp hc with rfl | hc
      · exact (hbefore b hb).le
      · exact (hafter c hc).trans (hbefore b hb).le
    refine ⟨_, ⟨ordered, hperm, horder, rfl⟩, ?_⟩
    have hlength : (descending key before).length < limit := by
      rw [(descending_perm key before).length_eq, ← List.countP_eq_length_filter]
      exact hlt
    refine List.mem_take_iff_getElem.mpr ⟨_, ?_, List.getElem_of_append (l := ordered) rfl rfl⟩
    simp only [ordered, List.length_append, List.length_cons]
    omega

end OrderedAnswers
